import NullSafety.Memo
import NullSafety.ParameterTypes

namespace NullSafety

structure CachedParameters where
  signature : Option String
  types : ParameterTypes
  deriving DecidableEq

/-- The parameter types of methods. They stay good for as long as the signature is the same. -/
structure ParameterCache where
  memo : Memo MethodId CachedParameters

namespace ParameterCache

def empty : ParameterCache := ⟨.empty⟩

def typesOf (c : ParameterCache) (d : Declaration MethodId) :
    Fetched ParameterTypes × ParameterCache :=
  let (fetched, memo) := c.memo.fetch d.member (fun cached => cached.signature = d.signature)
    fun _ => ⟨d.signature, .ofDeclarationOrErased d⟩
  (fetched.map CachedParameters.types, ⟨memo⟩)

def invalidate (c : ParameterCache) (m : MethodId) : Bool × ParameterCache :=
  let (found, memo) := c.memo.invalidate m
  (found, ⟨memo⟩)

def size (c : ParameterCache) : Nat := c.memo.size

def isEmpty (c : ParameterCache) : Bool := c.memo.isEmpty

theorem find?_typesOf {c : ParameterCache} {d : Declaration MethodId} {m : MethodId}
    {e : CachedParameters} (h : (c.typesOf d).2.memo.find? m = some e) :
    c.memo.find? m = some e ∨ d.member = m ∧ ⟨d.signature, .ofDeclarationOrErased d⟩ = e := by
  dsimp only [typesOf] at h
  exact Memo.find?_fetch h

theorem isSome_find?_typesOf (c : ParameterCache) (d : Declaration MethodId) (m : MethodId) :
    ((c.typesOf d).2.memo.find? m).isSome ↔ d.member = m ∨ (c.memo.find? m).isSome := by
  dsimp only [typesOf]
  exact Memo.isSome_find?_fetch ..

/-- The answer is computed, or it was stored for the same method and signature. -/
theorem value_typesOf (c : ParameterCache) (d : Declaration MethodId) :
    (c.typesOf d).1.value = .ofDeclarationOrErased d ∨
      ∃ e, c.memo.find? d.member = some e ∧ e.signature = d.signature ∧
        (c.typesOf d).1.value = e.types := by
  have hvalue : (c.typesOf d).1.value =
      (((c.memo.find? d.member).filter fun e => e.signature = d.signature).getD
        ⟨d.signature, .ofDeclarationOrErased d⟩).types := by
    dsimp only [typesOf]
    rw [Fetched.value_map, Memo.value_fetch]
  rw [hvalue]
  cases hfind : (c.memo.find? d.member).filter fun e => e.signature = d.signature with
  | none => exact .inl rfl
  | some e =>
    obtain ⟨hfind, hs⟩ := Option.filter_eq_some_iff.mp hfind
    exact .inr ⟨e, hfind, of_decide_eq_true hs, rfl⟩

end ParameterCache

end NullSafety
