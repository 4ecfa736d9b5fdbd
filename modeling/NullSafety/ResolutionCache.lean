import NullSafety.Memo
import NullSafety.Resolution

namespace NullSafety

structure CachedResolution where
  declaration : Declaration MemberId
  resolution : Resolution
  deriving DecidableEq

/-- The nullness of members. It stays good for as long as the declaration is the same; changes
to classes, packages and the table have to be told. -/
structure ResolutionCache where
  memo : Memo MemberId CachedResolution

namespace ResolutionCache

def empty : ResolutionCache := ⟨.empty⟩

def resolve (c : ResolutionCache) (r : Resolver) (d : Declaration MemberId) :
    Fetched Resolution × ResolutionCache :=
  let (fetched, memo) := c.memo.fetch d.member (fun cached => cached.declaration = d)
    fun _ => ⟨d, r.resolve d⟩
  (fetched.map CachedResolution.resolution, ⟨memo⟩)

def invalidate (c : ResolutionCache) (m : MemberId) : Bool × ResolutionCache :=
  let (found, memo) := c.memo.invalidate m
  (found, ⟨memo⟩)

def invalidateClass (c : ResolutionCache) (owner : ClassName) : ResolutionCache :=
  ⟨c.memo.retain fun m _ => m.owner ≠ owner⟩

def invalidatePackage (c : ResolutionCache) (package : PackageName) : ResolutionCache :=
  ⟨c.memo.retain fun m _ => m.owner.package ≠ package⟩

def size (c : ResolutionCache) : Nat := c.memo.size

def isEmpty (c : ResolutionCache) : Bool := c.memo.isEmpty

theorem find?_resolve {c : ResolutionCache} {r : Resolver} {d : Declaration MemberId}
    {m : MemberId} {e : CachedResolution} (h : (c.resolve r d).2.memo.find? m = some e) :
    c.memo.find? m = some e ∨ d.member = m ∧ ⟨d, r.resolve d⟩ = e := by
  dsimp only [resolve] at h
  exact Memo.find?_fetch h

/-- The answer is computed, or it was stored for this very declaration. -/
theorem value_resolve (c : ResolutionCache) (r : Resolver) (d : Declaration MemberId) :
    (c.resolve r d).1.value = r.resolve d ∨
      ∃ e, c.memo.find? d.member = some e ∧ e.declaration = d ∧
        (c.resolve r d).1.value = e.resolution := by
  have hvalue : (c.resolve r d).1.value =
      (((c.memo.find? d.member).filter fun e => e.declaration = d).getD
        ⟨d, r.resolve d⟩).resolution := by
    dsimp only [resolve]
    rw [Fetched.value_map, Memo.value_fetch]
  rw [hvalue]
  cases hfind : (c.memo.find? d.member).filter fun e => e.declaration = d with
  | none => exact .inl rfl
  | some e =>
    obtain ⟨hfind, hd⟩ := Option.filter_eq_some_iff.mp hfind
    exact .inr ⟨e, hfind, of_decide_eq_true hd, rfl⟩

end ResolutionCache

end NullSafety
