import Std.Data.HashMap

namespace NullSafety

def sortByKey {κ ν : Type} [Ord κ] (entries : List (κ × ν)) : List (κ × ν) :=
  entries.mergeSort fun a b => (compare a.1 b.1).isLE

/-- The places of the items in ascending order; equal items keep theirs. -/
def ranking {α : Type} [Ord α] (items : List α) : List Nat :=
  (sortByKey items.zipIdx).map (·.2)

structure Memo (κ ν : Type) [BEq κ] [Hashable κ] where
  entries : Std.HashMap κ ν

/-- A value, and whether it was there already or had to be computed. -/
inductive Fetched (ν : Type)
  | kept (v : ν)
  | computed (v : ν)
  deriving DecidableEq

namespace Fetched

variable {ν μ : Type}

def value : Fetched ν → ν
  | kept v | computed v => v

def isComputed : Fetched ν → Bool
  | kept _ => false
  | computed _ => true

def map (f : ν → μ) : Fetched ν → Fetched μ
  | kept v => kept (f v)
  | computed v => computed (f v)

theorem value_map (f : ν → μ) (x : Fetched ν) : (x.map f).value = f x.value := by
  cases x <;> rfl

end Fetched

namespace Memo

variable {κ ν : Type} [BEq κ] [Hashable κ]

def empty : Memo κ ν := ⟨∅⟩

instance : Inhabited (Memo κ ν) := ⟨empty⟩

def size (m : Memo κ ν) : Nat := m.entries.size

def isEmpty (m : Memo κ ν) : Bool := m.entries.isEmpty

def find? (m : Memo κ ν) (k : κ) : Option ν := m.entries[k]?

def fresh? (m : Memo κ ν) (k : κ) (isFresh : ν → Bool) : Option ν :=
  (m.find? k).filter isFresh

def store (m : Memo κ ν) (k : κ) (v : ν) : Memo κ ν := ⟨m.entries.insert k v⟩

/-- The fresh value of a key, computed and stored if need be. A computation that fails leaves
no trace. -/
def fetch? (m : Memo κ ν) (k : κ) (isFresh : ν → Bool) (compute : Unit → Option ν) :
    Option (Fetched ν) × Memo κ ν :=
  match m.fresh? k isFresh with
  | some v => (some (.kept v), m)
  | none =>
    match compute () with
    | some v => (some (.computed v), m.store k v)
    | none => (none, m)

theorem isSome_fetch? (m : Memo κ ν) (k : κ) (isFresh : ν → Bool) (compute : Unit → ν) :
    (m.fetch? k isFresh fun _ => some (compute ())).1.isSome := by
  unfold fetch?
  cases m.fresh? k isFresh <;> rfl

/-- A computation that cannot fail always gives a value. -/
def fetch (m : Memo κ ν) (k : κ) (isFresh : ν → Bool) (compute : Unit → ν) :
    Fetched ν × Memo κ ν :=
  let found := m.fetch? k isFresh fun _ => some (compute ())
  (found.1.get (m.isSome_fetch? k isFresh compute), found.2)

def invalidate (m : Memo κ ν) (k : κ) : Bool × Memo κ ν :=
  (m.entries.contains k, ⟨m.entries.erase k⟩)

def retain (m : Memo κ ν) (keep : κ → ν → Bool) : Memo κ ν := ⟨m.entries.filter keep⟩

def toList [Ord κ] (m : Memo κ ν) : List (κ × ν) := sortByKey m.entries.toList

section

variable {m : Memo κ ν} {k : κ} {isFresh : ν → Bool} {compute : Unit → ν}

theorem fetch_of_fresh {v : ν} (h : m.fresh? k isFresh = some v) :
    m.fetch k isFresh compute = (.kept v, m) := by
  simp [fetch, fetch?, h]

theorem fetch_of_lacking (h : m.fresh? k isFresh = none) :
    m.fetch k isFresh compute = (.computed (compute ()), m.store k (compute ())) := by
  simp [fetch, fetch?, h]

end

theorem find?_empty (k : κ) : (empty : Memo κ ν).find? k = none := by
  simp [find?, empty]

section

variable [LawfulBEq κ]

theorem find?_store (m : Memo κ ν) (k l : κ) (v : ν) :
    (m.store k v).find? l = if k == l then some v else m.find? l :=
  Std.HashMap.getElem?_insert

theorem find?_invalidate (m : Memo κ ν) (k l : κ) :
    (m.invalidate k).2.find? l = if k == l then none else m.find? l :=
  Std.HashMap.getElem?_erase

theorem find?_retain (m : Memo κ ν) (keep : κ → ν → Bool) (k : κ) :
    (m.retain keep).find? k = (m.find? k).filter (keep k) :=
  Std.HashMap.getElem?_filter'

/-- Fetching adds at most the value of its own key. -/
theorem find?_fetch {m : Memo κ ν} {k l : κ} {isFresh : ν → Bool} {compute : Unit → ν} {v : ν}
    (h : (m.fetch k isFresh compute).2.find? l = some v) :
    m.find? l = some v ∨ k = l ∧ compute () = v := by
  cases hfresh : m.fresh? k isFresh with
  | some w =>
    rw [fetch_of_fresh hfresh] at h
    exact .inl h
  | none =>
    rw [fetch_of_lacking hfresh, find?_store] at h
    split at h
    · rename_i hk
      exact .inr ⟨eq_of_beq hk, Option.some.inj h⟩
    · exact .inl h

theorem isSome_find?_fetch (m : Memo κ ν) (k l : κ) (isFresh : ν → Bool) (compute : Unit → ν) :
    ((m.fetch k isFresh compute).2.find? l).isSome ↔ k = l ∨ (m.find? l).isSome := by
  cases hfresh : m.fresh? k isFresh with
  | some v =>
    have hk : (m.find? k).isSome :=
      Option.isSome_iff_exists.mpr ⟨v, (Option.filter_eq_some_iff.mp hfresh).1⟩
    rw [fetch_of_fresh hfresh]
    refine ⟨.inr, ?_⟩
    rintro (rfl | hl)
    · exact hk
    · exact hl
  | none =>
    rw [fetch_of_lacking hfresh, find?_store]
    by_cases hkl : k = l
    · simp [hkl]
    · simp [hkl]

theorem exists_keys (m : Memo κ ν) :
    ∃ ks : List κ, ks.Nodup ∧ (∀ k, k ∈ ks ↔ (m.find? k).isSome) ∧ m.size = ks.length := by
  refine ⟨m.entries.keys, Std.HashMap.nodup_keys, fun k => ?_, Std.HashMap.length_keys.symm⟩
  rw [Std.HashMap.mem_keys]
  exact Std.HashMap.mem_iff_isSome_getElem?

end

theorem value_fetch (m : Memo κ ν) (k : κ) (isFresh : ν → Bool) (compute : Unit → ν) :
    (m.fetch k isFresh compute).1.value = ((m.find? k).filter isFresh).getD (compute ()) := by
  cases hfresh : (m.find? k).filter isFresh with
  | some v => rw [fetch_of_fresh hfresh]; rfl
  | none => rw [fetch_of_lacking hfresh]; rfl

end Memo

end NullSafety
