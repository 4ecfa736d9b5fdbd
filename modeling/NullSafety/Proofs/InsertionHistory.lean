import Mathlib.Data.Finset.Card
import Mathlib.Data.Finset.Dedup
import Mathlib.Data.Finset.Filter
import NullSafety.AnnotationTable

namespace NullSafety

section

variable {α β : Type} {f : α → Option β} {xs : List α}

theorem findSomeRev?_concat (f : α → Option β) (xs : List α) (x : α) :
    (xs ++ [x]).findSomeRev? f = (f x).or (xs.findSomeRev? f) := by
  rw [List.findSomeRev?_eq_findSome?_reverse, List.reverse_concat, List.findSome?_cons,
    List.findSomeRev?_eq_findSome?_reverse]
  cases f x with
  | none => rfl
  | some b => rfl

/-- The last item with a value splits the list, and no item behind it has one. -/
theorem findSomeRev?_eq_some_iff {b : β} :
    xs.findSomeRev? f = some b ↔ ∃ before x after, xs = before ++ x :: after ∧ f x = some b ∧
      ∀ y ∈ after, f y = none := by
  rw [List.findSomeRev?_eq_findSome?_reverse, List.findSome?_eq_some_iff]
  constructor
  · rintro ⟨later, x, earlier, hxs, hx, hlater⟩
    refine ⟨earlier.reverse, x, later.reverse, ?_, hx, by simpa using hlater⟩
    apply List.reverse_injective
    rw [hxs]
    simp
  · rintro ⟨before, x, after, rfl, hx, hafter⟩
    exact ⟨after.reverse, x, before.reverse, by simp, hx, by simpa using hafter⟩

theorem findSomeRev?_eq_none_iff : xs.findSomeRev? f = none ↔ ∀ x ∈ xs, f x = none := by
  rw [List.findSomeRev?_eq_findSome?_reverse, List.findSome?_eq_none_iff]
  simp only [List.mem_reverse]

end

def spellings (name : String) : List String :=
  [name, "L" ++ name ++ ";", replaceChar '/' '.' name, "L" ++ replaceChar '/' '.' name ++ ";"]

def IsBare (u : List Char) : Prop := ¬ (u.head? = some 'L' ∧ u.getLast? = some ';')

def slashed (u : List Char) : List Char := u.map fun c => if c = '.' then '/' else c

def dotted (u : List Char) : List Char := u.map fun c => if c = '/' then '.' else c

instance (u : List Char) : Decidable (IsBare u) := inferInstanceAs (Decidable (¬ _))

theorem IsBare.undelimited_eq {u : List Char} (h : IsBare u) : undelimited u = u := by
  apply if_neg
  rintro ⟨hhead, hlast⟩
  apply h
  refine ⟨hhead, ?_⟩
  cases u with
  | nil => cases hhead
  | cons c u => rw [List.getLast?_cons, show u.getLast? = some ';' from hlast, Option.getD_some]

theorem undelimited_descriptor (u : List Char) : undelimited ('L' :: (u ++ [';'])) = u := by
  simp [undelimited]

theorem IsBare.dotted {u : List Char} (h : IsBare u) : IsBare (dotted u) := by
  have hkeep (d : Char) (hdot : d ≠ '.') (o : Option Char)
      (ho : o.map (fun c => if c = '/' then '.' else c) = some d) : o = some d := by
    obtain ⟨c, rfl, hc⟩ := Option.map_eq_some_iff.mp ho
    split at hc
    · exact absurd hc.symm hdot
    · rw [hc]
  rintro ⟨hhead, hlast⟩
  rw [NullSafety.dotted, List.head?_map] at hhead
  rw [NullSafety.dotted, List.getLast?_map] at hlast
  exact h ⟨hkeep 'L' (by decide) _ hhead, hkeep ';' (by decide) _ hlast⟩

theorem slashed_eq_self {u : List Char} (hdot : '.' ∉ u) : slashed u = u := by
  calc slashed u = u.map id := by
        apply List.map_congr_left
        intro c hc
        apply if_neg
        rintro rfl
        exact hdot hc
    _ = u := List.map_id u

/-- Slashes that are written as dots become slashes again, if there was no dot before. -/
theorem slashed_dotted {u : List Char} (hdot : '.' ∉ u) : slashed (dotted u) = u := by
  calc slashed (dotted u) = u.map id := by
        rw [slashed, dotted, List.map_map]
        apply List.map_congr_left
        intro c hc
        have hne : c ≠ '.' := by
          rintro rfl
          exact hdot hc
        by_cases hslash : c = '/'
        · simp [hslash]
        · simp [hslash, hne]
    _ = u := List.map_id u

theorem toList_annotationName (s : String) :
    (annotationName s).toList = slashed (undelimited s.toList) := by
  rw [annotationName, replaceChar, String.toList_map, String.toList_ofList]
  rfl

theorem annotationName_of_toList {s name : String}
    (h : slashed (undelimited s.toList) = name.toList) : annotationName s = name := by
  apply String.toList_injective
  rw [toList_annotationName, h]

/-- All spellings of a binary name have that name, unless it has a dot in it or looks like a
descriptor. -/
theorem annotationName_of_mem_spellings {name s : String} (hdot : '.' ∉ name.toList)
    (hbare : IsBare name.toList) (hs : s ∈ spellings name) : annotationName s = name := by
  have hdotted : (replaceChar '/' '.' name).toList = dotted name.toList := String.toList_map
  have hdescriptor (u : String) :
      ("L" ++ u ++ ";").toList = 'L' :: (u.toList ++ [';']) := by
    simp
  apply annotationName_of_toList
  simp only [spellings, List.mem_cons, List.not_mem_nil, or_false] at hs
  obtain rfl | rfl | rfl | rfl := hs
  · rw [hbare.undelimited_eq, slashed_eq_self hdot]
  · rw [hdescriptor, undelimited_descriptor, slashed_eq_self hdot]
  · rw [hdotted, hbare.dotted.undelimited_eq, slashed_dotted hdot]
  · rw [hdescriptor, undelimited_descriptor, hdotted, slashed_dotted hdot]

namespace AnnotationTable

def LastInsertion (pairs : List (String × Nullness)) (name : String) (n : Nullness) : Prop :=
  ∃ before spelling after, pairs = before ++ (spelling, n) :: after ∧
    annotationName spelling = name ∧ ∀ p ∈ after, annotationName p.1 ≠ name

/-- The last insertion under a name declares something. -/
def Kept (pairs : List (String × Nullness)) (name : String) : Prop :=
  ∃ n, n.isExplicit = true ∧ LastInsertion pairs name n

def insertedAs? (name : String) (p : String × Nullness) : Option Nullness :=
  if annotationName p.1 = name then some p.2 else none

def lastInserted? (pairs : List (String × Nullness)) (name : String) : Option Nullness :=
  pairs.findSomeRev? (insertedAs? name)

theorem insertedAs?_eq_some_iff {name : String} {p : String × Nullness} {n : Nullness} :
    insertedAs? name p = some n ↔ annotationName p.1 = name ∧ p.2 = n := by
  by_cases hp : annotationName p.1 = name
  · simp [insertedAs?, hp]
  · simp [insertedAs?, hp]

theorem insertedAs?_eq_none_iff {name : String} {p : String × Nullness} :
    insertedAs? name p = none ↔ annotationName p.1 ≠ name := by
  by_cases hp : annotationName p.1 = name
  · simp [insertedAs?, hp]
  · simp [insertedAs?, hp]

theorem lastInserted?_eq_some_iff {pairs : List (String × Nullness)} {name : String}
    {n : Nullness} : lastInserted? pairs name = some n ↔ LastInsertion pairs name n := by
  rw [lastInserted?, findSomeRev?_eq_some_iff]
  simp only [insertedAs?_eq_some_iff, insertedAs?_eq_none_iff]
  constructor
  · rintro ⟨before, ⟨spelling, _⟩, after, hpairs, ⟨hname, rfl⟩, hafter⟩
    exact ⟨before, spelling, after, hpairs, hname, hafter⟩
  · rintro ⟨before, spelling, after, hpairs, hname, hafter⟩
    exact ⟨before, (spelling, n), after, hpairs, ⟨hname, rfl⟩, hafter⟩

instance (pairs : List (String × Nullness)) (name : String) : Decidable (Kept pairs name) :=
  decidable_of_iff ((lastInserted? pairs name).any Nullness.isExplicit = true) (by
    simp only [Option.any_eq_true, lastInserted?_eq_some_iff, Kept, and_comm])

theorem LastInsertion.mem_names {pairs : List (String × Nullness)} {name : String} {n : Nullness}
    (h : LastInsertion pairs name n) : name ∈ pairs.map fun p => annotationName p.1 := by
  obtain ⟨before, spelling, after, rfl, hname, -⟩ := h
  rw [List.mem_map]
  exact ⟨(spelling, n), List.mem_append_right before List.mem_cons_self, hname⟩

theorem ofList_concat (pairs : List (String × Nullness)) (p : String × Nullness) :
    ofList (pairs ++ [p]) = (ofList pairs).insert p.1 p.2 :=
  List.foldl_concat ..

/-- After any number of insertions a name has what the last one under it declared. -/
theorem entries_ofList (pairs : List (String × Nullness)) (name : String) :
    (ofList pairs).entries[name]? = (lastInserted? pairs name).filter Nullness.isExplicit := by
  induction pairs using List.reverseRecOn with
  | nil => simp [ofList, empty, lastInserted?]
  | append_singleton pairs p ih =>
    rw [ofList_concat, entries_insert, ih, lastInserted?, lastInserted?, findSomeRev?_concat]
    by_cases hp : annotationName p.1 = name
    · simp [insertedAs?, hp, Option.filter]
    · simp [insertedAs?, hp]

theorem entries_ofList_eq_some_iff {pairs : List (String × Nullness)} {name : String}
    {n : Nullness} :
    (ofList pairs).entries[name]? = some n ↔
      n.isExplicit = true ∧ LastInsertion pairs name n := by
  rw [entries_ofList, Option.filter_eq_some_iff, lastInserted?_eq_some_iff, and_comm]

theorem entries_ofList_eq_none_iff {pairs : List (String × Nullness)} {name : String} :
    (ofList pairs).entries[name]? = none ↔
      (∀ p ∈ pairs, annotationName p.1 ≠ name) ∨ LastInsertion pairs name .undeclared := by
  have hnone : (∀ p ∈ pairs, annotationName p.1 ≠ name) ↔ lastInserted? pairs name = none := by
    rw [lastInserted?, findSomeRev?_eq_none_iff]
    simp only [insertedAs?_eq_none_iff]
  rw [entries_ofList, hnone, ← lastInserted?_eq_some_iff]
  cases lastInserted? pairs name with
  | none => simp
  | some n => cases n <;> simp [Option.filter, Nullness.isExplicit]

theorem size_ofList (pairs : List (String × Nullness)) :
    (ofList pairs).size =
      ((pairs.map fun p => annotationName p.1).toFinset.filter (Kept pairs)).card := by
  have hkeys : (ofList pairs).entries.keys.toFinset =
      (pairs.map fun p => annotationName p.1).toFinset.filter (Kept pairs) := by
    ext name
    rw [List.mem_toFinset, Std.HashMap.mem_keys, Std.HashMap.mem_iff_isSome_getElem?,
      Option.isSome_iff_exists, Finset.mem_filter, List.mem_toFinset]
    simp only [entries_ofList_eq_some_iff]
    constructor
    · rintro ⟨n, hn, hlast⟩
      exact ⟨hlast.mem_names, n, hn, hlast⟩
    · rintro ⟨-, hkept⟩
      exact hkept
  rw [← hkeys, List.toFinset_card_of_nodup Std.HashMap.nodup_keys, Std.HashMap.length_keys]
  rfl

/-- A table says of each annotation what was last inserted under its name, in any spelling. An
insertion that declares nothing takes the name away. -/
theorem ofList_keeps_lastInsertion (pairs : List (String × Nullness)) :
    (∀ q n, (ofList pairs).nullnessOf? q = some n ↔
      n.isExplicit = true ∧ LastInsertion pairs (annotationName q) n) ∧
    (∀ q, (ofList pairs).nullnessOf? q = none ↔
      (∀ p ∈ pairs, annotationName p.1 ≠ annotationName q) ∨
        LastInsertion pairs (annotationName q) .undeclared) ∧
    (ofList pairs).size =
      ((pairs.map fun p => annotationName p.1).toFinset.filter (Kept pairs)).card ∧
    ∀ name : String, '.' ∉ name.toList → IsBare name.toList →
      ∀ s ∈ spellings name, ∀ u ∈ spellings name, ∀ t : AnnotationTable,
        t.nullnessOf? s = t.nullnessOf? u ∧ ∀ n, t.insert s n = t.insert u n := by
  refine ⟨fun q n => ?_, fun q => ?_, ?_, fun name hdot hbare s hs u hu t => ?_⟩
  · exact entries_ofList_eq_some_iff
  · exact entries_ofList_eq_none_iff
  · exact size_ofList pairs
  · have hname : annotationName s = annotationName u := by
      rw [annotationName_of_mem_spellings hdot hbare hs,
        annotationName_of_mem_spellings hdot hbare hu]
    constructor
    · rw [nullnessOf?, nullnessOf?, hname]
    · intro n
      rw [insert, insert, hname]

/-- Two annotations, each inserted twice in different spellings. The name of the first one begins
like a descriptor. -/
def respelledInsertions : List (String × Nullness) :=
  [("L.Nullable", .nullable), ("a.Unknown", .unspecified), ("LL/Nullable;", .nonNull),
    ("La/Unknown;", .undeclared)]

theorem ofList_keeps_lastInsertion_respelled :
    '.' ∉ "L/Nullable".toList ∧ IsBare "L/Nullable".toList ∧
      (ofList respelledInsertions).nullnessOf? "L/Nullable" = some .nonNull ∧
      (ofList respelledInsertions).nullnessOf? "LL.Nullable;" =
        (ofList respelledInsertions).nullnessOf? "L/Nullable" ∧
      (ofList respelledInsertions).nullnessOf? "a/Unknown" = none := by
  have hdot : '.' ∉ "L/Nullable".toList := by decide
  have hbare : IsBare "L/Nullable".toList := by decide
  have hspelled : "LL.Nullable;" ∈ spellings "L/Nullable" := by decide +kernel
  have hlast : LastInsertion respelledInsertions (annotationName "L/Nullable") .nonNull :=
    lastInserted?_eq_some_iff.mp (by decide +kernel)
  have htaken : LastInsertion respelledInsertions (annotationName "a/Unknown") .undeclared :=
    lastInserted?_eq_some_iff.mp (by decide +kernel)
  obtain ⟨hsome, hnone, -, hsame⟩ := ofList_keeps_lastInsertion respelledInsertions
  refine ⟨hdot, hbare, (hsome _ _).mpr ⟨rfl, hlast⟩, ?_, (hnone _).mpr (.inr htaken)⟩
  exact (hsame _ hdot hbare _ hspelled _ List.mem_cons_self _).1

end AnnotationTable

end NullSafety
