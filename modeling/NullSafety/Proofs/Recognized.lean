import NullSafety.Resolution
import NullSafety.Proofs.InsertionHistory

namespace NullSafety

/-- The first spelling of each name, in order. -/
def distinctNames (ss : List String) : List String :=
  ss.eraseDupsBy fun a b => annotationName a == annotationName b

theorem distinctNames_cons (s : String) (ss : List String) :
    distinctNames (s :: ss) =
      s :: distinctNames (ss.filter fun b => annotationName b ≠ annotationName s) := by
  rw [distinctNames, List.eraseDupsBy_cons]
  simp [distinctNames]

/-- What holds of a list if it holds of the rest without the first name holds of all lists. -/
theorem distinctNames_induction {P : List String → Prop} (nil : P [])
    (cons : ∀ s ss, P (ss.filter fun b => annotationName b ≠ annotationName s) → P (s :: ss))
    (ss : List String) : P ss := by
  induction hl : ss.length using Nat.strongRecOn generalizing ss with
  | ind l ih =>
    cases ss with
    | nil => exact nil
    | cons s ss =>
      have hlt : (ss.filter fun b => annotationName b ≠ annotationName s).length < l := by
        have := List.length_filter_le (fun b => decide (annotationName b ≠ annotationName s)) ss
        rw [← hl, List.length_cons]
        omega
      exact cons s ss (ih _ hlt _ rfl)

/-- A name can be dropped before or after the first spellings are picked. -/
theorem distinctNames_filter (n : String) (ss : List String) :
    distinctNames (ss.filter fun b => annotationName b ≠ n) =
      (distinctNames ss).filter fun b => annotationName b ≠ n := by
  induction ss using distinctNames_induction with
  | nil => rfl
  | cons a ss hss =>
    rw [distinctNames_cons]
    by_cases ha : annotationName a = n
    · rw [List.filter_cons_of_neg (by simpa using ha), List.filter_cons_of_neg (by simpa using ha),
        ← hss, List.filter_filter]
      simp [ha]
    · rw [List.filter_cons_of_pos (by simpa using ha), List.filter_cons_of_pos (by simpa using ha),
        distinctNames_cons, ← hss, List.filter_filter, List.filter_filter]
      simp only [Bool.and_comm]

/-- The names of the first spellings are the different names. -/
theorem map_distinctNames (ss : List String) :
    (distinctNames ss).map annotationName = (ss.map annotationName).eraseDups := by
  induction ss using distinctNames_induction with
  | nil => rfl
  | cons s ss ih =>
    have hfilter : (ss.map annotationName).filter (fun n => !(n == annotationName s)) =
        (ss.filter fun b => annotationName b ≠ annotationName s).map annotationName := by
      rw [List.filter_map]
      congr 2
      funext b
      rw [Bool.eq_iff_iff]
      simp
    rw [distinctNames_cons, List.map_cons, List.map_cons, List.eraseDups_cons, ih, hfilter]

theorem distinctNames_eq_nil {ss : List String} : distinctNames ss = [] ↔ ss = [] := by
  cases ss with
  | nil => exact ⟨fun _ => rfl, fun _ => rfl⟩
  | cons s ss => simp [distinctNames_cons]

/-- There are two first spellings as soon as there are two names. -/
theorem one_lt_length_distinctNames {ss : List String} :
    1 < (distinctNames ss).length ↔ ∃ a ∈ ss, ∃ b ∈ ss, annotationName a ≠ annotationName b := by
  cases ss with
  | nil => simp [distinctNames]
  | cons s ss =>
    have htail : 1 < (distinctNames (s :: ss)).length ↔
        ∃ b ∈ ss, annotationName b ≠ annotationName s := by
      rw [distinctNames_cons, List.length_cons, Nat.lt_add_left_iff_pos, List.length_pos_iff, Ne,
        distinctNames_eq_nil, List.filter_eq_nil_iff]
      simp
    rw [htail]
    constructor
    · rintro ⟨b, hb, hne⟩
      exact ⟨b, List.mem_cons_of_mem s hb, s, List.mem_cons_self .., hne⟩
    · rintro ⟨a, ha, b, hb, hne⟩
      by_cases has : annotationName a = annotationName s
      · refine ⟨b, (List.mem_cons.mp hb).resolve_left ?_, fun h => hne (has.trans h.symm)⟩
        rintro rfl
        exact hne has
      · refine ⟨a, (List.mem_cons.mp ha).resolve_left ?_, has⟩
        rintro rfl
        exact has rfl

namespace AnnotationTable

/-- The tables that can be made, with all insertions since the start: out of a list of entries, and
by further insertions. -/
inductive MadeBy : AnnotationTable → List (String × Nullness) → Prop
  | ofList (pairs : List (String × Nullness)) : MadeBy (ofList pairs) pairs
  | insert {t : AnnotationTable} {pairs : List (String × Nullness)} (h : MadeBy t pairs)
      (spelling : String) (n : Nullness) :
      MadeBy (t.insert spelling n) (pairs ++ [(spelling, n)])

theorem MadeBy.eq_ofList {t : AnnotationTable} {pairs : List (String × Nullness)}
    (h : t.MadeBy pairs) : t = .ofList pairs := by
  induction h with
  | ofList pairs => rfl
  | insert _ spelling n ih => rw [ofList_concat, ih]

def known (t : AnnotationTable) (ss : List String) : List String :=
  ss.filter fun s => (t.nullnessOf? s).isSome

/-- What a table knows is told by the insertions that made it. -/
theorem known_ofList (pairs : List (String × Nullness)) (ss : List String) :
    (ofList pairs).known ss = ss.filter fun s => Kept pairs (annotationName s) := by
  apply List.filter_congr
  intro s _
  rw [Bool.eq_iff_iff, Option.isSome_iff_exists, decide_eq_true_iff]
  exact exists_congr fun n => entries_ofList_eq_some_iff

theorem map_fst_firstSpellings (as : List (String × Nullness)) :
    (firstSpellings as).map Prod.fst = distinctNames (as.map Prod.fst) := by
  induction as with
  | nil => rfl
  | cons a as ih =>
    rw [firstSpellings, List.map_cons, List.map_cons, distinctNames_cons, distinctNames_filter,
      ← ih, List.filter_map]
    rfl

theorem map_fst_recognized (t : AnnotationTable) (ss : List String) :
    (t.recognized ss).map Prod.fst = distinctNames (t.known ss) := by
  have hmap : (ss.filterMap fun s => (t.nullnessOf? s).map (s, ·)).map Prod.fst = t.known ss := by
    induction ss with
    | nil => rfl
    | cons s ss ih =>
      cases hs : t.nullnessOf? s with
      | none => simpa [known, hs] using ih
      | some n => simpa [known, hs] using ih
  rw [recognized, map_fst_firstSpellings, hmap]

theorem head?_recognized (t : AnnotationTable) (ss : List String) :
    (t.recognized ss).head?.map Prod.snd = (t.known ss).head?.bind t.nullnessOf? := by
  have hfirst (as : List (String × Nullness)) : (firstSpellings as).head? = as.head? := by
    cases as <;> rfl
  rw [recognized, hfirst]
  induction ss with
  | nil => rfl
  | cons s ss ih =>
    cases hs : t.nullnessOf? s with
    | none => simpa [known, hs] using ih
    | some n => simp [known, hs]

end AnnotationTable

end NullSafety
