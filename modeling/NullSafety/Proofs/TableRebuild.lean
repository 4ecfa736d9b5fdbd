import Mathlib.Data.Finset.Max
import NullSafety.Proofs.InsertionHistory

namespace NullSafety

theorem dot_notMem_slashed (u : List Char) : '.' ∉ slashed u := by
  intro hmem
  obtain ⟨c, -, hc⟩ := List.mem_map.mp hmem
  by_cases hdot : c = '.'
  · rw [if_pos hdot] at hc
    exact absurd hc (by decide)
  · rw [if_neg hdot] at hc
    exact hdot hc

theorem dot_notMem_annotationName (s : String) : '.' ∉ (annotationName s).toList := by
  rw [toList_annotationName]
  exact dot_notMem_slashed _

/-- A name as tables keep it stays the same when it is taken for a spelling, provided that it
does not look like a descriptor. -/
theorem annotationName_eq_self {name : String} (hdot : '.' ∉ name.toList)
    (hbare : IsBare name.toList) : annotationName name = name :=
  annotationName_of_mem_spellings hdot hbare List.mem_cons_self

theorem eq_descriptor_of_not_isBare {u : List Char} (h : ¬ IsBare u) :
    u = 'L' :: (undelimited u ++ [';']) := by
  obtain ⟨hhead, hlast⟩ := Decidable.not_not.mp h
  obtain ⟨v, rfl⟩ := List.head?_eq_some_iff.mp hhead
  obtain rfl | ⟨v, c, rfl⟩ := v.eq_nil_or_concat
  · exact absurd hlast (by decide)
  · rw [List.concat_eq_append] at hlast ⊢
    have hc : c = ';' := by
      rw [← List.cons_append, List.getLast?_concat] at hlast
      exact Option.some.inj hlast
    rw [hc, undelimited_descriptor]

/-- What is a descriptor even after its delimiters have been taken away was a longer descriptor
before. -/
theorem length_lt_of_annotationName {s : String} (hdot : '.' ∉ s.toList)
    (h : ¬ IsBare (annotationName s).toList) :
    ¬ IsBare s.toList ∧ (annotationName s).toList.length < s.toList.length := by
  have hs : ¬ IsBare s.toList := by
    intro hbare
    rw [annotationName_eq_self hdot hbare] at h
    exact h hbare
  have hlength : (annotationName s).toList.length = (undelimited s.toList).length := by
    rw [toList_annotationName, slashed, List.length_map]
  have hparts := congrArg List.length (eq_descriptor_of_not_isBare hs)
  rw [List.length_cons, List.length_append, List.length_singleton] at hparts
  exact ⟨hs, by omega⟩

namespace AnnotationTable

theorem beq_iff {t u : AnnotationTable} :
    (t == u) = true ↔ ∀ name : String, t.entries[name]? = u.entries[name]? := by
  have hentries : (t == u) = (t.entries == u.entries) := rfl
  rw [hentries, Std.HashMap.beq_iff_equiv]
  constructor
  · intro h name
    exact h.getElem?_eq
  · exact Std.HashMap.Equiv.of_forall_getElem?_eq

theorem mem_toList {t : AnnotationTable} {name : String} {n : Nullness} :
    (name, n) ∈ t.toList ↔ t.entries[name]? = some n :=
  Std.HashMap.mem_toList_iff_getElem?_eq_some

/-- What is kept under a name declares something, and the name is one that spellings have. -/
theorem mem_toList_ofList {pairs : List (String × Nullness)} {p : String × Nullness}
    (h : p ∈ (ofList pairs).toList) : '.' ∉ p.1.toList ∧ p.2.isExplicit = true := by
  obtain ⟨hexplicit, before, spelling, after, -, hname, -⟩ :=
    entries_ofList_eq_some_iff.mp (mem_toList.mp h)
  rw [← hname]
  exact ⟨dot_notMem_annotationName spelling, hexplicit⟩

/-- If some keys look like descriptors, the longest of them is lost when the keys are taken for
spellings: the key that would have its name is longer. -/
theorem exists_lost {entries : List (String × Nullness)}
    (hdot : ∀ p ∈ entries, '.' ∉ p.1.toList) (h : ∃ p ∈ entries, ¬ IsBare p.1.toList) :
    ∃ p ∈ entries, ∀ q ∈ entries, annotationName q.1 ≠ p.1 := by
  obtain ⟨p, hp, hnotbare⟩ := h
  let delimited := (entries.map Prod.fst).toFinset.filter fun name => ¬ IsBare name.toList
  have hmem (q : String × Nullness) (hq : q ∈ entries) (hqbare : ¬ IsBare q.1.toList) :
      q.1 ∈ delimited := by
    rw [Finset.mem_filter, List.mem_toFinset]
    exact ⟨List.mem_map_of_mem hq, hqbare⟩
  -- a shorter key of this kind may get an entry again, from a key around it
  obtain ⟨name, hname, hlongest⟩ :=
    delimited.exists_max_image (fun name => name.toList.length) ⟨p.1, hmem p hp hnotbare⟩
  rw [Finset.mem_filter, List.mem_toFinset, List.mem_map] at hname
  obtain ⟨⟨longest, hin, rfl⟩, hdelimited⟩ := hname
  refine ⟨longest, hin, fun q hq heq => ?_⟩
  obtain ⟨hqbare, hlt⟩ := length_lt_of_annotationName (hdot q hq) (heq ▸ hdelimited)
  have hle := hlongest q.1 (hmem q hq hqbare)
  rw [heq] at hlt
  omega

section

variable {pairs entries : List (String × Nullness)}

theorem entries_rebuild (horder : entries.Perm (ofList pairs).toList)
    (hbare : ∀ p ∈ (ofList pairs).toList, IsBare p.1.toList) (name : String) :
    (ofList entries).entries[name]? = (ofList pairs).entries[name]? := by
  have hself (p : String × Nullness) (hp : p ∈ entries) : annotationName p.1 = p.1 := by
    have hp := horder.mem_iff.mp hp
    exact annotationName_eq_self (mem_toList_ofList hp).1 (hbare p hp)
  have hdistinct : entries.Pairwise fun p q => p.1 ≠ q.1 := by
    apply (horder.pairwise_iff Ne.symm).mpr
    exact Std.HashMap.distinct_keys_toList.imp ne_of_beq_false
  ext n
  rw [entries_ofList_eq_some_iff, ← mem_toList, ← horder.mem_iff]
  constructor
  · rintro ⟨-, before, spelling, after, rfl, hname, -⟩
    have hmem : (spelling, n) ∈ before ++ (spelling, n) :: after := by simp
    rwa [← hname, hself (spelling, n) hmem]
  · intro hmem
    refine ⟨(mem_toList_ofList (horder.mem_iff.mp hmem)).2, ?_⟩
    obtain ⟨before, after, rfl⟩ := List.append_of_mem hmem
    refine ⟨before, name, after, rfl, hself (name, n) hmem, fun p hp => ?_⟩
    rw [hself p (by simp [hp])]
    have hlater := (List.pairwise_append.mp hdistinct).2.1
    exact ((List.pairwise_cons.mp hlater).1 p hp).symm

theorem rebuild_ne (horder : entries.Perm (ofList pairs).toList)
    (h : ∃ p ∈ (ofList pairs).toList, ¬ IsBare p.1.toList) :
    ∃ name : String, (ofList entries).entries[name]? ≠ (ofList pairs).entries[name]? := by
  obtain ⟨p, hp, hlost⟩ := exists_lost (fun p hp => (mem_toList_ofList hp).1) h
  refine ⟨p.1, ?_⟩
  have hnone : (ofList entries).entries[p.1]? = none :=
    entries_ofList_eq_none_iff.mpr (.inl fun q hq => hlost q (horder.mem_iff.mp hq))
  rw [hnone, mem_toList.mp hp]
  exact (Option.some_ne_none _).symm

end

/-- A table that is made of the entries of another one, in any order, is the same table exactly
when no key looks like a descriptor. -/
theorem rebuild_beq_iff_bare (pairs : List (String × Nullness)) :
    (∀ p ∈ (ofList pairs).toList, '.' ∉ p.1.toList ∧ p.2 ≠ .undeclared) ∧
    ∀ entries : List (String × Nullness), entries.Perm (ofList pairs).toList →
      ((ofList entries == ofList pairs) = true ↔
        ∀ p ∈ (ofList pairs).toList, IsBare p.1.toList) := by
  refine ⟨fun p hp => ?_, fun entries horder => ?_⟩
  · obtain ⟨hdot, hexplicit⟩ := mem_toList_ofList hp
    exact ⟨hdot, of_decide_eq_true hexplicit⟩
  · rw [beq_iff]
    constructor
    · intro hsame p hp
      by_contra hdelimited
      obtain ⟨name, hne⟩ := rebuild_ne horder ⟨p, hp, hdelimited⟩
      exact hne (hsame name)
    · exact entries_rebuild horder

/-- Descriptors of descriptors. The table keeps `LLa;;`, `La;` and `a`, and each of them takes the
place of the next one when the keys are read once more. -/
def nestedDescriptors : List (String × Nullness) :=
  [("LLLa;;;", .nullable), ("LLa;;", .nonNull), ("La;", .unspecified)]

theorem rebuild_beq_iff_bare_nested :
    (ofList nestedDescriptors).toList.reverse.Perm (ofList nestedDescriptors).toList ∧
      ("La;", .nonNull) ∈ (ofList nestedDescriptors).toList ∧
      (ofList (ofList nestedDescriptors).toList.reverse == ofList nestedDescriptors) = false := by
  have horder := List.reverse_perm (ofList nestedDescriptors).toList
  have hlast : LastInsertion nestedDescriptors "La;" .nonNull :=
    lastInserted?_eq_some_iff.mp (by decide +kernel)
  have hmem : ("La;", .nonNull) ∈ (ofList nestedDescriptors).toList :=
    mem_toList.mpr (entries_ofList_eq_some_iff.mpr ⟨rfl, hlast⟩)
  have hdelimited : ¬ IsBare "La;".toList := by decide
  refine ⟨horder, hmem, Bool.eq_false_iff.mpr fun hsame => ?_⟩
  exact hdelimited (((rebuild_beq_iff_bare nestedDescriptors).2 _ horder).mp hsame _ hmem)

end AnnotationTable

end NullSafety
