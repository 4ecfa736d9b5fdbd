import Mathlib.Data.List.DropRight
import NullSafety.ClassTable
import NullSafety.Proofs.InsertionHistory

namespace NullSafety

/-- No two packages have their annotations on the same class. -/
theorem PackageName.info_injective : Function.Injective PackageName.info := by
  intro p q h
  rw [← p.package_info, h, q.package_info]

namespace ClassTable

inductive Change
  | insertClass (c : ClassName) (annotations : List String)
  | insertPackage (p : PackageName) (annotations : List String)
  | markEnum (c : ClassName)
  | removeClass (c : ClassName)
  deriving DecidableEq

namespace Change

def target : Change → ClassName
  | insertClass c _ | markEnum c | removeClass c => c
  | insertPackage p _ => p.info

def annotations? : Change → Option (List String)
  | insertClass _ annotations | insertPackage _ annotations => some annotations
  | markEnum _ | removeClass _ => none

def Inserts (q : Change) (c : ClassName) (annotations : List String) : Prop :=
  q.target = c ∧ q.annotations? = some annotations

def inserted? (q : Change) (c : ClassName) : Option (List String) :=
  if q.target = c then q.annotations? else none

def effect : Change → ClassFacts → ClassFacts
  | insertClass _ annotations, facts | insertPackage _ annotations, facts =>
    { facts with annotations }
  | markEnum _, facts => { facts with isEnum := true }
  | removeClass _, _ => {}

theorem cases_target {q : Change} {c : ClassName} (h : q.target = c) :
    q = .removeClass c ∨ q = .markEnum c ∨ ∃ annotations, q.Inserts c annotations := by
  cases q with
  | insertClass d annotations => exact .inr (.inr ⟨annotations, h, rfl⟩)
  | insertPackage p annotations => exact .inr (.inr ⟨annotations, h, rfl⟩)
  | markEnum d => exact .inr (.inl (congrArg markEnum h))
  | removeClass d => exact .inl (congrArg removeClass h)

theorem inserted?_eq_some_iff {q : Change} {c : ClassName} {annotations : List String} :
    q.inserted? c = some annotations ↔ q.Inserts c annotations := by
  by_cases h : q.target = c
  · simp [inserted?, h, Inserts]
  · simp [inserted?, h, Inserts]

theorem inserted?_eq_none_iff {q : Change} {c : ClassName} :
    q.inserted? c = none ↔ ∀ annotations, ¬ q.Inserts c annotations := by
  rw [Option.eq_none_iff_forall_ne_some]
  simp only [ne_eq, inserted?_eq_some_iff]

end Change

def change (t : ClassTable) : Change → ClassTable
  | .insertClass c annotations => t.insertClass c annotations
  | .insertPackage p annotations => t.insertPackage p annotations
  | .markEnum c => t.markEnum c
  | .removeClass c => (t.removeClass c).2

def ofHistory (changes : List Change) : ClassTable := changes.foldl change empty

/-- The changes since a class was last removed, or all of them. -/
def since (c : ClassName) (changes : List Change) : List Change :=
  changes.rtakeWhile (· ≠ .removeClass c)

def LastInserts (changes : List Change) (c : ClassName) (annotations : List String) : Prop :=
  ∃ before q after, changes = before ++ q :: after ∧ q.Inserts c annotations ∧
    ∀ p ∈ after, ∀ others, ¬ p.Inserts c others

def lastInserted? (c : ClassName) (changes : List Change) : Option (List String) :=
  changes.findSomeRev? (·.inserted? c)

def factsOf (t : ClassTable) (c : ClassName) : ClassFacts := (t.find c).toOption.getD {}

def recorded (c : ClassName) (changes : List Change) : ClassFacts :=
  ⟨(lastInserted? c changes).getD [], .markEnum c ∈ changes⟩

section

variable {q : Change} {c : ClassName} {changes : List Change}

theorem lastInserted?_eq_some_iff {annotations : List String} :
    lastInserted? c changes = some annotations ↔ LastInserts changes c annotations := by
  rw [lastInserted?, findSomeRev?_eq_some_iff]
  simp only [Change.inserted?_eq_some_iff, Change.inserted?_eq_none_iff, LastInserts]

theorem lastInserted?_eq_none_iff :
    lastInserted? c changes = none ↔ ∀ q ∈ changes, ∀ annotations, ¬ q.Inserts c annotations := by
  rw [lastInserted?, findSomeRev?_eq_none_iff]
  simp only [Change.inserted?_eq_none_iff]

theorem since_concat (c : ClassName) (changes : List Change) (q : Change) :
    since c (changes ++ [q]) = if q = .removeClass c then [] else since c changes ++ [q] := by
  rw [since, List.rtakeWhile_concat]
  by_cases h : q = .removeClass c
  · simp [h]
  · simp [h, since]

theorem ne_removeClass_of_mem_since (h : q ∈ since c changes) : q ≠ .removeClass c := by
  rw [since] at h
  simpa using List.mem_rtakeWhile_imp h

/-- Facts that nothing was done about are the default ones. -/
theorem recorded_of_untouched (h : ∀ q ∈ changes, q.target ≠ c) : recorded c changes = {} := by
  have hnone : lastInserted? c changes = none :=
    lastInserted?_eq_none_iff.mpr fun q hq _ hinserts => h q hq hinserts.1
  have henum : .markEnum c ∉ changes := fun hmem => h _ hmem rfl
  rw [recorded, hnone, decide_eq_false henum]
  rfl

theorem recorded_concat (hq : q ≠ .removeClass c) :
    recorded c (changes ++ [q]) =
      if q.target = c then q.effect (recorded c changes) else recorded c changes := by
  rw [recorded, lastInserted?, findSomeRev?_concat, ← lastInserted?, Change.inserted?]
  by_cases h : q.target = c
  · rw [if_pos h, if_pos h]
    cases q with
    | insertClass d annotations | insertPackage d annotations =>
      simp [Change.annotations?, Change.effect, recorded]
    | markEnum d =>
      obtain rfl : d = c := h
      simp [Change.annotations?, Change.effect, recorded]
    | removeClass d => exact absurd (congrArg Change.removeClass h) hq
  · have henum : .markEnum c ≠ q := by
      rintro rfl
      exact h rfl
    rw [if_neg h, if_neg h, Option.none_or]
    simp [henum, recorded]

theorem find_change (t : ClassTable) (q : Change) (c : ClassName) :
    (t.change q).find c =
      if q.target = c then
        if q = .removeClass c then .error (.notFound c) else .ok (q.effect (t.factsOf c))
      else t.find c := by
  cases q with
  | removeClass d =>
    refine (t.find_removeClass d c).trans ?_
    by_cases h : d = c
    · simp [Change.target, h]
    · simp [Change.target, h]
  | _ =>
    refine (t.find_update ..).trans ?_
    split
    · rename_i h
      subst c
      exact ((if_pos rfl).trans (if_neg (by simp))).symm
    · rename_i h
      exact (if_neg h).symm

theorem find_ofHistory (changes : List Change) (c : ClassName) :
    (ofHistory changes).find c =
      if ∀ q ∈ since c changes, q.target ≠ c then .error (.notFound c)
      else .ok (recorded c (since c changes)) := by
  induction changes using List.reverseRecOn with
  | nil => exact find_empty c
  | append_singleton changes q ih =>
    -- with or without an entry: no entry and no changes both stand for the default facts
    have hfacts : (ofHistory changes).factsOf c = recorded c (since c changes) := by
      rw [factsOf, ih]
      split
      · rename_i huntouched
        rw [recorded_of_untouched huntouched]
        rfl
      · rfl
    have hstep : ofHistory (changes ++ [q]) = (ofHistory changes).change q := List.foldl_concat ..
    rw [hstep, find_change, hfacts, since_concat]
    by_cases hremove : q = .removeClass c
    · have htarget : q.target = c := congrArg Change.target hremove
      rw [if_pos htarget, if_pos hremove, if_pos hremove, if_pos (by simp)]
    · rw [if_neg hremove, if_neg hremove, recorded_concat hremove]
      by_cases htarget : q.target = c
      · rw [if_pos htarget, if_pos htarget, if_neg]
        intro huntouched
        exact huntouched q (by simp) htarget
      · rw [if_neg htarget, if_neg htarget, ih]
        simp [htarget, or_imp, forall_and]

/-- What is read off the facts about a class is there as soon as there was a change of the class
since its last removal. -/
theorem map_find_ofHistory {α : Type} (f : ClassFacts → α) (changes : List Change)
    (c : ClassName) :
    (∀ e, f <$> (ofHistory changes).find c = .error e ↔
      e = .notFound c ∧ ∀ q ∈ since c changes, q.target ≠ c) ∧
    ∀ a, f <$> (ofHistory changes).find c = .ok a ↔
      (∃ q ∈ since c changes, q.target = c) ∧ f (recorded c (since c changes)) = a := by
  rw [find_ofHistory]
  by_cases huntouched : ∀ q ∈ since c changes, q.target ≠ c
  · have hnone : ¬ ∃ q ∈ since c changes, q.target = c := by simpa using huntouched
    rw [if_pos huntouched]
    constructor
    · intro e
      rw [and_iff_left huntouched]
      exact ⟨fun h => (Except.error.inj h).symm, fun h => congrArg Except.error h.symm⟩
    · intro a
      simp [hnone, Functor.map, Except.map]
  · have hsome : ∃ q ∈ since c changes, q.target = c := by simpa using huntouched
    rw [if_neg huntouched]
    constructor
    · intro e
      simp [huntouched, Functor.map, Except.map]
    · intro a
      simp [hsome, Functor.map, Except.map]

theorem annotations_recorded_iff {annotations : List String} :
    (∃ q ∈ since c changes, q.target = c) ∧
        (recorded c (since c changes)).annotations = annotations ↔
      LastInserts (since c changes) c annotations ∨
        annotations = [] ∧ .markEnum c ∈ since c changes ∧
          ∀ q ∈ since c changes, ∀ others, ¬ q.Inserts c others := by
  constructor
  · rintro ⟨⟨q, hq, htarget⟩, rfl⟩
    cases hlast : lastInserted? c (since c changes) with
    | none =>
      have hinserts := lastInserted?_eq_none_iff.mp hlast
      right
      refine ⟨by rw [recorded, hlast]; rfl, ?_, hinserts⟩
      obtain rfl | rfl | ⟨others, hothers⟩ := Change.cases_target htarget
      · exact absurd rfl (ne_removeClass_of_mem_since hq)
      · exact hq
      · exact absurd hothers (hinserts q hq others)
    | some annotations =>
      left
      rw [recorded, hlast]
      exact lastInserted?_eq_some_iff.mp hlast
  · rintro (hlast | ⟨rfl, hmem, hinserts⟩)
    · have hsome := lastInserted?_eq_some_iff.mpr hlast
      obtain ⟨before, q, after, hchanges, hq, -⟩ := hlast
      refine ⟨⟨q, by rw [hchanges]; simp, hq.1⟩, ?_⟩
      rw [recorded, hsome]
      rfl
    · refine ⟨⟨_, hmem, rfl⟩, ?_⟩
      rw [recorded, lastInserted?_eq_none_iff.mpr hinserts]
      rfl

end

/-- What a class table answers is told by the changes of the class since it was last removed. The
annotations are those of the last insertion, and an enum is what was marked as one. A package is
asked for through a class that it shares with no other package. -/
theorem ofHistory_answers (changes : List Change) (c : ClassName) :
    (∀ e, (ofHistory changes).source.classAnnotations c = .error e ↔
      e = .notFound c ∧ ∀ q ∈ since c changes, q.target ≠ c) ∧
    (∀ e, (ofHistory changes).source.isEnum c = .error e ↔
      e = .notFound c ∧ ∀ q ∈ since c changes, q.target ≠ c) ∧
    (∀ annotations, (ofHistory changes).source.classAnnotations c = .ok annotations ↔
      LastInserts (since c changes) c annotations ∨
        annotations = [] ∧ .markEnum c ∈ since c changes ∧
          ∀ q ∈ since c changes, ∀ others, ¬ q.Inserts c others) ∧
    (∀ b, (ofHistory changes).source.isEnum c = .ok b ↔
      (∃ q ∈ since c changes, q.target = c) ∧ (b = true ↔ .markEnum c ∈ since c changes)) ∧
    (∀ p annotations, ((ofHistory changes).insertPackage p annotations).find c =
      if p.info = c then .ok { (ofHistory changes).factsOf p.info with annotations }
      else (ofHistory changes).find c) ∧
    Function.Injective PackageName.info ∧ (∀ p : PackageName, p.info.package = p) ∧
    ∀ p, (ofHistory changes).source.packageAnnotations p =
      (ofHistory changes).source.classAnnotations p.info := by
  obtain ⟨hunknown, hannotations⟩ := map_find_ofHistory ClassFacts.annotations changes c
  obtain ⟨hunmarked, henum⟩ := map_find_ofHistory ClassFacts.isEnum changes c
  refine ⟨hunknown, hunmarked, fun annotations => ?_, fun b => ?_, fun p annotations => ?_,
    PackageName.info_injective, PackageName.package_info, fun p => rfl⟩
  · exact (hannotations annotations).trans annotations_recorded_iff
  · refine (henum b).trans (and_congr_right fun _ => ?_)
    rw [recorded, Bool.eq_iff_iff, decide_eq_true_iff]
    exact Iff.comm
  · exact (ofHistory changes).find_update ..

/-- The class of a package is annotated and marked, removed, and marked again. Another package has
almost the same name. -/
def packageHistory : List Change :=
  [.insertPackage ⟨"p"⟩ ["a.NonNull"], .markEnum ⟨"p/package-info"⟩,
    .removeClass ⟨"p/package-info"⟩, .markEnum ⟨"p/package-info"⟩,
    .insertPackage ⟨"p/"⟩ ["a.Nullable"]]

theorem ofHistory_answers_package :
    .markEnum ⟨"p/package-info"⟩ ∈ since ⟨"p/package-info"⟩ packageHistory ∧
      (ofHistory packageHistory).source.classAnnotations ⟨"p/package-info"⟩ = .ok [] ∧
      (ofHistory packageHistory).source.isEnum ⟨"p/package-info"⟩ = .ok true ∧
      (ofHistory packageHistory).source.packageAnnotations ⟨"p/"⟩ = .ok ["a.Nullable"] := by
  have hmarked : .markEnum ⟨"p/package-info"⟩ ∈ since ⟨"p/package-info"⟩ packageHistory := by
    decide +kernel
  have hinserts := lastInserted?_eq_none_iff.mp
    (show lastInserted? ⟨"p/package-info"⟩ (since ⟨"p/package-info"⟩ packageHistory) = none by
      decide +kernel)
  have hother := lastInserted?_eq_some_iff.mp
    (show lastInserted? (PackageName.info ⟨"p/"⟩)
        (since (PackageName.info ⟨"p/"⟩) packageHistory) = some ["a.Nullable"] by
      decide +kernel)
  obtain ⟨-, -, hannotations, henum, -⟩ := ofHistory_answers packageHistory ⟨"p/package-info"⟩
  obtain ⟨-, -, hnext, -, -, -, -, hpackage⟩ :=
    ofHistory_answers packageHistory (PackageName.info ⟨"p/"⟩)
  refine ⟨hmarked, (hannotations []).mpr (.inr ⟨rfl, hmarked, hinserts⟩), ?_, ?_⟩
  · exact (henum true).mpr ⟨⟨_, hmarked, rfl⟩, fun _ => hmarked, fun _ => rfl⟩
  · rw [hpackage]
    exact (hnext _).mpr (.inl hother)

end ClassTable

end NullSafety
