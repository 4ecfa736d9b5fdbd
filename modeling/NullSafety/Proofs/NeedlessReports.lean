import NullSafety.Proofs.InsertionHistory
import NullSafety.Proofs.NonInterference
import NullSafety.Proofs.PrimitiveUse

namespace NullSafety

inductive Resolver.NeverNull (r : Resolver) : Return ErasedType → Prop
  | primitive (p : Primitive) : r.NeverNull (.value (.primitive p))
  | enum {c : ClassName} (h : r.source.isEnum c = .ok true) : r.NeverNull (.value (.object c))

/-- The annotations on the declaration, and then those on the type of its value as a whole. -/
def Declaration.onValue (d : Declaration MemberId) : List String :=
  d.annotations ++ d.onType d.valueTarget []

theorem Declaration.annotationsAt_valueTarget (d : Declaration MemberId) :
    d.annotationsAt d.valueTarget [] = d.onValue := by
  rw [annotationsAt_eq, onDeclaration_eq, if_pos ⟨rfl, rfl⟩]
  rfl

theorem Declaration.isPrimitiveAt_valueTarget {d : Declaration MemberId} {t : ErasedType}
    (h : d.valueType = .value t) : d.isPrimitiveAt d.valueTarget [] = t.isPrimitive := by
  have hself : t.componentAt? [] = some t := by cases t <;> rfl
  rw [isPrimitiveAt_of_value (h ▸ d.erasedAt?_valueTarget), hself]
  rfl

namespace AnnotationTable

variable {t : AnnotationTable} {ss : List String}

def allowing (t : AnnotationTable) (ss : List String) : List (String × Nullness) :=
  ss.filterMap fun s => ((t.nullnessOf? s).filter Nullness.canBeNull).map (s, ·)

theorem allowing_cons_of_none {s : String} (hs : t.nullnessOf? s = none) (ss : List String) :
    t.allowing (s :: ss) = t.allowing ss := by
  simp [allowing, hs]

theorem allowing_cons_of_some {s : String} {n : Nullness} (hs : t.nullnessOf? s = some n)
    (ss : List String) :
    t.allowing (s :: ss) = if n.canBeNull then (s, n) :: t.allowing ss else t.allowing ss := by
  cases hn : n.canBeNull with
  | false => simp [allowing, hs, hn]
  | true => simp [allowing, hs, hn]

theorem map_fst_allowing (t : AnnotationTable) (ss : List String) :
    (t.allowing ss).map Prod.fst =
      ss.filter fun s => (t.nullnessOf? s).any Nullness.canBeNull := by
  induction ss with
  | nil => rfl
  | cons s ss ih =>
    cases hs : t.nullnessOf? s with
    | none =>
      rw [allowing_cons_of_none hs, ih, List.filter_cons_of_neg (by simp [hs])]
    | some n =>
      rw [allowing_cons_of_some hs]
      cases hn : n.canBeNull with
      | false => rw [if_neg (by simp), ih, List.filter_cons_of_neg (by simp [hs, hn])]
      | true =>
        rw [if_pos rfl, List.map_cons, ih, List.filter_cons_of_pos (by simp [hs, hn])]

theorem nullnessOf?_of_mem_allowing {a : String × Nullness} (h : a ∈ t.allowing ss) :
    t.nullnessOf? a.1 = some a.2 := by
  obtain ⟨s, -, ha⟩ := List.mem_filterMap.mp h
  obtain ⟨n, hn, rfl⟩ := Option.map_eq_some_iff.mp ha
  exact (Option.filter_eq_some_iff.mp hn).1

/-- An annotation that allows null is known to the table. -/
theorem known_ne_nil_of_allowing (h : t.allowing ss ≠ []) : t.known ss ≠ [] := by
  intro hknown
  apply h
  apply List.filterMap_eq_nil_iff.mpr
  intro s hs
  have hnone : t.nullnessOf? s = none := by
    simpa using List.filter_eq_nil_iff.mp hknown s hs
  rw [hnone]
  rfl

/-- If the first of the known annotations allows null, no other one that does comes before it. -/
theorem head?_allowing {n : Nullness} (h : (t.known ss).head?.bind t.nullnessOf? = some n)
    (hn : n.canBeNull = true) : (t.allowing ss).head?.map Prod.snd = some n := by
  induction ss with
  | nil => cases h
  | cons s ss ih =>
    cases hs : t.nullnessOf? s with
    | none =>
      rw [known_cons_of_none hs] at h
      rw [allowing_cons_of_none hs]
      exact ih h
    | some m =>
      rw [known_cons_of_some hs, List.head?_cons, Option.bind_some, hs] at h
      cases h
      rw [allowing_cons_of_some hs, if_pos hn]
      rfl

end AnnotationTable

namespace Resolver

variable {r : Resolver} {d : Declaration MemberId} {target : Target} {path : List PathStep}

theorem isEnum_iff {c : ClassName} : r.isEnum (.object c) = true ↔ r.source.isEnum c = .ok true := by
  cases h : r.source.isEnum c with
  | error e => simp [isEnum, h]
  | ok b => simp [isEnum, h]

theorem neverNull_iff {t : ErasedType} :
    r.NeverNull (.value t) ↔ (t.isPrimitive || r.isEnum t) = true := by
  cases t with
  | primitive p => exact ⟨fun _ => rfl, fun _ => .primitive p⟩
  | object c =>
    constructor
    · intro h
      cases h with
      | enum h => exact isEnum_iff.mpr h
    · intro h
      exact .enum (isEnum_iff.mp h)
  | array t =>
    constructor
    · intro h
      cases h
    · intro h
      cases h

theorem needless_eq {t : ErasedType} (h : d.valueType = .value t) :
    r.needless d = (d.annotationsAt d.valueTarget []).filterMap fun s =>
      (r.table.needless? t s (r.isEnum t)).map (s, ·) := by
  simp only [needless, h]

theorem needless_of_neverNull (h : r.NeverNull d.valueType) :
    r.needless d = r.table.allowing (d.annotationsAt d.valueTarget []) := by
  cases hvalue : d.valueType with
  | void =>
    rw [hvalue] at h
    cases h
  | value t =>
    rw [hvalue] at h
    rw [needless_eq hvalue]
    simp only [AnnotationTable.needless?, neverNull_iff.mp h, Bool.true_and]
    rfl

theorem needless_of_not_neverNull (h : ¬ r.NeverNull d.valueType) : r.needless d = [] := by
  cases hvalue : d.valueType with
  | void => simp only [needless, hvalue]
  | value t =>
    rw [hvalue] at h
    have hfalse : (t.isPrimitive || r.isEnum t) = false :=
      Bool.eq_false_iff.mpr (mt neverNull_iff.mpr h)
    rw [needless_eq hvalue]
    simp [AnnotationTable.needless?, hfalse]

/-- The member decides as soon as the table knows an annotation on it. -/
theorem scope_eq_member_iff (h : d.isPrimitiveAt target path = false) :
    (r.resolveAt d target path).scope = .member ↔
      r.table.known (d.annotationsAt target path) ≠ [] := by
  rw [resolveAt_of_ne (scope_ne_primitive h), sites]
  constructor
  · intro hscope hsilent
    rw [AnnotationTable.resolve_of_silent hsilent] at hscope
    -- the sites behind the member are of other scopes
    obtain hnowhere | ⟨site, hsite, hother⟩ :=
      r.table.scope_resolve (r.sites d target path).tail
    · cases hnowhere.symm.trans hscope
    · simp only [sites, List.tail_cons, List.mem_cons, List.not_mem_nil, or_false] at hsite
      obtain rfl | rfl := hsite
      · cases hother.symm.trans hscope
      · cases hother.symm.trans hscope
  · intro hknown
    exact (AnnotationTable.resolve_of_known hknown).1.scope

theorem nullness_of_known (h : d.isPrimitiveAt target path = false)
    (hknown : r.table.known (d.annotationsAt target path) ≠ []) :
    (r.table.known (d.annotationsAt target path)).head?.bind r.table.nullnessOf? =
      some (r.resolveAt d target path).nullness := by
  have hfind : ((r.sites d target path).find? fun s => r.table.known s.spellings ≠ []) =
      some ⟨.member, d.member.label, d.owner, .ok (d.annotationsAt target path)⟩ :=
    List.find?_cons_of_pos (decide_eq_true hknown)
  rw [resolveAt_of_ne (scope_ne_primitive h)]
  exact (AnnotationTable.decides_of_find? hfind).nullness

/-- If there is an annotation that allows null, it is left to the member to decide. -/
theorem scope_of_allowing (h : d.isPrimitiveAt target path = false)
    (hallowing : r.table.allowing (d.annotationsAt target path) ≠ []) :
    (r.resolveAt d target path).scope = .member :=
  (scope_eq_member_iff h).mpr (AnnotationTable.known_ne_nil_of_allowing hallowing)

/-- If the member decides that there may be null, its first annotation that allows null says the
same. -/
theorem head?_allowing_of_member (h : d.isPrimitiveAt target path = false)
    (hscope : (r.resolveAt d target path).scope = .member)
    (hnull : (r.resolveAt d target path).nullness.canBeNull = true) :
    (r.table.allowing (d.annotationsAt target path)).head?.map Prod.snd =
      some (r.resolveAt d target path).nullness := by
  have hknown := (scope_eq_member_iff h).mp hscope
  exact AnnotationTable.head?_allowing (nullness_of_known h hknown) hnull

end Resolver

/-- What is reported as needless agrees with what is resolved. Where null is possible nothing is
reported; elsewhere the report lists the annotations that allow null, as they stand. -/
theorem needless_agrees (r : Resolver) (d : Declaration MemberId) :
    (¬ r.NeverNull d.valueType → r.needless d = []) ∧
    (r.NeverNull d.valueType →
      (r.needless d).map Prod.fst =
          d.onValue.filter (fun s => (r.table.nullnessOf? s).any Nullness.canBeNull) ∧
        ∀ a ∈ r.needless d, r.table.nullnessOf? a.1 = some a.2) ∧
    (∀ c, d.valueType = .value (.object c) → r.source.isEnum c = .ok true →
      (r.needless d ≠ [] → (r.resolve d).scope = .member) ∧
      ((r.resolve d).scope = .member → (r.resolve d).nullness.canBeNull = true →
        (r.needless d).head?.map Prod.snd = some (r.resolve d).nullness)) ∧
    ∀ p, d.valueType = .value (.primitive p) →
      r.resolve d = ⟨.nonNull, .primitive, [], []⟩ := by
  refine ⟨Resolver.needless_of_not_neverNull, fun hnever => ?_, fun c hvalue henum => ?_,
    fun p hvalue => ?_⟩
  · rw [Resolver.needless_of_neverNull hnever, d.annotationsAt_valueTarget]
    exact ⟨r.table.map_fst_allowing d.onValue,
      fun a ha => AnnotationTable.nullnessOf?_of_mem_allowing ha⟩
  · have hnever : r.NeverNull d.valueType := hvalue ▸ .enum henum
    have hobject : d.isPrimitiveAt d.valueTarget [] = false :=
      Declaration.isPrimitiveAt_valueTarget hvalue
    rw [Resolver.needless_of_neverNull hnever]
    exact ⟨Resolver.scope_of_allowing hobject, Resolver.head?_allowing_of_member hobject⟩
  · have hprimitive : d.isPrimitiveAt d.valueTarget [] = true :=
      Declaration.isPrimitiveAt_valueTarget hvalue
    rw [Resolver.resolve, Resolver.resolveAt, if_pos hprimitive]
    rfl

def enumPackage : Resolver where
  source := { samplePackage.source with isEnum := fun c => .ok (c.package = ⟨"p"⟩) }
  table := .insert .empty "a.Nullable" .nullable

def enumField : Declaration MemberId where
  member := .field ⟨⟨"p/C"⟩, "f", .object ⟨"p/E"⟩⟩
  signature := none
  annotations := ["a.Unknown", "La/Nullable;"]
  typeAnnotations := [⟨.field, [], "a.Nullable"⟩, ⟨.field, [.nested], "a/Nullable"⟩]

theorem nullnessOf?_enumPackage :
    enumPackage.table.nullnessOf? "a.Unknown" = none ∧
      enumPackage.table.nullnessOf? "La/Nullable;" = some .nullable ∧
      enumPackage.table.nullnessOf? "a.Nullable" = some .nullable := by
  have htable (s : String) : enumPackage.table.nullnessOf? s =
      if "a/Nullable" = annotationName s then some .nullable else none := by
    refine (AnnotationTable.nullnessOf?_insert .empty "a.Nullable" s .nullable).trans ?_
    simp only [annotationName_sample, AnnotationTable.nullnessOf?_empty]
    rfl
  simp [htable, annotationName_sample]

theorem onValue_enumField :
    enumField.onValue = ["a.Unknown", "La/Nullable;", "a.Nullable"] := by decide

theorem needless_agrees_enum :
    enumPackage.source.isEnum ⟨"p/E"⟩ = .ok true ∧
      (enumPackage.needless enumField).map Prod.fst = ["La/Nullable;", "a.Nullable"] ∧
      (enumPackage.resolve enumField).scope = .member ∧
      (enumPackage.resolve enumField).nullness = .nullable ∧
      (enumPackage.needless enumField).head?.map Prod.snd = some .nullable := by
  have henum : enumPackage.source.isEnum ⟨"p/E"⟩ = .ok true := by decide
  have hobject : enumField.isPrimitiveAt enumField.valueTarget [] = false := by decide
  obtain ⟨hunknown, hdescriptor, hdotted⟩ := nullnessOf?_enumPackage
  obtain ⟨-, hreport, hagree, -⟩ := needless_agrees enumPackage enumField
  obtain ⟨hspellings, -⟩ := hreport (.enum henum)
  obtain ⟨hmember, hhead⟩ := hagree _ rfl henum
  have hallowing : enumField.onValue.filter
      (fun s => (enumPackage.table.nullnessOf? s).any Nullness.canBeNull) =
        ["La/Nullable;", "a.Nullable"] := by
    simp [onValue_enumField, hunknown, hdescriptor, hdotted, Nullness.canBeNull]
  rw [hallowing] at hspellings
  have hscope : (enumPackage.resolve enumField).scope = .member := by
    apply hmember
    intro hnil
    rw [hnil] at hspellings
    cases hspellings
  have hnullness : (enumPackage.resolve enumField).nullness = .nullable := by
    have hknown := Resolver.nullness_of_known hobject
      ((Resolver.scope_eq_member_iff hobject).mp hscope)
    have hfirst : (enumPackage.table.known enumField.onValue).head?.bind
        enumPackage.table.nullnessOf? = some .nullable := by
      simp [onValue_enumField, AnnotationTable.known, hunknown, hdescriptor, hdotted]
    rw [enumField.annotationsAt_valueTarget, hfirst] at hknown
    exact (Option.some.inj hknown).symm
  refine ⟨henum, hspellings, hscope, hnullness, ?_⟩
  rw [hhead hscope (by rw [hnullness]; rfl), hnullness]

end NullSafety
