import NullSafety.Signature.Erasure
import NullSafety.Proofs.Descriptors
import NullSafety.Proofs.RoundTrip

namespace NullSafety

/-- A type stands somewhere in another: it is that type, or it stands in one of its arguments. -/
inductive GenericType.StandsIn : GenericType → GenericType → Prop
  | self (t : GenericType) : StandsIn t t
  | argument {t a u : GenericType} {c : ClassType} {s : Segment}
      (element : u.element = .classType c) (segment : s ∈ c.segments) (argument : a ∈ s.arguments)
      (rest : StandsIn t a) : StandsIn t u

def MethodSignature.Holds (m : MethodSignature) (t : GenericType) : Prop :=
  ∃ u, t.StandsIn u ∧ ((∃ p ∈ m.typeParameters, u ∈ p.bounds) ∨ u ∈ m.parameters ∨
    m.result = .value u ∨ u ∈ m.thrown)

def FieldSignature.Holds (f : FieldSignature) (t : GenericType) : Prop := t.StandsIn f.type

/-- The superclass and the interfaces are taken for types here, so that what they hold is held by
the signature. -/
def ClassSignature.Holds (c : ClassSignature) (t : GenericType) : Prop :=
  ∃ u, t.StandsIn u ∧ ((∃ p ∈ c.typeParameters, u ∈ p.bounds) ∨
    ∃ d ∈ c.superclass :: c.interfaces, u = .exactly (.classType d))

/-- The erased type reads back from its descriptor, and it is the given element under the
dimensions of the type. -/
def GenericType.ErasesTo (t : GenericType) (e : ErasedType) : Prop :=
  ∃ d, t.erased? = some d ∧ ErasedType.ofDescriptor d.descriptor = .ok d ∧
    d.dimensions = t.dimensions.val ∧ d.innermost = e

def ClassType.PackageOfOutermost (c : ClassType) : Prop :=
  ∃ outer inner, c.segments = outer :: inner ∧
    (∀ package simple : String, '/' ∉ simple.toList → outer.name = package ++ "/" ++ simple →
      c.erased.package = ⟨package⟩) ∧
    ('/' ∉ outer.name.toList → c.erased.package = ⟨""⟩)

structure GenericType.ErasesLegally (t : GenericType) : Prop where
  primitive : ∀ p, t.element = .primitive p → t.ErasesTo (.primitive p)
  classType : ∀ c, t.element = .classType c →
    t.ErasesTo (.object ⟨"$".intercalate (c.segments.map Segment.name)⟩)
  package : ∀ c, t.element = .classType c → c.PackageOfOutermost

theorem IsClassPath.ne_nil {name : String} (h : IsClassPath name) : name.toList ≠ [] := by
  obtain ⟨parts, hne, hparts, rfl⟩ := h
  cases parts with
  | nil => exact absurd rfl hne
  | cons first more =>
    rw [Signature.toList_intercalate_slash]
    exact List.append_ne_nil_of_left_ne_nil (hparts first (by simp)).1 _

theorem IsClassPath.notMem {name : String} (h : IsClassPath name) {c : Char} (hc : c ∈ reserved)
    (hslash : c ≠ '/') : c ∉ name.toList := by
  obtain ⟨parts, hne, hparts, rfl⟩ := h
  cases parts with
  | nil => exact absurd rfl hne
  | cons first more =>
    rw [Signature.toList_intercalate_slash, List.mem_append, List.mem_flatMap]
    rintro (hfirst | ⟨part, hpart, hmem⟩)
    · exact (hparts first (by simp)).2 c hfirst hc
    · obtain heq | hmem := List.mem_cons.mp hmem
      · exact hslash heq
      · exact (hparts part (by simp [hpart])).2 c hmem hc

def Segment.innerNames (ss : List Segment) : List Char := ss.flatMap ('$' :: ·.name.toList)

theorem Segment.notMem_innerNames {ss : List Segment} (hss : ∀ s ∈ ss, IsIdentifier s.name)
    {c : Char} (hc : c ∈ reserved) : c ∉ innerNames ss := by
  have hdollar : c ≠ '$' := by
    rintro rfl
    revert hc
    decide
  intro hmem
  obtain ⟨s, hs, hmem⟩ := List.mem_flatMap.mp hmem
  obtain heq | hmem := List.mem_cons.mp hmem
  · exact hdollar heq
  · exact (hss s hs).2 c hmem hc

namespace ClassType

theorem toList_erased (outer : Segment) (inner : List Segment) :
    (erased ⟨outer :: inner⟩).binaryName.toList =
      outer.name.toList ++ Segment.innerNames inner := by
  rw [erased, String.toList_ofList, List.map_cons, intercalate_cons, List.flatMap_map]
  rfl

theorem erased_eq (c : ClassType) :
    c.erased = ⟨"$".intercalate (c.segments.map Segment.name)⟩ := by
  have htext : "$".intercalate (c.segments.map Segment.name) =
      String.ofList (['$'].intercalate (c.segments.map (·.name.toList))) := by
    apply String.toList_injective
    simp [Function.comp_def]
  rw [htext]
  rfl

namespace WellFormed

theorem isWritable {c : ClassType} (hc : c.WellFormed) : c.erased.IsWritable := by
  cases hc with
  | @mk outer inner path names _ =>
    have hsemi : ';' ∈ reserved := by decide
    constructor
    · apply mt String.toList_eq_nil_iff.mpr
      rw [toList_erased]
      exact List.append_ne_nil_of_left_ne_nil path.ne_nil _
    · rw [toList_erased, List.mem_append, not_or]
      exact ⟨path.notMem hsemi (by decide), Segment.notMem_innerNames names hsemi⟩

/-- Inner classes bring no slash of their own. -/
theorem packageOfOutermost {c : ClassType} (hc : c.WellFormed) : c.PackageOfOutermost := by
  cases hc with
  | @mk outer inner path names _ =>
    have hinner := Segment.notMem_innerNames names (c := '/') (by decide)
    refine ⟨outer, inner, rfl, fun package simple hsimple hname => ?_, fun hname => ?_⟩
    · have hlast : '/' ∉ simple.toList ++ Segment.innerNames inner := by
        rw [List.mem_append, not_or]
        exact ⟨hsimple, hinner⟩
      have htext : outer.name.toList ++ Segment.innerNames inner =
          package.toList ++ '/' :: (simple.toList ++ Segment.innerNames inner) := by
        simp [hname]
      rw [ClassName.package, toList_erased, htext, beforeLast_append hlast, String.ofList_toList]
    · have hnone : '/' ∉ outer.name.toList ++ Segment.innerNames inner := by
        rw [List.mem_append, not_or]
        exact ⟨hname, hinner⟩
      rw [ClassName.package, toList_erased, beforeLast_of_notMem hnone]

end WellFormed

end ClassType

namespace ErasedType

theorem ofDescriptor_descriptor {t : ErasedType} :
    ofDescriptor t.descriptor = .ok t ↔ t.Valid := by
  rw [ofDescriptor, descriptor, String.toList_ofList, ofChars_eq_ok]
  exact and_iff_left rfl

theorem valid_inArrays {t : ErasedType} (ht : t.Valid) {n : Nat} :
    (t.inArrays n).Valid ↔ t.dimensions + n ≤ 255 := by
  rw [Valid, dimensions_inArrays, innermost_inArrays]
  exact and_iff_left ht.2

theorem Valid.inArrays_of_flat {t : ErasedType} (ht : t.Valid) (hflat : t.dimensions = 0)
    (n : Fin 256) : (t.inArrays n).Valid := by
  rw [valid_inArrays ht, hflat]
  omega

theorem valid_primitive (p : Primitive) : (primitive p).Valid := by
  refine ⟨Nat.zero_le _, fun c hc => ?_⟩
  cases hc

theorem valid_object {c : ClassName} (hc : c.IsWritable) : (object c).Valid := by
  refine ⟨Nat.zero_le _, fun d hd => ?_⟩
  cases hd
  exact hc

theorem valid_root : root.Valid := valid_object ⟨by decide, by decide⟩

end ErasedType

namespace GenericType

variable {t u : GenericType}

theorem erasesTo_of_valid {e : ErasedType} (he : e.Valid) (hflat : e.dimensions = 0)
    (h : t.erased? = some (e.inArrays t.dimensions)) : t.ErasesTo e := by
  have hinner : e.innermost = e := by
    have hself := e.innermost_inArrays_dimensions
    rwa [hflat] at hself
  refine ⟨_, h, ?_, ?_, ?_⟩
  · exact ErasedType.ofDescriptor_descriptor.mpr (he.inArrays_of_flat hflat _)
  · rw [ErasedType.dimensions_inArrays, hflat, Nat.zero_add]
  · rw [ErasedType.innermost_inArrays, hinner]

theorem erasesTo_primitive {p : Primitive} (ht : t.element = .primitive p) :
    t.ErasesTo (.primitive p) := by
  apply erasesTo_of_valid (ErasedType.valid_primitive p) rfl
  simp only [erased?, ht]

theorem erasesTo_object {c : ClassType} (ht : t.element = .classType c) (hc : c.WellFormed) :
    t.ErasesTo (.object c.erased) := by
  apply erasesTo_of_valid (ErasedType.valid_object hc.isWritable) rfl
  simp only [erased?, ht]

theorem erasesLegally_of_wellFormed (ht : t.element.WellFormed) : t.ErasesLegally := by
  have hclass (c : ClassType) (hc : t.element = .classType c) : c.WellFormed := by
    rw [hc] at ht
    cases ht
    assumption
  constructor
  · intro p hp
    exact erasesTo_primitive hp
  · intro c hc
    rw [← c.erased_eq]
    exact erasesTo_object hc (hclass c hc)
  · intro c hc
    exact (hclass c hc).packageOfOutermost

theorem valid_of_erased? (ht : t.element.WellFormed) {d : ErasedType} (h : t.erased? = some d) :
    d.Valid := by
  unfold erased? at h
  split at h
  · cases h
    exact (ErasedType.valid_primitive _).inArrays_of_flat rfl _
  · rename_i c hc
    cases h
    rw [hc] at ht
    cases ht with
    | classType hc => exact (ErasedType.valid_object hc.isWritable).inArrays_of_flat rfl _
  · cases h

theorem wellFormed_anything : anything.element.WellFormed :=
  Element.wellFormed_raw ⟨["java", "lang", "Object"], by decide, by decide, by decide⟩

theorem IsArgument.element_wellFormed (h : t.IsArgument) : t.element.WellFormed := by
  cases h with
  | anything => exact wellFormed_anything
  | bounded _ _ element => exact element

theorem StandsIn.element_wellFormed (h : t.StandsIn u) (hu : u.element.WellFormed) :
    t.element.WellFormed := by
  induction h with
  | self => exact hu
  | argument helement hs ha _ ih =>
    apply ih
    rw [helement] at hu
    cases hu with
    | classType hc =>
      cases hc with
      | mk _ _ arguments => exact (arguments _ hs _ ha).element_wellFormed

end GenericType

theorem TypeParameter.WellFormed.element_wellFormed {p : TypeParameter} (hp : p.WellFormed)
    {t : GenericType} (ht : t ∈ p.bounds) : t.element.WellFormed :=
  (hp.bounds t ht).1.element

theorem MethodSignature.WellFormed.element_of_holds {m : MethodSignature} (hm : m.WellFormed)
    {t : GenericType} (h : m.Holds t) : t.element.WellFormed := by
  obtain ⟨u, htu, hu⟩ := h
  apply htu.element_wellFormed
  obtain ⟨p, hp, hu⟩ | hu | hu | hu := hu
  · exact (hm.typeParameters p hp).element_wellFormed hu
  · exact (hm.parameters u hu).element
  · exact (hm.result u hu).element
  · exact (hm.thrown u hu).1.element

theorem ClassSignature.WellFormed.element_of_holds {c : ClassSignature} (hc : c.WellFormed)
    {t : GenericType} (h : c.Holds t) : t.element.WellFormed := by
  obtain ⟨u, htu, hu⟩ := h
  apply htu.element_wellFormed
  obtain ⟨p, hp, hu⟩ | ⟨d, hd, rfl⟩ := hu
  · exact (hc.typeParameters p hp).element_wellFormed hu
  · apply Element.WellFormed.classType
    obtain rfl | hd := List.mem_cons.mp hd
    · exact hc.superclass.1
    · exact (hc.interfaces d hd).1

theorem mem_bounds_of_firstBound? {ps : List TypeParameter} {name : String} {bound : GenericType}
    (h : firstBound? ps name = some bound) : ∃ p ∈ ps, bound ∈ p.bounds := by
  obtain ⟨p, hp, hbound⟩ := Option.bind_eq_some_iff.mp h
  exact ⟨p, List.mem_of_find?_eq_some hp, List.mem_of_mem_head? hbound⟩

theorem valid_eraseVariable {ps : List TypeParameter}
    (hps : ∀ p ∈ ps, ∀ t ∈ p.bounds, t.element.WellFormed) (steps : Nat) (name : String) :
    (eraseVariable ps steps name).Valid := by
  induction steps generalizing name with
  | zero => exact ErasedType.valid_root
  | succ steps ih =>
    cases first : firstBound? ps name with
    | none =>
      simp only [eraseVariable, first]
      exact ErasedType.valid_root
    | some bound =>
      cases bare : bound.bareVariable? with
      | some next =>
        simp only [eraseVariable, first, bare]
        exact ih next
      | none =>
        simp only [eraseVariable, first, bare]
        obtain ⟨p, hp, hbound⟩ := mem_bounds_of_firstBound? first
        cases herased : bound.erased? with
        | none => exact ErasedType.valid_root
        | some d => exact GenericType.valid_of_erased? (hps p hp bound hbound) herased

theorem MethodSignature.WellFormed.valid_erasureOf {m : MethodSignature} (hm : m.WellFormed)
    (name : String) : (m.erasureOf name).Valid :=
  valid_eraseVariable (fun p hp _ ht => (hm.typeParameters p hp).element_wellFormed ht) _ name

namespace Signature

/-- Whatever stands in a signature that was read erases to a type with a descriptor of its own,
and so does each type variable, declared or not. -/
theorem erasesLegally_of_parse :
    (∀ s m, MethodSignature.parse s = .ok m → (∀ t, m.Holds t → t.ErasesLegally) ∧
      ∀ name, ErasedType.ofDescriptor (m.erasureOf name).descriptor = .ok (m.erasureOf name)) ∧
    (∀ s f, FieldSignature.parse s = .ok f → ∀ t, f.Holds t → t.ErasesLegally) ∧
    (∀ s c, ClassSignature.parse s = .ok c → ∀ t, c.Holds t → t.ErasesLegally) := by
  refine ⟨fun s m h => ?_, fun s f h t ht => ?_, fun s c h t ht => ?_⟩
  · have hm := (written_of_parse methodSignature_reads h).1
    refine ⟨fun t ht => ?_, fun name => ?_⟩
    · exact GenericType.erasesLegally_of_wellFormed (hm.element_of_holds ht)
    · exact ErasedType.ofDescriptor_descriptor.mpr (hm.valid_erasureOf name)
  · have hf := (written_of_parse fieldSignature_reads h).1
    exact GenericType.erasesLegally_of_wellFormed (ht.element_wellFormed hf.type.1.element)
  · have hc := (written_of_parse classSignature_reads h).1
    exact GenericType.erasesLegally_of_wellFormed (hc.element_of_holds ht)

theorem holds_entryMethod : entryMethod.Holds .anything := by
  refine ⟨.exactly (.classType entryClass), ?_, .inr (.inl (by simp [entryMethod]))⟩
  have houter : (⟨"java/util/Map", [.anything, ⟨.covariant, ⟨1, by decide⟩, .variable "K"⟩]⟩ :
      Segment) ∈ entryClass.segments := List.mem_cons_self
  exact .argument rfl houter List.mem_cons_self (.self _)

theorem holds_entrySubclass : entrySubclass.Holds (.exactly (.classType entryClass)) :=
  ⟨_, .self _, .inr ⟨entryClass, by simp [entrySubclass], rfl⟩⟩

theorem erasesLegally_of_parse_entry :
    (entryMethod.Holds .anything ∧
      GenericType.anything.ErasesTo (.object ⟨"java/lang/Object"⟩) ∧
      ErasedType.ofDescriptor (entryMethod.erasureOf "K").descriptor =
        .ok (entryMethod.erasureOf "K")) ∧
    entryField.type.ErasesTo (.object ⟨"java/util/Map$Entry"⟩) ∧
    entryClass.erased.package = ⟨"java/util"⟩ := by
  obtain ⟨hmethod, hfield, hclass⟩ := erasesLegally_of_parse
  have hm := hmethod _ _ parse_entryMethod
  have hc := (hclass _ _ parse_entrySubclass _ holds_entrySubclass).package entryClass rfl
  refine ⟨⟨holds_entryMethod, ?_, hm.2 "K"⟩, ?_, ?_⟩
  · exact (hm.1 _ holds_entryMethod).classType _ rfl
  · exact (hfield _ _ parse_entryField _ (.self _)).classType entryClass rfl
  · obtain ⟨outer, inner, hsegments, hpackage, -⟩ := hc
    cases hsegments
    exact hpackage "java/util" "Map" (by decide) (by decide)

end Signature

end NullSafety
