import NullSafety.Signature.Basic

namespace NullSafety

def reserved : List Char := ['.', ';', '[', '/', '<', '>', ':']

def IsIdentifier (name : String) : Prop :=
  name.toList ≠ [] ∧ ∀ c ∈ name.toList, c ∉ reserved

def IsClassPath (name : String) : Prop :=
  ∃ parts : List String, parts ≠ [] ∧ (∀ part ∈ parts, IsIdentifier part) ∧
    name = "/".intercalate parts

instance (name : String) : Decidable (IsIdentifier name) :=
  decidable_of_iff (name.toList ≠ [] ∧ name.toList.all (· ∉ reserved)) (by simp [IsIdentifier])

/-- Everything but a primitive outside of an array. -/
def GenericType.IsReference (t : GenericType) : Prop :=
  ∀ p, t.element = .primitive p → t.dimensions.val ≠ 0

mutual

inductive Element.WellFormed : Element → Prop
  | primitive (p : Primitive) : Element.WellFormed (.primitive p)
  | classType {c : ClassType} (h : c.WellFormed) : Element.WellFormed (.classType c)
  | variable {name : String} (h : IsIdentifier name) : Element.WellFormed (.variable name)

/-- There is an outermost class, and only its name may hold a package. -/
inductive ClassType.WellFormed : ClassType → Prop
  | mk {outer : Segment} {inner : List Segment} (path : IsClassPath outer.name)
      (names : ∀ s ∈ inner, IsIdentifier s.name)
      (arguments : ∀ s ∈ outer :: inner, ∀ a ∈ s.arguments, a.IsArgument) :
      ClassType.WellFormed ⟨outer :: inner⟩

inductive GenericType.IsArgument : GenericType → Prop
  | anything : GenericType.IsArgument .anything
  | bounded {t : GenericType} (variance : t.variance ≠ .unbounded) (reference : t.IsReference)
      (element : t.element.WellFormed) : GenericType.IsArgument t

end

mutual

/-- The length of the longest chain of argument lists inside each other. -/
def GenericType.nesting : GenericType → Nat
  | ⟨_, _, e⟩ => e.nesting

def Element.nesting : Element → Nat
  | .primitive _ => 0
  | .classType c => c.nesting
  | .variable _ => 0

def ClassType.nesting : ClassType → Nat
  | ⟨ss⟩ => Segment.nesting ss

def Segment.nesting : List Segment → Nat
  | [] => 0
  | ⟨_, as⟩ :: ss => max (GenericType.listNesting as) (Segment.nesting ss)

def GenericType.listNesting : List GenericType → Nat
  | [] => 0
  | a :: as => max (a.nesting + 1) (GenericType.listNesting as)

end

theorem GenericType.nesting_eq (t : GenericType) : t.nesting = t.element.nesting := by
  cases t
  rw [GenericType.nesting]

theorem GenericType.listNesting_le_zero {as : List GenericType} :
    listNesting as ≤ 0 ↔ as = [] := by
  cases as with
  | nil => simp [listNesting]
  | cons a as => simp [listNesting]

theorem GenericType.listNesting_le_succ {as : List GenericType} {n : Nat} :
    listNesting as ≤ n + 1 ↔ ∀ a ∈ as, a.nesting ≤ n := by
  induction as with
  | nil => simp [listNesting]
  | cons a as ih =>
    simp only [listNesting, Nat.max_le, ih, Nat.add_le_add_iff_right, List.mem_cons,
      forall_eq_or_imp]

theorem ClassType.nesting_le {ss : List Segment} {n : Nat} :
    nesting ⟨ss⟩ ≤ n ↔ ∀ s ∈ ss, GenericType.listNesting s.arguments ≤ n := by
  rw [nesting]
  induction ss with
  | nil => simp [Segment.nesting]
  | cons s ss ih =>
    cases s
    simp only [Segment.nesting, Nat.max_le, ih, List.mem_cons, forall_eq_or_imp]

def Element.Fits (limit : Nat) (e : Element) : Prop := e.WellFormed ∧ e.nesting ≤ limit

def ClassType.Fits (limit : Nat) (c : ClassType) : Prop := c.WellFormed ∧ c.nesting ≤ limit

def GenericType.AllFit (limit : Nat) (as : List GenericType) : Prop :=
  (∀ a ∈ as, a.IsArgument) ∧ listNesting as ≤ limit

structure GenericType.IsPlain (limit : Nat) (t : GenericType) : Prop where
  variance : t.variance = .invariant
  element : t.element.WellFormed
  nesting : t.nesting ≤ limit

structure TypeParameter.WellFormed (p : TypeParameter) : Prop where
  name : IsIdentifier p.name
  bounded : p.bounds ≠ []
  bounds : ∀ t ∈ p.bounds, t.IsPlain 64 ∧ t.IsReference

structure MethodSignature.WellFormed (m : MethodSignature) : Prop where
  typeParameters : ∀ p ∈ m.typeParameters, p.WellFormed
  parameters : ∀ t ∈ m.parameters, t.IsPlain 64
  result : ∀ t, m.result = .value t → t.IsPlain 64
  thrown : ∀ t ∈ m.thrown, t.IsPlain 64 ∧ t.IsReference

structure FieldSignature.WellFormed (f : FieldSignature) : Prop where
  type : f.type.IsPlain 64 ∧ f.type.IsReference

structure ClassSignature.WellFormed (c : ClassSignature) : Prop where
  typeParameters : ∀ p ∈ c.typeParameters, p.WellFormed
  superclass : c.superclass.Fits 64
  interfaces : ∀ d ∈ c.interfaces, d.Fits 64

namespace GenericType

theorem allFit_nil (limit : Nat) : AllFit limit [] := by
  simp [AllFit, listNesting]

theorem allFit_zero {as : List GenericType} : AllFit 0 as ↔ as = [] := by
  refine ⟨fun h => listNesting_le_zero.mp h.2, ?_⟩
  rintro rfl
  exact allFit_nil 0

theorem allFit_succ {as : List GenericType} {n : Nat} :
    AllFit (n + 1) as ↔ ∀ a ∈ as, a.IsArgument ∧ a.nesting ≤ n := by
  rw [AllFit, listNesting_le_succ]
  constructor
  · intro h a ha
    exact ⟨h.1 a ha, h.2 a ha⟩
  · intro h
    exact ⟨fun a ha => (h a ha).1, fun a ha => (h a ha).2⟩

theorem isPlain_iff {limit : Nat} {t : GenericType} :
    t.IsPlain limit ↔ t.variance = .invariant ∧ t.element.Fits limit := by
  rw [Element.Fits, ← nesting_eq]
  exact ⟨fun h => ⟨h.variance, h.element, h.nesting⟩, fun h => ⟨h.1, h.2.1, h.2.2⟩⟩

theorem nesting_anything : anything.nesting = 0 := by
  simp [anything, ClassType.raw, nesting, Element.nesting, ClassType.nesting, Segment.nesting,
    listNesting]

theorem nesting_withVariance (t : GenericType) (v : Variance) :
    (t.withVariance v).nesting = t.nesting := by
  rw [nesting_eq, nesting_eq]
  rfl

theorem IsPlain.withVariance_eq {limit : Nat} {t : GenericType} (ht : t.IsPlain limit) :
    t.withVariance .invariant = t := by
  rw [withVariance, ← ht.variance]
  cases t
  rfl

/-- An argument other than the one for every type is a plain type with a variance. -/
theorem isArgument_iff {limit : Nat} {t : GenericType} :
    t.IsArgument ∧ t.nesting ≤ limit ↔ t = anything ∨
      ∃ (p : GenericType) (v : Variance), p.IsPlain limit ∧ p.IsReference ∧ v ≠ .unbounded ∧
        t = p.withVariance v := by
  constructor
  · rintro ⟨ht, hnest⟩
    cases ht with
    | anything => exact .inl rfl
    | bounded hv hr he =>
      refine .inr ⟨t.withVariance .invariant, t.variance, ⟨rfl, he, ?_⟩, hr, hv, ?_⟩
      · rwa [nesting_withVariance]
      · cases t
        rfl
  · rintro (rfl | ⟨p, v, hp, hr, hv, rfl⟩)
    · exact ⟨.anything, by simp [nesting_anything]⟩
    · refine ⟨.bounded hv hr hp.element, ?_⟩
      rw [nesting_withVariance]
      exact hp.nesting

end GenericType

namespace Element

theorem fits_primitive (limit : Nat) (p : Primitive) : Fits limit (.primitive p) :=
  ⟨.primitive p, by simp [nesting]⟩

theorem fits_classType {limit : Nat} {c : ClassType} :
    Fits limit (.classType c) ↔ c.Fits limit := by
  rw [Fits, nesting]
  refine ⟨fun h => ⟨?_, h.2⟩, fun h => ⟨.classType h.1, h.2⟩⟩
  cases h.1
  assumption

theorem fits_variable {limit : Nat} {name : String} :
    Fits limit (.variable name) ↔ IsIdentifier name := by
  refine ⟨fun h => ?_, fun h => ⟨.variable h, by simp [nesting]⟩⟩
  cases h.1
  assumption

end Element

theorem Element.wellFormed_raw {name : String} (h : IsClassPath name) :
    (Element.classType (.raw name)).WellFormed := by
  apply Element.WellFormed.classType
  exact ⟨h, by simp, by simp⟩

namespace GenericType

theorem isPlain_raw {name : String} (h : IsClassPath name) (limit : Nat) (dimensions : Fin 256) :
    IsPlain limit ⟨.invariant, dimensions, .classType (.raw name)⟩ ∧
      IsReference ⟨.invariant, dimensions, .classType (.raw name)⟩ := by
  refine ⟨⟨rfl, Element.wellFormed_raw h, ?_⟩, by simp [IsReference]⟩
  simp [ClassType.raw, nesting, Element.nesting, ClassType.nesting, Segment.nesting, listNesting]

theorem isPlain_variable {name : String} (h : IsIdentifier name) (limit : Nat)
    (dimensions : Fin 256) :
    IsPlain limit ⟨.invariant, dimensions, .variable name⟩ ∧
      IsReference ⟨.invariant, dimensions, .variable name⟩ := by
  refine ⟨⟨rfl, .variable h, ?_⟩, by simp [IsReference]⟩
  simp [nesting, Element.nesting]

end GenericType

theorem ClassType.fits_iff {limit : Nat} {outer : Segment} {inner : List Segment} :
    Fits limit ⟨outer :: inner⟩ ↔ IsClassPath outer.name ∧
      GenericType.AllFit limit outer.arguments ∧
      ∀ s ∈ inner, IsIdentifier s.name ∧ GenericType.AllFit limit s.arguments := by
  rw [Fits, nesting_le, List.forall_mem_cons]
  constructor
  · rintro ⟨⟨hpath, hnames, has⟩, ho, hi⟩
    rw [List.forall_mem_cons] at has
    exact ⟨hpath, ⟨has.1, ho⟩, fun s hs => ⟨hnames s hs, has.2 s hs, hi s hs⟩⟩
  · rintro ⟨hpath, ho, hi⟩
    refine ⟨⟨hpath, fun s hs => (hi s hs).1, ?_⟩, ho.2, fun s hs => (hi s hs).2.2⟩
    rw [List.forall_mem_cons]
    exact ⟨ho.1, fun s hs => (hi s hs).2.1⟩

end NullSafety
