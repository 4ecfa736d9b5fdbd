import NullSafety.Proofs.DecidingSite

namespace NullSafety

/-- The type in question has no null among its values, as the erased types tell: it is nothing at
all, or what is left of an array type of primitives when all its dimensions are taken away. -/
inductive Declaration.PrimitiveUse (d : Declaration MemberId) : Target → List PathStep → Prop
  | void (h : d.valueType = .void) : d.PrimitiveUse d.valueTarget []
  | value {p : Primitive} {n : Nat} (h : d.valueType = .value (.inArrays (.primitive p) n)) :
      d.PrimitiveUse d.valueTarget (List.replicate n .component)
  | parameter {m : MethodId} {i : Nat} {p : Primitive} {n : Nat} (hm : d.member = .method m)
      (hi : i < m.type.parameters.length)
      (h : m.type.parameters.get ⟨i, hi⟩ = .inArrays (.primitive p) n) :
      d.PrimitiveUse (.parameter i) (List.replicate n .component)

namespace ErasedType

theorem componentAt?_inArrays (t : ErasedType) (n : Nat) :
    (t.inArrays n).componentAt? (List.replicate n .component) = some t := by
  induction n with
  | zero => cases t <;> rfl
  | succ n ih => exact ih

/-- A path that leads through array components takes away as many dimensions as it has steps. -/
theorem componentAt?_eq_some_iff {t u : ErasedType} {path : List PathStep} :
    t.componentAt? path = some u ↔ ∃ n, t = u.inArrays n ∧ path = List.replicate n .component := by
  constructor
  · intro h
    fun_induction componentAt? t path with
    | case1 t =>
      cases h
      exact ⟨0, rfl, rfl⟩
    | case2 t path ih =>
      obtain ⟨n, ht, hpath⟩ := ih h
      exact ⟨n + 1, by rw [ht]; rfl, by rw [hpath]; rfl⟩
    | case3 => cases h
  · rintro ⟨n, rfl, rfl⟩
    exact u.componentAt?_inArrays n

theorem isPrimitive_iff {t : ErasedType} : t.isPrimitive = true ↔ ∃ p, t = primitive p := by
  cases t with
  | primitive p => exact ⟨fun _ => ⟨p, rfl⟩, fun _ => rfl⟩
  | object c => simp [isPrimitive, isReference]
  | array t => simp [isPrimitive, isReference]

theorem any_componentAt?_iff {t : ErasedType} {path : List PathStep} :
    (t.componentAt? path).any isPrimitive = true ↔
      ∃ p n, t = inArrays (primitive p) n ∧ path = List.replicate n .component := by
  simp only [Option.any_eq_true, componentAt?_eq_some_iff, isPrimitive_iff]
  constructor
  · rintro ⟨u, ⟨n, ht, hpath⟩, p, rfl⟩
    exact ⟨p, n, ht, hpath⟩
  · rintro ⟨p, n, ht, hpath⟩
    exact ⟨primitive p, ⟨n, ht, hpath⟩, p, rfl⟩

end ErasedType

namespace Declaration

variable {d : Declaration MemberId} {target : Target} {path : List PathStep}

theorem valueTarget_ne_parameter (d : Declaration MemberId) (i : Nat) :
    Target.parameter i ≠ d.valueTarget := by
  unfold valueTarget
  cases d.member <;> simp

theorem erasedAt?_valueTarget (d : Declaration MemberId) :
    d.erasedAt? d.valueTarget = some d.valueType := if_pos rfl

theorem erasedAt?_parameter {m : MethodId} (hm : d.member = .method m) (i : Nat) :
    d.erasedAt? (.parameter i) = m.type.parameters[i]?.map .value := by
  rw [erasedAt?, if_neg (d.valueTarget_ne_parameter i)]
  simp only [hm]

/-- Only the value and the parameters of a method have an erased type. -/
theorem erasedAt?_cases {e : Return ErasedType} (h : d.erasedAt? target = some e) :
    (target = d.valueTarget ∧ d.valueType = e) ∨
      ∃ m i t, d.member = .method m ∧ target = .parameter i ∧
        m.type.parameters[i]? = some t ∧ e = .value t := by
  by_cases hvalue : target = d.valueTarget
  · rw [hvalue, erasedAt?_valueTarget] at h
    exact .inl ⟨hvalue, Option.some.inj h⟩
  · right
    simp only [erasedAt?, if_neg hvalue] at h
    split at h
    · rename_i i m hm
      obtain ⟨t, ht, rfl⟩ := Option.map_eq_some_iff.mp h
      exact ⟨m, i, t, hm, rfl, ht, rfl⟩
    · cases h

theorem isPrimitiveAt_of_value {t : ErasedType} (h : d.erasedAt? target = some (.value t)) :
    d.isPrimitiveAt target path = (t.componentAt? path).any ErasedType.isPrimitive := by
  simp only [isPrimitiveAt, h]

theorem isPrimitiveAt_of_void (h : d.erasedAt? target = some .void) :
    d.isPrimitiveAt target path = path.isEmpty := by
  simp only [isPrimitiveAt, h]

theorem PrimitiveUse.isPrimitiveAt (h : d.PrimitiveUse target path) :
    d.isPrimitiveAt target path = true := by
  cases h with
  | void h =>
    rw [isPrimitiveAt_of_void (h ▸ d.erasedAt?_valueTarget)]
    rfl
  | @value p n h =>
    rw [isPrimitiveAt_of_value (h ▸ d.erasedAt?_valueTarget), ErasedType.any_componentAt?_iff]
    exact ⟨p, n, rfl, rfl⟩
  | @parameter m i p n hm hi h =>
    have herased : d.erasedAt? (.parameter i) = some (.value (.inArrays (.primitive p) n)) := by
      rw [erasedAt?_parameter hm, List.getElem?_eq_getElem hi]
      exact congrArg (some ∘ Return.value) h
    rw [isPrimitiveAt_of_value herased, ErasedType.any_componentAt?_iff]
    exact ⟨p, n, rfl, rfl⟩

theorem isPrimitiveAt_iff : d.isPrimitiveAt target path = true ↔ d.PrimitiveUse target path := by
  constructor
  · intro h
    cases herased : d.erasedAt? target with
    | none => simp [isPrimitiveAt, herased] at h
    | some e =>
      obtain ⟨rfl, hvalue⟩ | ⟨m, i, t, hm, rfl, ht, rfl⟩ := erasedAt?_cases herased
      · cases e with
        | void =>
          rw [isPrimitiveAt_of_void herased, List.isEmpty_iff] at h
          subst h
          exact .void hvalue
        | value t =>
          rw [isPrimitiveAt_of_value herased, ErasedType.any_componentAt?_iff] at h
          obtain ⟨p, n, rfl, rfl⟩ := h
          exact .value hvalue
      · rw [isPrimitiveAt_of_value herased, ErasedType.any_componentAt?_iff] at h
        obtain ⟨p, n, rfl, rfl⟩ := h
        obtain ⟨hi, ht⟩ := List.getElem?_eq_some_iff.mp ht
        exact .parameter hm hi ht
  · exact PrimitiveUse.isPrimitiveAt

end Declaration

/-- A type without null is never null, whatever the annotations say, and no other type passes for
one. -/
theorem resolveAt_primitive_iff (r : Resolver) (d : Declaration MemberId) (target : Target)
    (path : List PathStep) :
    ((r.resolveAt d target path).scope = .primitive ↔ d.PrimitiveUse target path) ∧
      (d.PrimitiveUse target path →
        r.resolveAt d target path = ⟨.nonNull, .primitive, [], []⟩) := by
  have hprimitive (h : d.PrimitiveUse target path) :
      r.resolveAt d target path = ⟨.nonNull, .primitive, [], []⟩ := by
    rw [Resolver.resolveAt, if_pos h.isPrimitiveAt]
    rfl
  refine ⟨⟨fun hscope => ?_, fun h => ?_⟩, hprimitive⟩
  · apply Declaration.isPrimitiveAt_iff.mp
    cases huse : d.isPrimitiveAt target path with
    | false => exact absurd hscope (Resolver.scope_ne_primitive huse)
    | true => rfl
  · rw [hprimitive h]

def matrixMethod : Declaration MemberId where
  member := .method ⟨⟨"p/C"⟩, "m", ⟨[.root, .inArrays (.primitive .int) 2], .void⟩⟩
  signature := none
  annotations := ["a.Nullable"]
  typeAnnotations := [⟨.parameter 1, [.component, .component], "a.Nullable"⟩]

theorem resolveAt_primitive_iff_matrix :
    matrixMethod.PrimitiveUse (.parameter 1) [.component, .component] ∧
      samplePackage.resolveAt matrixMethod (.parameter 1) [.component, .component] =
        ⟨.nonNull, .primitive, [], []⟩ ∧
      (samplePackage.resolveAt matrixMethod .result []).scope = .primitive ∧
      (samplePackage.resolveAt matrixMethod (.parameter 1) [.component]).scope ≠ .primitive := by
  have hnumber : matrixMethod.PrimitiveUse (.parameter 1) [.component, .component] :=
    Declaration.isPrimitiveAt_iff.mp (by decide)
  have hresult : matrixMethod.PrimitiveUse .result [] := .void rfl
  have hrow : ¬ matrixMethod.PrimitiveUse (.parameter 1) [.component] :=
    mt Declaration.isPrimitiveAt_iff.mpr (by decide)
  refine ⟨hnumber, (resolveAt_primitive_iff samplePackage _ _ _).2 hnumber, ?_, ?_⟩
  · exact (resolveAt_primitive_iff samplePackage _ _ _).1.mpr hresult
  · exact mt (resolveAt_primitive_iff samplePackage _ _ _).1.mp hrow

end NullSafety
