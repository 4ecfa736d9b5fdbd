import NullSafety.Signature.Erasure

namespace NullSafety

/-- From variable to variable, by first bounds that are nothing but a variable. There is no limit
to the number of steps. -/
inductive Leads (ps : List TypeParameter) : String → String → Prop
  | refl (name : String) : Leads ps name name
  | step {name next last : String} {bound : GenericType} (first : firstBound? ps name = some bound)
      (bare : bound.bareVariable? = some next) (rest : Leads ps next last) : Leads ps name last

inductive EndsAfter (ps : List TypeParameter) : Nat → String → GenericType → Prop
  | here {name : String} {bound : GenericType} (first : firstBound? ps name = some bound)
      (other : bound.bareVariable? = none) : EndsAfter ps 0 name bound
  | step {name next : String} {bound last : GenericType} {n : Nat}
      (first : firstBound? ps name = some bound) (bare : bound.bareVariable? = some next)
      (rest : EndsAfter ps n next last) : EndsAfter ps (n + 1) name last

variable {ps : List TypeParameter} {name last : String} {bound : GenericType} {n : Nat}

theorem mem_names_of_firstBound? (h : firstBound? ps name = some bound) :
    name ∈ ps.map TypeParameter.name := by
  obtain ⟨p, hp, -⟩ := Option.bind_eq_some_iff.mp h
  have hname : p.name = name := by simpa using List.find?_some hp
  exact List.mem_map.mpr ⟨p, List.mem_of_find?_eq_some hp, hname⟩

theorem Leads.endsAfter (h : Leads ps name last) (first : firstBound? ps last = some bound)
    (other : bound.bareVariable? = none) : ∃ n, EndsAfter ps n name bound := by
  induction h with
  | refl name => exact ⟨0, .here first other⟩
  | step hfirst hbare _ ih =>
    obtain ⟨n, hn⟩ := ih first
    exact ⟨n + 1, .step hfirst hbare hn⟩

namespace EndsAfter

theorem leads (h : EndsAfter ps n name bound) :
    ∃ last, Leads ps name last ∧ firstBound? ps last = some bound ∧
      bound.bareVariable? = none := by
  induction h with
  | here first other => exact ⟨_, .refl _, first, other⟩
  | step first bare _ ih =>
    obtain ⟨last, hlast, hbound⟩ := ih
    exact ⟨last, .step first bare hlast, hbound⟩

/-- There is only one way to go, so a variable stands at one distance from the end. -/
theorem unique {m : Nat} {bound' : GenericType} (h : EndsAfter ps n name bound)
    (h' : EndsAfter ps m name bound') : n = m ∧ bound = bound' := by
  induction h generalizing m with
  | here first other =>
    cases h' with
    | here first' _ => exact ⟨rfl, Option.some.inj (first.symm.trans first')⟩
    | step first' bare _ =>
      cases first.symm.trans first'
      cases other.symm.trans bare
  | step first bare _ ih =>
    cases h' with
    | here first' other =>
      cases first.symm.trans first'
      cases other.symm.trans bare
    | step first' bare' rest =>
      cases first.symm.trans first'
      cases bare.symm.trans bare'
      obtain ⟨rfl, hbound⟩ := ih rest
      exact ⟨rfl, hbound⟩

/-- The variables on the way, all of them declared and no two at the same distance. -/
theorem exists_names (h : EndsAfter ps n name bound) :
    ∃ names : List String, names.length = n + 1 ∧ names.Nodup ∧
      names ⊆ ps.map TypeParameter.name ∧ ∀ x ∈ names, ∃ i ≤ n, EndsAfter ps i x bound := by
  induction h with
  | @here name bound first other =>
    refine ⟨[name], rfl, by simp, by simpa using mem_names_of_firstBound? first, ?_⟩
    simpa using EndsAfter.here first other
  | @step name next bound last n first bare rest ih =>
    obtain ⟨names, hlength, hnodup, hdeclared, hdistance⟩ := ih
    have hnew : name ∉ names := by
      intro hmem
      obtain ⟨i, hi, hend⟩ := hdistance name hmem
      obtain ⟨rfl, -⟩ := hend.unique (.step first bare rest)
      omega
    refine ⟨name :: names, by simp [hlength], List.nodup_cons.mpr ⟨hnew, hnodup⟩, ?_, ?_⟩
    · exact List.cons_subset.mpr ⟨mem_names_of_firstBound? first, hdeclared⟩
    · intro x hx
      obtain rfl | hx := List.mem_cons.mp hx
      · exact ⟨n + 1, Nat.le_refl _, .step first bare rest⟩
      · obtain ⟨i, hi, hend⟩ := hdistance x hx
        exact ⟨i, by omega, hend⟩

/-- What lies ahead of a variable lies ahead of each variable it leads to. -/
theorem of_leads (h : EndsAfter ps n name bound) (hl : Leads ps name last) :
    ∃ k, EndsAfter ps k last bound := by
  induction hl generalizing n with
  | refl name => exact ⟨n, h⟩
  | step first bare _ ih =>
    cases h with
    | here first' other =>
      cases first.symm.trans first'
      cases other.symm.trans bare
    | step first' bare' rest =>
      cases first.symm.trans first'
      cases bare.symm.trans bare'
      exact ih rest

theorem lt_length (h : EndsAfter ps n name bound) : n < ps.length := by
  obtain ⟨names, hlength, hnodup, hdeclared, -⟩ := h.exists_names
  have hle := hnodup.length_le_of_subset hdeclared
  rw [List.length_map] at hle
  omega

theorem eraseVariable_eq (h : EndsAfter ps n name bound) {steps : Nat} (hn : n < steps) :
    eraseVariable ps steps name = bound.erased?.getD .root := by
  induction h generalizing steps with
  | here first other =>
    obtain ⟨k, rfl⟩ : ∃ k, steps = k + 1 := ⟨steps - 1, by omega⟩
    simp only [eraseVariable, first, other]
  | step first bare _ ih =>
    obtain ⟨k, rfl⟩ : ∃ k, steps = k + 1 := ⟨steps - 1, by omega⟩
    simp only [eraseVariable, first, bare]
    exact ih (by omega)

end EndsAfter

theorem eraseVariable_of_endless (steps : Nat) (h : ∀ n bound, ¬ EndsAfter ps n name bound) :
    eraseVariable ps steps name = .root := by
  induction steps generalizing name with
  | zero => rfl
  | succ steps ih =>
    cases first : firstBound? ps name with
    | none => simp only [eraseVariable, first]
    | some bound =>
      cases bare : bound.bareVariable? with
      | none => exact absurd (.here first bare) (h 0 bound)
      | some next =>
        simp only [eraseVariable, first, bare]
        apply ih
        intro n last hrest
        exact h (n + 1) last (.step first bare hrest)

/-- A variable with a way to some bound that is more than a variable erases to what that bound
erases to. It erases to the root class if the way breaks off or goes on for ever. -/
theorem erasureOf_unlimited (m : MethodSignature) (hm : m.typeParameters.length ≤ 64)
    (name : String) :
    (∀ last bound, Leads m.typeParameters name last →
      firstBound? m.typeParameters last = some bound → bound.bareVariable? = none →
      m.erasureOf name = bound.erased?.getD .root) ∧
    (∀ last, Leads m.typeParameters name last → firstBound? m.typeParameters last = none →
      m.erasureOf name = .root) ∧
    ((∀ last, Leads m.typeParameters name last → ∃ bound next,
        firstBound? m.typeParameters last = some bound ∧ bound.bareVariable? = some next) →
      m.erasureOf name = .root) := by
  refine ⟨fun last bound hlast first other => ?_, fun last hlast hnone => ?_, fun hnext => ?_⟩
  · obtain ⟨n, hn⟩ := hlast.endsAfter first other
    have hlt : n < MethodSignature.maxErasureSteps := Nat.lt_of_lt_of_le hn.lt_length hm
    exact hn.eraseVariable_eq hlt
  · apply eraseVariable_of_endless
    intro n bound hn
    obtain ⟨k, hk⟩ := hn.of_leads hlast
    cases hk with
    | here first | step first => cases hnone.symm.trans first
  · apply eraseVariable_of_endless
    intro n bound hn
    obtain ⟨last, hlast, first, other⟩ := hn.leads
    obtain ⟨bound', next, first', bare⟩ := hnext last hlast
    cases first.symm.trans first'
    cases other.symm.trans bare

/-- `<T:TU;U::Lp/N;A:TB;B:TA;C:TD;>()V`, where the way of `T` ends, that of `A` goes round in a
circle and that of `C` breaks off. -/
def threeWays : MethodSignature :=
  ⟨[⟨"T", some (.exactly (.variable "U")), []⟩,
    ⟨"U", none, [.exactly (.classType (.raw "p/N"))]⟩,
    ⟨"A", some (.exactly (.variable "B")), []⟩,
    ⟨"B", some (.exactly (.variable "A")), []⟩,
    ⟨"C", some (.exactly (.variable "D")), []⟩], [], .void, []⟩

theorem firstBound?_threeWays :
    firstBound? threeWays.typeParameters "T" = some (.exactly (.variable "U")) ∧
    firstBound? threeWays.typeParameters "U" = some (.exactly (.classType (.raw "p/N"))) ∧
    firstBound? threeWays.typeParameters "A" = some (.exactly (.variable "B")) ∧
    firstBound? threeWays.typeParameters "B" = some (.exactly (.variable "A")) ∧
    firstBound? threeWays.typeParameters "C" = some (.exactly (.variable "D")) ∧
    firstBound? threeWays.typeParameters "D" = none :=
  ⟨rfl, rfl, rfl, rfl, rfl, rfl⟩

theorem leads_threeWays_circle {x last : String} (hx : x = "A" ∨ x = "B")
    (h : Leads threeWays.typeParameters x last) : last = "A" ∨ last = "B" := by
  obtain ⟨-, -, hA, hB, -, -⟩ := firstBound?_threeWays
  induction h with
  | refl name => exact hx
  | step first bare _ ih =>
    apply ih
    obtain rfl | rfl := hx
    · cases hA.symm.trans first
      cases bare
      exact .inr rfl
    · cases hB.symm.trans first
      cases bare
      exact .inl rfl

theorem erasureOf_unlimited_threeWays :
    threeWays.typeParameters.length ≤ 64 ∧
      threeWays.erasureOf "T" = .object ⟨"p/N"⟩ ∧
      threeWays.erasureOf "A" = .root ∧
      threeWays.erasureOf "C" = .root := by
  obtain ⟨hT, hU, hA, hB, hC, hD⟩ := firstBound?_threeWays
  have hlength : threeWays.typeParameters.length ≤ 64 := by decide
  refine ⟨hlength, ?_, ?_, ?_⟩
  · have hlead : Leads threeWays.typeParameters "T" "U" := .step hT rfl (.refl "U")
    exact (erasureOf_unlimited threeWays hlength "T").1 "U" _ hlead hU rfl
  · refine (erasureOf_unlimited threeWays hlength "A").2.2 fun last hlast => ?_
    obtain rfl | rfl := leads_threeWays_circle (.inl rfl) hlast
    · exact ⟨_, _, hA, rfl⟩
    · exact ⟨_, _, hB, rfl⟩
  · have hlead : Leads threeWays.typeParameters "C" "D" := .step hC rfl (.refl "D")
    exact (erasureOf_unlimited threeWays hlength "C").2.1 "D" hlead hD

end NullSafety
