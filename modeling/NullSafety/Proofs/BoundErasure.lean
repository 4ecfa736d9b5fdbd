import NullSafety.Proofs.ErasureChain
import NullSafety.Proofs.RoundTrip

namespace NullSafety

variable {ps : List TypeParameter} {name : String} {bound : GenericType} {n : Nat}

theorem EndsAfter.eraseVariable_eq_root (h : EndsAfter ps n name bound) {steps : Nat}
    (hn : steps ≤ n) : eraseVariable ps steps name = .root := by
  induction h generalizing steps with
  | here =>
    obtain rfl := Nat.le_zero.mp hn
    rfl
  | step first bare _ ih =>
    cases steps with
    | zero => rfl
    | succ steps =>
      simp only [eraseVariable, first, bare]
      apply ih
      omega

/-- One more step makes a difference only to a way that ends with that step. -/
theorem eraseVariable_succ_eq (h : ∀ last, ¬ EndsAfter ps n name last) :
    eraseVariable ps (n + 1) name = eraseVariable ps n name := by
  by_cases hend : ∃ k last, EndsAfter ps k name last
  · obtain ⟨k, last, hk⟩ := hend
    have hne : k ≠ n := by
      rintro rfl
      exact h last hk
    by_cases hlt : k < n
    · rw [hk.eraseVariable_eq hlt, hk.eraseVariable_eq (by omega)]
    · rw [hk.eraseVariable_eq_root (by omega), hk.eraseVariable_eq_root (by omega)]
  · have hendless : ∀ k last, ¬ EndsAfter ps k name last := by
      intro k last hk
      exact hend ⟨k, last, hk⟩
    rw [eraseVariable_of_endless _ hendless, eraseVariable_of_endless _ hendless]

/-- A type that is more than a variable is no variable, unless it is an array of one. -/
theorem GenericType.variableName?_eq_none (bare : bound.bareVariable? = none)
    (h : ∀ x, bound.variableName? = some x → bound.dimensions.val = 0) :
    bound.variableName? = none := by
  cases hname : bound.variableName? with
  | none => rfl
  | some x =>
    rw [bareVariable?, if_pos (h x hname), hname] at bare
    cases bare

namespace MethodSignature

theorem erasureOf_of_endsAfter {m : MethodSignature} (h : EndsAfter m.typeParameters n name bound)
    (hn : n < maxErasureSteps) : m.erasureOf name = bound.erased?.getD .root :=
  h.eraseVariable_eq hn

theorem erasureOf_of_beyond {m : MethodSignature} (h : EndsAfter m.typeParameters n name bound)
    (hn : maxErasureSteps ≤ n) : m.erasureOf name = .root :=
  h.eraseVariable_eq_root hn

theorem erase_of_bare (m : MethodSignature) (bare : bound.bareVariable? = some name) :
    m.erase bound = m.erasureOf name := by
  unfold GenericType.bareVariable? at bare
  split at bare
  · rename_i hflat
    simp only [erase, bare, hflat]
    rfl
  · cases bare

theorem erase_of_concrete (m : MethodSignature) (h : bound.variableName? = none) :
    m.erase bound = bound.erased?.getD .root := by
  simp only [erase, h]

theorem WellFormed.exists_firstBound {m : MethodSignature} (hm : m.WellFormed)
    {p : TypeParameter} (hp : m.typeParameters.find? (·.name = name) = some p) :
    ∃ bound, p.bounds.head? = some bound ∧ firstBound? m.typeParameters name = some bound := by
  have hbounds := (hm.typeParameters p (List.mem_of_find?_eq_some hp)).bounded
  obtain ⟨bound, hbound⟩ := Option.ne_none_iff_exists'.mp (mt List.head?_eq_none_iff.mp hbounds)
  refine ⟨bound, hbound, ?_⟩
  rw [firstBound?, hp]
  exact hbound

theorem erasureOf_eq_of_bare {m : MethodSignature} {next : String}
    (first : firstBound? m.typeParameters name = some bound)
    (bare : bound.bareVariable? = some next)
    (h : ∀ last, ¬ EndsAfter m.typeParameters maxErasureSteps name last) :
    m.erasureOf name = m.erasureOf next := by
  have hnext : ∀ last, ¬ EndsAfter m.typeParameters 63 next last := by
    intro last hlast
    exact h last (.step first bare hlast)
  have hstep : m.erasureOf name = eraseVariable m.typeParameters 63 next := by
    rw [erasureOf, maxErasureSteps, eraseVariable, first]
    simp only [bare]
  exact hstep.trans (eraseVariable_succ_eq hnext).symm

end MethodSignature

/-- A type variable erases to what its first bound erases to, unless there are just as many
steps from it to the end of the way as erasure takes at most. Then it is the bound alone that
erases to what stands at the end. -/
theorem erase_variable_eq_erase_firstBound {text : String} {m : MethodSignature}
    (h : MethodSignature.parse text = .ok m) {name : String} {p : TypeParameter}
    (hp : m.typeParameters.find? (·.name = name) = some p) :
    ∃ bound, p.bounds.head? = some bound ∧
      ((∀ x, bound.variableName? = some x → bound.dimensions.val = 0) →
        (∀ last, ¬ EndsAfter m.typeParameters 64 name last) →
        m.erase (.exactly (.variable name)) = m.erase bound) ∧
      ∀ last e, EndsAfter m.typeParameters 64 name last → last.erased? = some e →
        m.erase (.exactly (.variable name)) = .root ∧ m.erase bound = e := by
  have hm := (Signature.written_of_parse Signature.methodSignature_reads h).1
  obtain ⟨bound, hbound, first⟩ := hm.exists_firstBound hp
  have hself : m.erase (.exactly (.variable name)) = m.erasureOf name := m.erase_of_bare rfl
  refine ⟨bound, hbound, fun harray hlong => ?_, fun last e hend he => ⟨?_, ?_⟩⟩
  · cases bare : bound.bareVariable? with
    | some next =>
      rw [hself, m.erase_of_bare bare]
      exact MethodSignature.erasureOf_eq_of_bare first bare hlong
    | none =>
      have hconcrete := GenericType.variableName?_eq_none bare harray
      rw [hself, m.erase_of_concrete hconcrete]
      exact MethodSignature.erasureOf_of_endsAfter (.here first bare) (by decide)
  · rw [hself]
    exact MethodSignature.erasureOf_of_beyond hend (Nat.le_refl _)
  · cases hend with
    | step first' bare hrest =>
      cases first.symm.trans first'
      rw [m.erase_of_bare bare, MethodSignature.erasureOf_of_endsAfter hrest (by decide), he]
      rfl

/-- The variable on a level is bounded by the one on the level below, the lowest one by a
class. -/
def levelName (n : Nat) : String := String.ofList (List.replicate (n + 1) 'T')

def levelBound : Nat → GenericType
  | 0 => .exactly (.classType (.raw "p/N"))
  | n + 1 => .exactly (.variable (levelName n))

def level (n : Nat) : TypeParameter := ⟨levelName n, some (levelBound n), []⟩

def tower : Nat → List TypeParameter
  | 0 => [level 0]
  | n + 1 => level (n + 1) :: tower n

def towerMethod (n : Nat) : MethodSignature :=
  ⟨tower n, [.exactly (.variable (levelName n)), levelBound n], .void, []⟩

theorem levelName_ne {k : Nat} (h : n ≠ k) : levelName n ≠ levelName k := by
  intro heq
  have hlength := congrArg List.length (String.ofList_injective heq)
  simp only [List.length_replicate] at hlength
  omega

theorem find?_tower {k : Nat} (h : n ≤ k) :
    (tower k).find? (·.name = levelName n) = some (level n) := by
  induction k with
  | zero =>
    obtain rfl := Nat.le_zero.mp h
    simp [tower, level]
  | succ k ih =>
    by_cases heq : n = k + 1
    · subst heq
      simp [tower, level]
    · have hne := levelName_ne (Ne.symm heq)
      rw [tower, List.find?_cons_of_neg (by rwa [decide_eq_true_eq])]
      apply ih
      omega

theorem find?_towerMethod {k : Nat} (h : n ≤ k) :
    (towerMethod k).typeParameters.find? (·.name = levelName n) = some (level n) :=
  find?_tower h

theorem head?_bounds_level (n : Nat) : (level n).bounds.head? = some (levelBound n) := rfl

theorem firstBound?_tower {k : Nat} (h : n ≤ k) :
    firstBound? (tower k) (levelName n) = some (levelBound n) := by
  rw [firstBound?, find?_tower h]
  rfl

theorem endsAfter_tower {k : Nat} (h : n ≤ k) :
    EndsAfter (tower k) n (levelName n) (levelBound 0) := by
  induction n with
  | zero => exact .here (firstBound?_tower h) rfl
  | succ n ih => exact .step (firstBound?_tower h) rfl (ih (by omega))

/-- The levels that are too high erase to the root class. -/
theorem erasureOf_towerMethod {k : Nat} (h : n ≤ k) :
    (towerMethod k).erasureOf (levelName n) = if n < 64 then .object ⟨"p/N"⟩ else .root := by
  have hend : EndsAfter (towerMethod k).typeParameters n (levelName n) (levelBound 0) :=
    endsAfter_tower h
  split
  · rename_i hn
    exact MethodSignature.erasureOf_of_endsAfter hend hn
  · rename_i hn
    exact MethodSignature.erasureOf_of_beyond hend (Nat.le_of_not_lt hn)

theorem isIdentifier_levelName (n : Nat) : IsIdentifier (levelName n) := by
  rw [IsIdentifier, levelName, String.toList_ofList]
  refine ⟨by simp, fun c hc => ?_⟩
  obtain rfl := List.eq_of_mem_replicate hc
  decide

theorem isClassPath_lowest : IsClassPath "p/N" := ⟨["p", "N"], by decide, by decide, by decide⟩

theorem isPlain_levelBound (n : Nat) : (levelBound n).IsPlain 64 ∧ (levelBound n).IsReference := by
  cases n with
  | zero => exact GenericType.isPlain_raw isClassPath_lowest 64 0
  | succ n => exact GenericType.isPlain_variable (isIdentifier_levelName n) 64 0

theorem wellFormed_level (n : Nat) : (level n).WellFormed where
  name := isIdentifier_levelName n
  bounded := by simp [level, TypeParameter.bounds]
  bounds := by simpa [level, TypeParameter.bounds] using isPlain_levelBound n

theorem wellFormed_towerMethod (n : Nat) : (towerMethod n).WellFormed where
  typeParameters := by
    change ∀ p ∈ tower n, p.WellFormed
    induction n with
    | zero => simpa [tower] using wellFormed_level 0
    | succ n ih => simpa [tower] using ⟨wellFormed_level (n + 1), ih⟩
  parameters := by
    simpa [towerMethod, levelBound] using
      ⟨(isPlain_levelBound (n + 1)).1, (isPlain_levelBound n).1⟩
  result := nofun
  thrown := nofun

theorem parse_towerMethod (n : Nat) :
    MethodSignature.parse (toString (towerMethod n)) = .ok (towerMethod n) :=
  Signature.parse_of_chars rfl (Signature.methodSignature_chars (wellFormed_towerMethod n))

theorem erase_variable_eq_erase_firstBound_tower :
    MethodSignature.parse (toString (towerMethod 64)) = .ok (towerMethod 64) ∧
    (towerMethod 64).erase (.exactly (.variable (levelName 63))) =
      (towerMethod 64).erase (levelBound 63) ∧
    (towerMethod 64).erase (.exactly (.variable (levelName 64))) = .root ∧
    (towerMethod 64).erase (levelBound 64) = .object ⟨"p/N"⟩ := by
  have hparse := parse_towerMethod 64
  obtain ⟨high, hhigh, -, hcut⟩ := erase_variable_eq_erase_firstBound hparse
    (find?_towerMethod (Nat.le_refl 64))
  obtain ⟨low, hlow, hsame, -⟩ := erase_variable_eq_erase_firstBound hparse
    (find?_towerMethod (n := 63) (by decide))
  obtain rfl := Option.some.inj (hhigh.symm.trans (head?_bounds_level 64))
  obtain rfl := Option.some.inj (hlow.symm.trans (head?_bounds_level 63))
  refine ⟨hparse, hsame (fun _ _ => rfl) fun last hlast => ?_, ?_⟩
  · obtain ⟨hsteps, -⟩ := hlast.unique (endsAfter_tower (by decide))
    cases hsteps
  · exact hcut (levelBound 0) _ (endsAfter_tower (Nat.le_refl 64)) rfl

def arrayBound (n : Fin 256) : GenericType := ⟨.invariant, n, .variable "U"⟩

def arrayParameter (n : Fin 256) : TypeParameter := ⟨"T", some (arrayBound n), []⟩

def arrayBounded (n : Fin 256) : MethodSignature :=
  ⟨[⟨"U", some (levelBound 0), []⟩, arrayParameter n], [.exactly (.variable "T"), arrayBound n],
    .void, []⟩

theorem wellFormed_arrayBounded (n : Fin 256) : (arrayBounded n).WellFormed := by
  have hU : IsIdentifier "U" := by decide
  have hT : IsIdentifier "T" := by decide
  have hbound := GenericType.isPlain_variable hU 64 n
  refine ⟨?_, ?_, nofun, nofun⟩
  · simp only [arrayBounded, List.forall_mem_cons, List.not_mem_nil, false_implies, implies_true,
      and_true]
    refine ⟨⟨hU, by simp [TypeParameter.bounds], ?_⟩, ⟨hT, ?_, ?_⟩⟩
    · simpa [TypeParameter.bounds] using isPlain_levelBound 0
    · simp [TypeParameter.bounds, arrayParameter]
    · simpa [TypeParameter.bounds, arrayParameter, arrayBound] using hbound
  · simpa [arrayBounded, arrayBound, GenericType.exactly] using
      ⟨(GenericType.isPlain_variable hT 64 0).1, hbound.1⟩

/-- The limit on the steps can part a variable from its bound, and so can a bound that is an
array of a variable. -/
theorem erase_variable_ne_erase_firstBound :
    (MethodSignature.parse (toString (towerMethod 64)) = .ok (towerMethod 64) ∧
      (towerMethod 64).typeParameters.find? (·.name = levelName 64) = some (level 64) ∧
      (level 64).bounds.head? = some (levelBound 64) ∧
      (towerMethod 64).erase (.exactly (.variable (levelName 64))) ≠
        (towerMethod 64).erase (levelBound 64)) ∧
    ∃ m p bound, MethodSignature.parse "<U:Lp/N;T:[TU;>(TT;[TU;)V" = .ok m ∧
      m.typeParameters.find? (·.name = "T") = some p ∧ p.bounds.head? = some bound ∧
      m.erase (.exactly (.variable "T")) ≠ m.erase bound := by
  refine ⟨⟨parse_towerMethod 64, find?_towerMethod (Nat.le_refl 64), head?_bounds_level 64, ?_⟩,
    arrayBounded ⟨1, by decide⟩, _, _, ?_, rfl, rfl, ?_⟩
  · have hhigh : (towerMethod 64).erase (.exactly (.variable (levelName 64))) =
        (towerMethod 64).erasureOf (levelName 64) := (towerMethod 64).erase_of_bare rfl
    have hlow : (towerMethod 64).erase (levelBound 64) =
        (towerMethod 64).erasureOf (levelName 63) := (towerMethod 64).erase_of_bare rfl
    rw [hhigh, hlow, erasureOf_towerMethod (Nat.le_refl 64), erasureOf_towerMethod (by decide)]
    decide
  · exact Signature.parse_of_chars (by decide)
      (Signature.methodSignature_chars (wellFormed_arrayBounded _))
  · decide

end NullSafety
