import NullSafety.Proofs.LegalErasure

namespace NullSafety

/-- A class or a type variable, as the grammar has it behind a caret. -/
def GenericType.IsThrowable (t : GenericType) : Prop :=
  t.dimensions.val = 0 ∧ ((∃ c, t.element = .classType c) ∨ ∃ name, t.element = .variable name)

def ThrowsNoArray (u : List Char) : Prop := ¬ ['^', '['] <:+: u

instance (u : List Char) : Decidable (ThrowsNoArray u) := inferInstanceAs (Decidable (¬ _))

/-- A text that throws no array, whatever is written behind it. -/
structure Sealed (u : List Char) : Prop where
  throwsNoArray : ThrowsNoArray u
  last : u.getLast? ≠ some '^'

structure SealsName (u : List Char) : Prop where
  tail : Sealed u
  ne_nil : u ≠ []
  head : u.head? ≠ some '['

section

variable {u v : List Char}

theorem throwsNoArray_append :
    ThrowsNoArray (u ++ v) ↔
      ThrowsNoArray u ∧ ThrowsNoArray v ∧ ¬ (u.getLast? = some '^' ∧ v.head? = some '[') := by
  have hpair : ['^', '['] <:+: u ++ v ↔ ['^', '['] <:+: u ∨ ['^', '['] <:+: v ∨
      u.getLast? = some '^' ∧ v.head? = some '[' := by
    induction u with
    | nil => simp
    | cons a u ih =>
      rw [List.cons_append, List.infix_cons_iff, List.infix_cons_iff, ih]
      cases u with
      | nil =>
        cases v with
        | nil => simp
        | cons b v =>
          have heq : '^' = a ∧ '[' = b ↔ a = '^' ∧ b = '[' := and_congr eq_comm eq_comm
          simp [heq, or_comm]
      | cons b u => simp [List.getLast?_cons_cons, or_assoc]
  simp only [ThrowsNoArray, hpair, not_or]

theorem ThrowsNoArray.of_notMem (hu : '[' ∉ u) : ThrowsNoArray u := by
  rintro ⟨s, t, rfl⟩
  apply hu
  simp

namespace Sealed

theorem of_notMem (hu : '^' ∉ u) : Sealed u where
  throwsNoArray := by
    rintro ⟨s, t, rfl⟩
    apply hu
    simp
  last h := hu (List.mem_of_getLast? h)

theorem throwsNoArray_append_iff (hu : Sealed u) : ThrowsNoArray (u ++ v) ↔ ThrowsNoArray v := by
  rw [throwsNoArray_append]
  exact ⟨fun h => h.2.1, fun hv => ⟨hu.throwsNoArray, hv, fun h => hu.last h.1⟩⟩

theorem append (hu : Sealed u) (hv : Sealed v) : Sealed (u ++ v) where
  throwsNoArray := hu.throwsNoArray_append_iff.mpr hv.throwsNoArray
  last := getLast?_append_ne hu.last hv.last

theorem cons {c : Char} (hc : c ≠ '^') (hu : Sealed u) : Sealed (c :: u) :=
  append (of_notMem (u := [c]) (by simpa using Ne.symm hc)) hu

theorem flatMap {α : Type} {f : α → List Char} {xs : List α} (h : ∀ x ∈ xs, Sealed (f x)) :
    Sealed (xs.flatMap f) := by
  induction xs with
  | nil => exact of_notMem (by simp)
  | cons x xs ih =>
    rw [List.forall_mem_cons] at h
    rw [List.flatMap_cons]
    exact h.1.append (ih h.2)

end Sealed

namespace SealsName

theorem cons {c : Char} (hcaret : c ≠ '^') (hbracket : c ≠ '[') (hu : Sealed u) :
    SealsName (c :: u) where
  tail := hu.cons hcaret
  ne_nil := by simp
  head := by simpa using hbracket

/-- A name may end with a caret, but no bracket follows it. -/
theorem sealed_append (hv : SealsName v) (hu : '[' ∉ u) : Sealed (u ++ v) where
  throwsNoArray := by
    rw [throwsNoArray_append]
    exact ⟨.of_notMem hu, hv.tail.throwsNoArray, fun h => hv.head h.2⟩
  last := by
    obtain ⟨c, v, rfl⟩ := List.exists_cons_of_ne_nil hv.ne_nil
    rw [List.getLast?_append, List.getLast?_cons, Option.some_or, ← List.getLast?_cons]
    exact hv.tail.last

end SealsName

end

theorem IsIdentifier.notMem_bracket {name : String} (h : IsIdentifier name) :
    '[' ∉ name.toList := fun hmem => h.2 '[' hmem (by decide)

section

open GenericType (AllFit argumentsChars)

variable {limit : Nat} (hargs : ∀ as, AllFit limit as → Sealed (argumentsChars as))

include hargs

theorem Segment.sealed_append {s : Segment} {v : List Char} (hv : SealsName v)
    (hname : '[' ∉ s.name.toList) (has : AllFit limit s.arguments) : Sealed (s.chars ++ v) := by
  rw [chars_eq, List.append_assoc]
  refine SealsName.sealed_append ⟨(hargs _ has).append hv.tail, ?_, ?_⟩ hname
  · exact List.append_ne_nil_of_right_ne_nil _ hv.ne_nil
  · rw [Signature.head?_argumentsChars_append]
    split
    · exact hv.head
    · simp

theorem ClassType.sealed_of_fits {c : ClassType} (hc : c.Fits limit) : Sealed c.chars := by
  obtain ⟨_ | ⟨outer, inner⟩⟩ := c
  · cases hc.1
  obtain ⟨hpath, has, hinner⟩ := fits_iff.mp hc
  have hend : SealsName (inner.flatMap ('.' :: ·.chars) ++ [';']) := by
    clear hc
    induction inner with
    | nil => exact .cons (by decide) (by decide) (.of_notMem (by simp))
    | cons s inner ih =>
      rw [List.forall_mem_cons] at hinner
      have hs := Segment.sealed_append hargs (ih hinner.2) hinner.1.1.notMem_bracket hinner.1.2
      simpa [List.flatMap_cons] using SealsName.cons (by decide) (by decide) hs
  have hname : '[' ∉ outer.name.toList := hpath.notMem (by decide) (by decide)
  rw [chars_eq]
  exact (Segment.sealed_append hargs hend hname has).cons (by decide)

theorem Element.sealed_of_fits {e : Element} (he : e.Fits limit) : Sealed e.chars := by
  obtain p | c | name := e
  · rw [chars]
    exact .of_notMem (by cases p <;> decide)
  · rw [chars]
    exact ClassType.sealed_of_fits hargs (fits_classType.mp he)
  · have hsemi : SealsName [';'] := .cons (by decide) (by decide) (.of_notMem (by simp))
    rw [chars, List.cons_append]
    exact (hsemi.sealed_append (fits_variable.mp he).notMem_bracket).cons (by decide)

theorem GenericType.sealed_of_isPlain {t : GenericType} (ht : t.IsPlain limit) :
    Sealed t.chars := by
  rw [chars_of_invariant ht.variance]
  have hbrackets : '^' ∉ List.replicate t.dimensions.val '[' := by
    simp [List.mem_replicate]
  exact (Sealed.of_notMem hbrackets).append (Element.sealed_of_fits hargs (isPlain_iff.mp ht).2)

end

namespace GenericType

/-- The induction is on how often argument lists may stand inside each other. -/
theorem sealed_argumentsChars {limit : Nat} {as : List GenericType} (has : AllFit limit as) :
    Sealed (argumentsChars as) := by
  induction limit generalizing as with
  | zero =>
    rw [allFit_zero.mp has]
    exact .of_notMem (by simp [argumentsChars])
  | succ limit ih =>
    have hsealed (a : GenericType) (ha : a ∈ as) : Sealed a.chars := by
      obtain rfl | ⟨p, v, hp, -, hv, rfl⟩ := isArgument_iff.mp (allFit_succ.mp has a ha)
      · rw [chars_anything]
        exact .of_notMem (by decide)
      · rw [chars_withVariance hp.variance hv]
        refine Sealed.append (.of_notMem ?_) (sealed_of_isPlain (fun _ => ih) hp)
        cases v <;> decide
    unfold argumentsChars
    split
    · exact .of_notMem (by simp)
    · exact ((Sealed.flatMap hsealed).append (.of_notMem (by decide))).cons (by decide)

theorem IsPlain.sealed {limit : Nat} {t : GenericType} (ht : t.IsPlain limit) : Sealed t.chars :=
  sealed_of_isPlain (fun _ => sealed_argumentsChars) ht

theorem head?_chars_eq_bracket {t : GenericType} (ht : t.variance = .invariant) :
    t.chars.head? = some '[' ↔ t.dimensions.val ≠ 0 := by
  have helement := t.element.head?_chars_append []
  rw [List.append_nil] at helement
  rw [chars_of_invariant ht]
  cases t.dimensions.val with
  | zero => simpa using helement
  | succ n => simp [List.replicate_succ]

theorem IsReference.isThrowable_iff {t : GenericType} (ht : t.IsReference) :
    t.IsThrowable ↔ t.dimensions.val = 0 := by
  refine and_iff_left_of_imp fun hflat => ?_
  cases helement : t.element with
  | primitive p => exact absurd hflat (ht p helement)
  | classType c => exact .inl ⟨c, rfl⟩
  | _ name => exact .inr ⟨name, rfl⟩

end GenericType

theorem TypeParameter.WellFormed.sealed {p : TypeParameter} (hp : p.WellFormed) :
    Sealed p.chars := by
  have hbounds (t : GenericType) (ht : t ∈ p.bounds) : Sealed t.chars := (hp.bounds t ht).1.sealed
  have hclass : Sealed ((p.classBound.map GenericType.chars).getD []) := by
    cases hbound : p.classBound with
    | none => exact .of_notMem (by simp)
    | some t => exact hbounds t (by simp [TypeParameter.bounds, hbound])
  have hinterfaces : Sealed (p.interfaceBounds.flatMap (':' :: ·.chars)) := by
    apply Sealed.flatMap
    intro t ht
    exact (hbounds t (by simp [TypeParameter.bounds, ht])).cons (by decide)
  have hrest := SealsName.cons (c := ':') (by decide) (by decide) (hclass.append hinterfaces)
  rw [TypeParameter.chars, List.append_assoc, List.cons_append]
  exact hrest.sealed_append hp.name.notMem_bracket

theorem TypeParameter.sealed_listChars {ps : List TypeParameter} (hps : ∀ p ∈ ps, p.WellFormed) :
    Sealed (listChars ps) := by
  unfold listChars
  split
  · exact .of_notMem (by simp)
  · refine Sealed.cons (by decide) (Sealed.append ?_ (.of_notMem (by decide)))
    exact Sealed.flatMap fun p hp => (hps p hp).sealed

/-- Behind carets, a text throws no array if no type in it is one. -/
theorem throwsNoArray_thrown {ts : List GenericType} (hts : ∀ t ∈ ts, t.IsPlain 64) :
    ThrowsNoArray (ts.flatMap ('^' :: ·.chars)) ↔ ∀ t ∈ ts, t.dimensions.val = 0 := by
  induction ts with
  | nil => simp [ThrowsNoArray]
  | cons t ts ih =>
    rw [List.forall_mem_cons] at hts
    have hsealed := hts.1.sealed
    have hlast : ('^' :: t.chars).getLast? ≠ some '^' := by
      obtain ⟨c, u, hchars, -⟩ := t.exists_chars
      rw [hchars, List.getLast?_cons_cons, ← hchars]
      exact hsealed.last
    have hfirst : ThrowsNoArray ('^' :: t.chars) ↔ t.dimensions.val = 0 := by
      have hcaret : ThrowsNoArray ['^'] := .of_notMem (by decide)
      rw [← List.singleton_append, throwsNoArray_append, List.getLast?_singleton,
        GenericType.head?_chars_eq_bracket hts.1.variance]
      simp [hcaret, hsealed.throwsNoArray]
    rw [List.flatMap_cons, throwsNoArray_append, hfirst, ih hts.2, List.forall_mem_cons]
    simp [hlast]

theorem MethodSignature.WellFormed.throwsNoArray_iff {m : MethodSignature} (hm : m.WellFormed) :
    ThrowsNoArray m.chars ↔ ∀ t ∈ m.thrown, t.dimensions.val = 0 := by
  have hparameters : Sealed (m.parameters.flatMap GenericType.chars) :=
    Sealed.flatMap fun t ht => (hm.parameters t ht).sealed
  have hresult : Sealed m.result.chars := by
    cases hr : m.result with
    | void => exact .of_notMem (by decide)
    | value t => exact (hm.result t hr).sealed
  have hfront := (TypeParameter.sealed_listChars hm.typeParameters).append
    ((hparameters.append (hresult.cons (c := ')') (by decide))).cons (c := '(') (by decide))
  have htext : m.chars = (TypeParameter.listChars m.typeParameters ++
      '(' :: (m.parameters.flatMap GenericType.chars ++ ')' :: m.result.chars)) ++
        m.thrown.flatMap ('^' :: ·.chars) := by
    simp [MethodSignature.chars]
  rw [htext, hfront.throwsNoArray_append_iff]
  exact throwsNoArray_thrown fun t ht => (hm.thrown t ht).1

namespace Signature

/-- What is thrown is a class, a type variable or an array, and arrays are thrown by the texts
with a bracket behind a caret. -/
theorem thrown_isThrowable_iff {s : String} {m : MethodSignature}
    (h : MethodSignature.parse s = .ok m) :
    (∀ t ∈ m.thrown, t.IsThrowable ∨ 0 < t.dimensions.val) ∧
      ((∀ t ∈ m.thrown, t.IsThrowable) ↔ ThrowsNoArray s.toList) := by
  obtain ⟨hm, hs⟩ := written_of_parse methodSignature_reads h
  have hflat (t : GenericType) (ht : t ∈ m.thrown) : t.IsThrowable ↔ t.dimensions.val = 0 :=
    (hm.thrown t ht).2.isThrowable_iff
  constructor
  · intro t ht
    rw [hflat t ht]
    exact Nat.eq_zero_or_pos _
  · rw [← hs, String.toList_ofList, hm.throwsNoArray_iff]
    exact forall₂_congr hflat

def arrayThrower (n : Fin 256) : MethodSignature :=
  ⟨[], [], .void, [⟨.invariant, n, .primitive .int⟩]⟩

theorem wellFormed_arrayThrower {n : Fin 256} (hn : n.val ≠ 0) : (arrayThrower n).WellFormed where
  typeParameters := by simp [arrayThrower]
  parameters := by simp [arrayThrower]
  result := by simp [arrayThrower]
  thrown := by
    intro t ht
    rw [List.mem_singleton.mp ht]
    refine ⟨⟨rfl, .primitive _, ?_⟩, fun _ _ => hn⟩
    simp [GenericType.nesting, Element.nesting]

theorem parse_arrayThrower :
    MethodSignature.parse "()V^[I" = .ok (arrayThrower ⟨1, by decide⟩) := by
  apply parse_of_chars (u := (arrayThrower ⟨1, by decide⟩).chars) (by decide)
  exact methodSignature_chars (wellFormed_arrayThrower (by decide))

theorem thrown_isThrowable_iff_entry :
    (∀ t ∈ entryMethod.thrown, t.IsThrowable) ∧
      ¬ ∀ t ∈ (arrayThrower ⟨1, by decide⟩).thrown, t.IsThrowable := by
  constructor
  · exact (thrown_isThrowable_iff parse_entryMethod).2.mpr (by decide +kernel)
  · exact mt (thrown_isThrowable_iff parse_arrayThrower).2.mp (by decide +kernel)

/-- An array is accepted behind a caret. -/
theorem thrown_not_isThrowable :
    ∃ m, MethodSignature.parse "()V^[I" = .ok m ∧
      ∃ t ∈ m.thrown, t.dimensions.val ≠ 0 ∧ ¬ t.IsThrowable := by
  refine ⟨_, parse_arrayThrower, _, List.mem_cons_self, by decide, fun h => ?_⟩
  exact absurd h.1 (by decide)

end Signature

end NullSafety
