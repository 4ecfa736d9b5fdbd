import NullSafety.Proofs.Names
import NullSafety.Proofs.Printed

namespace NullSafety.Signature

open GenericType (AllFit argumentsChars)

theorem leadingBrackets_replicate (n : Nat) {t : List Char} (ht : t.head? ≠ some '[') :
    leadingBrackets (List.replicate n '[' ++ t) = n := by
  have hb : ∀ c ∈ List.replicate n '[', decide (c = '[') = true := by
    intro c hc
    simp [List.eq_of_mem_replicate hc]
  have hnil : t.takeWhile (· = '[') = [] := by
    cases t with
    | nil => rfl
    | cons c t => simp_all
  rw [leadingBrackets, List.takeWhile_append_of_pos hb, hnil]
  simp

theorem exists_brackets (s : List Char) :
    ∃ n t, s = List.replicate n '[' ++ t ∧ t.head? ≠ some '[' := by
  induction s with
  | nil => exact ⟨0, [], rfl, by simp⟩
  | cons c s ih =>
    by_cases hc : c = '['
    · obtain ⟨n, t, rfl, ht⟩ := ih
      exact ⟨n + 1, t, by rw [hc]; rfl, ht⟩
    · exact ⟨0, c :: s, rfl, by simpa using hc⟩

theorem dimensions_of_ne {n : Fin 256} {t : List Char} (ht : t.head? ≠ some '[') :
    dimensions (List.replicate n '[' ++ t) = .ok (n, t) := by
  have hn := leadingBrackets_replicate n.val ht
  have hlt : leadingBrackets (List.replicate n.val '[' ++ t) < 256 := by omega
  rw [dimensions, dif_pos hlt]
  simp [hn]

theorem dimensions_of_eq {t : List Char} (ht : t.head? = some '[') :
    dimensions (List.replicate 255 '[' ++ t) = .error ⟨.tooManyDimensions, t⟩ := by
  obtain ⟨n, r, rfl, hr⟩ := exists_brackets t
  have hn := leadingBrackets_replicate (255 + n) hr
  have hpos : n ≠ 0 := by
    rintro rfl
    exact hr ht
  rw [← List.append_assoc, List.replicate_append_replicate, dimensions, dif_neg (by omega),
    List.drop_append_of_le_length (by simp), List.drop_replicate]
  simp

/-- A text has a readable number of brackets in front, or it has one bracket too many. -/
theorem exists_dimensions (s : List Char) :
    (∃ (n : Fin 256) (t : List Char), s = List.replicate n '[' ++ t ∧ t.head? ≠ some '[') ∨
      ∃ t, s = List.replicate 255 '[' ++ t ∧ t.head? = some '[' := by
  obtain ⟨n, r, rfl, hr⟩ := exists_brackets s
  by_cases hn : n < 256
  · exact .inl ⟨⟨n, hn⟩, r, rfl, hr⟩
  · refine .inr ⟨'[' :: (List.replicate (n - 256) '[' ++ r), ?_, rfl⟩
    rw [← List.cons_append, ← List.replicate_succ, ← List.append_assoc,
      List.replicate_append_replicate]
    congr 2
    omega

theorem head?_of_dimensions {s r : List Char} {n : Fin 256} (h : dimensions s = .ok (n, r)) :
    r.head? ≠ some '[' := by
  obtain ⟨m, t, rfl, ht⟩ | ⟨t, rfl, ht⟩ := exists_dimensions s
  · cases (dimensions_of_ne ht).symm.trans h
    exact ht
  · cases (dimensions_of_eq ht).symm.trans h

/-- The number is positive if the text begins with a bracket. -/
theorem dimensions_readsAt (s : List Char) :
    ReadsAt dimensions
      (Written (fun n => s.head? = some '[' → n.val ≠ 0) (fun n => List.replicate n '[')) s := by
  obtain ⟨n, r, rfl, hr⟩ | ⟨r, rfl, hr⟩ := exists_dimensions s
  · refine ⟨fun h => ?_, fun h => ?_⟩
    · cases (dimensions_of_ne hr).symm.trans h
      refine ⟨_, rfl, ⟨?_, rfl⟩, fun t ht => dimensions_of_ne (ht ▸ hr)⟩
      rintro hb hz
      rw [hz] at hb
      exact hr hb
    · cases (dimensions_of_ne hr).symm.trans h
  -- the fault stands right in front of the first bracket too many
  · refine ⟨fun h => ?_, fun h => ?_⟩
    · cases (dimensions_of_eq hr).symm.trans h
    · cases (dimensions_of_eq hr).symm.trans h
      exact ⟨_, rfl, ⟨255, [], fun _ => by decide, List.append_nil _⟩,
        fun t ht => dimensions_of_eq (ht.trans hr)⟩

/-- The element is never wrapped too often. -/
theorem type_read_of_ne (arguments : Reader Fault (List GenericType)) (n : Fin 256)
    {t : List Char} (ht : t.head? ≠ some '[') :
    (type arguments).read (List.replicate n '[' ++ t) =
      ((element arguments).read t >>= fun x => .ok (⟨.invariant, n, x.1⟩, x.2)) := by
  refine (ok_bind (dimensions_of_ne ht)).trans ?_
  simp only [GenericType.exactly_inArrays?]

theorem type_read_of_eq (arguments : Reader Fault (List GenericType)) {t : List Char}
    (ht : t.head? = some '[') :
    (type arguments).read (List.replicate 255 '[' ++ t) = .error ⟨.tooManyDimensions, t⟩ :=
  error_bind (dimensions_of_eq ht)

theorem typeVariable_reads :
    Reads typeVariable.read (Written IsIdentifier fun name => 'T' :: (name.toList ++ [';'])) := by
  refine Reads.expect_bind (identifier_reads.bind ?_)
  rintro name u ⟨hn, rfl⟩
  exact Reads.expect_bind (Reads.pure ⟨hn, rfl⟩)

theorem written_plain {room : Nat} {e : Element} (he : e.Fits room) (n : Fin 256) :
    Written (GenericType.IsPlain room) GenericType.chars ⟨.invariant, n, e⟩
      (List.replicate n '[' ++ e.chars) := by
  refine ⟨GenericType.isPlain_iff.mpr ⟨rfl, he⟩, ?_⟩
  rw [GenericType.chars_of_invariant rfl]

section

variable {arguments : Reader Fault (List GenericType)} {room : Nat}
  (hargs : Reads (arguments.ifAt '<') (Written (AllFit room) argumentsChars))

include hargs

theorem innerSegment_reads :
    Reads (innerSegment arguments).read
      (Written (fun s => IsIdentifier s.name ∧ AllFit room s.arguments) Segment.chars) := by
  refine identifier_reads.bind ?_
  rintro name u ⟨hn, rfl⟩
  refine hargs.bind ?_
  rintro as v ⟨has, rfl⟩
  refine Reads.pure ⟨⟨hn, has⟩, ?_⟩
  rw [Segment.chars_eq, List.append_nil]

theorem classType_reads :
    Reads (classType arguments).read (Written (ClassType.Fits room) ClassType.chars) := by
  refine Reads.expect_bind (classPath_reads.bind ?_)
  rintro name u ⟨hn, rfl⟩
  refine hargs.bind ?_
  rintro as v ⟨has, rfl⟩
  refine ((innerSegment_reads hargs).eachAfter '.').bind ?_
  rintro inner w ⟨hi, rfl⟩
  refine Reads.expect_bind (Reads.pure ⟨ClassType.fits_iff.mpr ⟨hn, has, hi⟩, ?_⟩)
  simp [ClassType.chars_eq, Segment.chars_eq]

theorem referenceElement_reads :
    Reads (referenceElement arguments).read
      (Written (fun e => (∀ p, e ≠ .primitive p) ∧ e.Fits room) Element.chars) := by
  have hclass : Reads (fun t => (classType arguments).read t >>= fun x =>
      .ok (Element.classType x.1, x.2))
      (Written (fun e => (∀ p, e ≠ .primitive p) ∧ e.Fits room) Element.chars) := by
    refine (classType_reads hargs).map Element.classType ?_
    rintro c u ⟨hc, rfl⟩
    exact ⟨⟨by simp, Element.fits_classType.mpr hc⟩, by rw [Element.chars]⟩
  have hvariable : Reads (fun t => typeVariable.read t >>= fun x =>
      .ok (Element.variable x.1, x.2))
      (Written (fun e => (∀ p, e ≠ .primitive p) ∧ e.Fits room) Element.chars) := by
    refine typeVariable_reads.map Element.variable ?_
    rintro name u ⟨hn, rfl⟩
    exact ⟨⟨by simp, Element.fits_variable.mpr hn⟩, by simp [Element.chars]⟩
  apply Reads.of_head
  intro o
  by_cases hL : o = some 'L'
  · refine ⟨_, hclass, fun t ht => ?_⟩
    simp only [referenceElement, ht, hL]
    rfl
  by_cases hT : o = some 'T'
  · refine ⟨_, hvariable, fun t ht => ?_⟩
    simp only [referenceElement, ht, hT]
    rfl
  · refine ⟨_, Reads.fail_unexpected hclass.spelled, fun t ht => ?_⟩
    simp only [referenceElement, ht]

theorem element_reads :
    Reads (element arguments).read (Written (Element.Fits room) Element.chars) := by
  apply Reads.of_head
  intro o
  cases ho : o.bind Primitive.ofLetter? with
  | none =>
    refine ⟨_, (referenceElement_reads hargs).mono (fun e u h => ⟨h.1.2, h.2⟩), fun t ht => ?_⟩
    simp [element, ht, ho]
  | some p =>
    have hp : Written (Element.Fits room) Element.chars (.primitive p) [p.letter] :=
      ⟨Element.fits_primitive room p, by simp [Element.chars]⟩
    obtain ⟨c, rfl, hc⟩ := Option.bind_eq_some_iff.mp ho
    obtain rfl := Primitive.eq_letter_of_ofLetter? hc
    exact Reads.after p.letter (Reads.pure hp) (fun t => by simp [element])

theorem type_readsAt (s : List Char) :
    ReadsAt (type arguments).read
      (Written (fun t => (s.head? = some '[' → t.dimensions.val ≠ 0) ∧ t.IsPlain room)
        GenericType.chars) s := by
  refine (dimensions_readsAt s).bind ?_ ?_
  · rintro n u ⟨hn, rfl⟩
    obtain ⟨e, v, he, rfl⟩ := (element_reads hargs).spelled
    have ht := written_plain he n
    exact ⟨⟨.invariant, n, e⟩, e.chars, ⟨hn, ht.1⟩, ht.2⟩
  · rintro n u r - ⟨hn, rfl⟩
    refine ((element_reads hargs).bind ?_).reads r
    rintro e v ⟨he, rfl⟩
    have ht := written_plain he n
    simp only [GenericType.exactly_inArrays?]
    refine Reads.pure ⟨⟨hn, ht.1⟩, ?_⟩
    rw [List.append_nil]
    exact ht.2

theorem type_reads :
    Reads (type arguments).read (Written (GenericType.IsPlain room) GenericType.chars) where
  spelled := by
    obtain ⟨e, v, he, rfl⟩ := (element_reads hargs).spelled
    exact ⟨⟨.invariant, 0, e⟩, _, written_plain he 0⟩
  reads s := (type_readsAt hargs s).mono fun t u h => ⟨h.1.2, h.2⟩

theorem reference_reads :
    Reads (reference arguments).read
      (Written (fun t => t.IsPlain room ∧ t.IsReference) GenericType.chars) := by
  have helement : Reads (fun t => (referenceElement arguments).read t >>= fun x =>
      .ok (GenericType.exactly x.1, x.2))
      (Written (fun t => t.IsPlain room ∧ t.IsReference) GenericType.chars) := by
    refine (referenceElement_reads hargs).map GenericType.exactly ?_
    rintro e u ⟨⟨hp, he⟩, rfl⟩
    have ht := written_plain he 0
    exact ⟨⟨ht.1, fun p h => absurd h (hp p)⟩, ht.2⟩
  refine ⟨helement.spelled, fun s => ?_⟩
  by_cases hs : s.head? = some '['
  · refine ReadsAt.congr (fun t ht => if_pos (ht.trans hs)) ((type_readsAt hargs s).mono ?_)
    rintro t u ⟨⟨hd, ht⟩, rfl⟩
    exact ⟨⟨ht, fun _ _ => hd hs⟩, rfl⟩
  · exact ReadsAt.congr (fun t ht => if_neg (ht ▸ hs)) (helement.reads s)

theorem marked_reads {v : Variance} (hv : v ≠ .unbounded) :
    Reads (fun s => (reference arguments).read s >>= fun x => .ok (x.1.withVariance v, x.2))
      (fun t u => Written (fun t => t.IsArgument ∧ t.nesting ≤ room) GenericType.chars t
        (v.mark?.toList ++ u)) := by
  refine (reference_reads hargs).map (·.withVariance v) ?_
  rintro t u ⟨⟨ht, hr⟩, rfl⟩
  refine ⟨GenericType.isArgument_iff.mpr (.inr ⟨t, v, ht, hr, hv, rfl⟩), ?_⟩
  rw [GenericType.chars_withVariance ht.variance hv]

theorem argument_reads :
    Reads (argument arguments).read
      (Written (fun t => t.IsArgument ∧ t.nesting ≤ room) GenericType.chars) := by
  have hany : Written (fun t => t.IsArgument ∧ t.nesting ≤ room) GenericType.chars
      .anything ['*'] :=
    ⟨GenericType.isArgument_iff.mpr (.inl rfl), GenericType.chars_anything.symm⟩
  have hreference : Reads (reference arguments).read
      (Written (fun t => t.IsArgument ∧ t.nesting ≤ room) GenericType.chars) := by
    refine (reference_reads hargs).mono ?_
    rintro t u ⟨⟨ht, hr⟩, rfl⟩
    have ht' := ht.withVariance_eq.symm
    exact ⟨GenericType.isArgument_iff.mpr (.inr ⟨t, .invariant, ht, hr, by decide, ht'⟩), rfl⟩
  apply Reads.of_head
  intro o
  by_cases hstar : o = some '*'
  · subst o
    exact Reads.after '*' (Reads.pure hany) (fun t => rfl)
  by_cases hplus : o = some '+'
  · subst o
    exact Reads.after '+' (marked_reads hargs (v := .covariant) (by decide)) (fun t => rfl)
  by_cases hminus : o = some '-'
  · subst o
    exact Reads.after '-' (marked_reads hargs (v := .contravariant) (by decide)) (fun t => rfl)
  · refine ⟨_, hreference, fun t ht => ?_⟩
    simp only [argument, ht]

end

theorem argumentList_reads (room : Nat) :
    Reads ((argumentList room).ifAt '<') (Written (AllFit room) argumentsChars) := by
  induction room with
  | zero =>
    exact Reads.ifAt (Reads.fail (fun _ => .tooDeeplyNested)
      ⟨[], [], GenericType.allFit_nil 0, rfl⟩) ⟨GenericType.allFit_nil 0, rfl⟩ '<'
  | succ room ih =>
    refine Reads.ifAt ?_ ⟨GenericType.allFit_nil _, rfl⟩ '<'
    refine Reads.expect_bind (((argument_reads ih).someUpTo '>').mono ?_)
    rintro as u ⟨⟨hne, has⟩, rfl⟩
    refine ⟨GenericType.allFit_succ.mpr has, ?_⟩
    rw [argumentsChars, if_neg hne]
    rfl

end NullSafety.Signature
