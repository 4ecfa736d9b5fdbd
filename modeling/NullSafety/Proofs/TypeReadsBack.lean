import NullSafety.Proofs.TypeReads

namespace NullSafety.Signature

open GenericType (AllFit argumentsChars)

theorem typeVariable_readsBack :
    ReadsBack typeVariable.read IsIdentifier (fun name => 'T' :: (name.toList ++ [';']))
      (fun _ => True) := by
  rintro name hn r -
  have hends : EndsName (';' :: r) := endsName_cons.mpr (by decide)
  have hname := identifier_readsBack name hn (';' :: r) hends
  rw [List.cons_append, List.append_assoc]
  exact (ok_bind (expect_cons 'T' _)).trans ((ok_bind hname).trans (ok_bind (expect_cons ';' r)))

theorem head?_argumentsChars_append (as : List GenericType) (r : List Char) :
    (argumentsChars as ++ r).head? = if as = [] then r.head? else some '<' := by
  unfold argumentsChars
  split <;> rfl

/-- Arguments end the name in front of them. -/
theorem endsName_argumentsChars_append {r : List Char} (hr : EndsName r)
    (as : List GenericType) : EndsName (argumentsChars as ++ r) := by
  intro c hc
  rw [head?_argumentsChars_append] at hc
  split at hc
  · exact hr c hc
  · cases hc
    decide

section

variable {arguments : Reader Fault (List GenericType)} {room : Nat}
  (hargs : ReadsBack (arguments.ifAt '<') (AllFit room) argumentsChars (·.head? ≠ some '<'))

include hargs

theorem innerSegment_readsBack :
    ReadsBack (innerSegment arguments).read
      (fun s => IsIdentifier s.name ∧ AllFit room s.arguments) Segment.chars
      (fun r => EndsName r ∧ r.head? ≠ some '<') := by
  rintro ⟨name, as⟩ ⟨hn, has⟩ r ⟨hends, hr⟩
  have hname := identifier_readsBack name hn _ (endsName_argumentsChars_append hends as)
  rw [Segment.chars_eq, List.append_assoc]
  exact (ok_bind hname).trans (ok_bind (hargs as has r hr))

theorem classType_readsBack :
    ReadsBack (classType arguments).read (ClassType.Fits room) ClassType.chars
      (fun _ => True) := by
  rintro ⟨_ | ⟨⟨name, as⟩, inner⟩⟩ hc r -
  · cases hc.1
  obtain ⟨hn, has, hi⟩ := ClassType.fits_iff.mp hc
  have hdot (t : List Char) : EndsName ('.' :: t) ∧ ('.' :: t).head? ≠ some '<' :=
    ⟨endsName_cons.mpr (by decide), by simp⟩
  have hsemi : EndsName (';' :: r) ∧ (';' :: r).head? ≠ some '<' :=
    ⟨endsName_cons.mpr (by decide), by simp⟩
  have hinner := (innerSegment_readsBack hargs).eachAfter '.' hdot inner hi (';' :: r)
    ⟨hsemi, by simp⟩
  obtain ⟨c, t, hrest, hc, hslash, hlt⟩ : ∃ c t,
      inner.flatMap ('.' :: ·.chars) ++ ';' :: r = c :: t ∧
        c ∈ reserved ∧ c ≠ '/' ∧ c ≠ '<' := by
    cases inner with
    | nil => exact ⟨';', r, rfl, by decide⟩
    | cons s inner => exact ⟨'.', _, rfl, by decide⟩
  have hpath := classPath_readsBack name hn (argumentsChars as ++ c :: t)
    ⟨endsName_argumentsChars_append (endsName_cons.mpr hc) as, by
      rw [head?_argumentsChars_append]
      split <;> simp [hslash]⟩
  have has := hargs as has (c :: t) (by simpa using hlt)
  dsimp only at hinner
  rw [hrest] at hinner
  rw [ClassType.chars_eq, Segment.chars_eq]
  simp only [List.cons_append, List.append_assoc, List.nil_append, hrest]
  exact (ok_bind (expect_cons 'L' _)).trans ((ok_bind hpath).trans ((ok_bind has).trans
    ((ok_bind hinner).trans (ok_bind (expect_cons ';' r)))))

theorem referenceElement_readsBack :
    ReadsBack (referenceElement arguments).read
      (fun e => (∀ p, e ≠ .primitive p) ∧ e.Fits room) Element.chars (fun _ => True) := by
  rintro (p | c | name) ⟨hp, he⟩ r -
  · exact absurd rfl (hp p)
  · have hread := classType_readsBack hargs c (Element.fits_classType.mp he) r trivial
    obtain ⟨u, hu⟩ := c.exists_chars
    rw [hu] at hread
    rw [Element.chars, hu]
    exact ok_bind hread
  · have hread := typeVariable_readsBack name (Element.fits_variable.mp he) r trivial
    rw [Element.chars]
    exact ok_bind hread

theorem element_readsBack :
    ReadsBack (element arguments).read (Element.Fits room) Element.chars (fun _ => True) := by
  rintro (p | c | name) he r -
  · simp [element, Element.chars]
  · have hread := referenceElement_readsBack hargs (.classType c) ⟨by simp, he⟩ r trivial
    obtain ⟨u, hu⟩ := c.exists_chars
    rw [Element.chars, hu] at hread ⊢
    exact hread
  · have hread := referenceElement_readsBack hargs (.variable name) ⟨by simp, he⟩ r trivial
    rw [Element.chars] at hread ⊢
    exact hread

theorem type_readsBack :
    ReadsBack (type arguments).read (GenericType.IsPlain room) GenericType.chars
      (fun _ => True) := by
  rintro ⟨v, n, e⟩ ht r -
  obtain ⟨rfl, he⟩ := GenericType.isPlain_iff.mp ht
  have hdims := dimensions_of_ne (n := n) (e.head?_chars_append r)
  have helement := element_readsBack hargs e he r trivial
  rw [GenericType.chars_of_invariant rfl, List.append_assoc]
  refine (ok_bind hdims).trans ((ok_bind helement).trans ?_)
  simp only [GenericType.exactly_inArrays?]

theorem reference_readsBack :
    ReadsBack (reference arguments).read (fun t => t.IsPlain room ∧ t.IsReference)
      GenericType.chars (fun _ => True) := by
  rintro ⟨v, n, e⟩ ⟨ht, href⟩ r -
  obtain ⟨rfl, he⟩ := GenericType.isPlain_iff.mp ht
  have hchars := GenericType.chars_of_invariant (t := ⟨.invariant, n, e⟩) rfl
  by_cases hn : n = 0
  · subst hn
    have hread := referenceElement_readsBack hargs e
      ⟨fun p hp => href p hp rfl, he⟩ r trivial
    rw [hchars]
    exact (if_neg (e.head?_chars_append r)).trans (ok_bind hread)
  · have hhead : (List.replicate n.val '[' ++ e.chars ++ r).head? = some '[' := by
      have hval : n.val ≠ 0 := fun h => hn (Fin.ext h)
      rw [List.append_assoc, List.head?_append, List.head?_replicate, if_neg hval]
      rfl
    have hread := type_readsBack hargs _ ht r trivial
    rw [hchars] at hread ⊢
    exact (if_pos hhead).trans hread

theorem argument_readsBack :
    ReadsBack (argument arguments).read (fun t => t.IsArgument ∧ t.nesting ≤ room)
      GenericType.chars (fun _ => True) := by
  rintro t ht r -
  obtain rfl | ⟨p, v, hp, hr, hv, rfl⟩ := GenericType.isArgument_iff.mp ht
  · rw [GenericType.chars_anything]
    rfl
  have hread := reference_readsBack hargs p ⟨hp, hr⟩ r trivial
  rw [GenericType.chars_withVariance hp.variance hv]
  cases v with
  | invariant =>
    obtain ⟨c, u, hu, hc⟩ := GenericType.exists_chars_of_invariant hp.variance
    have hstar : c ≠ '*' := by rintro rfl; revert hc; decide
    have hplus : c ≠ '+' := by rintro rfl; revert hc; decide
    have hminus : c ≠ '-' := by rintro rfl; revert hc; decide
    rw [hu] at hread ⊢
    rw [hp.withVariance_eq, ← hread]
    simp [argument, Variance.mark?, hstar, hplus, hminus]
  | covariant => exact ok_bind hread
  | contravariant => exact ok_bind hread
  | unbounded => exact absurd rfl hv

end

theorem argumentList_readsBack (room : Nat) :
    ReadsBack ((argumentList room).ifAt '<') (AllFit room) argumentsChars
      (·.head? ≠ some '<') := by
  induction room with
  | zero =>
    intro as has r hr
    rw [GenericType.allFit_zero.mp has]
    exact if_neg hr
  | succ room ih =>
    intro as has r hr
    have hlist := (argument_readsBack ih).someUpTo '>' (fun _ => trivial)
      (fun _ _ _ => trivial) (fun a _ => GenericType.head?_chars_append (by decide) a)
    by_cases hne : as = []
    · subst hne
      exact if_neg hr
    · have hread := hlist as ⟨hne, GenericType.allFit_succ.mp has⟩ r trivial
      rw [argumentsChars, if_neg hne]
      exact (if_pos rfl).trans ((ok_bind (expect_cons '<' _)).trans hread)

end NullSafety.Signature
