import NullSafety.Proofs.WellFormed
import NullSafety.Signature.Printer

namespace NullSafety

theorem Primitive.eq_letter_of_ofLetter? {c : Char} {p : Primitive} (h : ofLetter? c = some p) :
    c = p.letter := by
  unfold ofLetter? at h
  split at h <;> cases h <;> rfl

namespace GenericType

theorem listChars_eq (as : List GenericType) : listChars as = as.flatMap chars := by
  induction as with
  | nil => simp [listChars]
  | cons a as ih => simp [listChars, ih]

def argumentsChars (as : List GenericType) : List Char :=
  if as = [] then [] else '<' :: as.flatMap chars ++ ['>']

theorem chars_anything : anything.chars = ['*'] := by
  simp [anything, chars]

theorem chars_of_bounded {t : GenericType} (h : t.variance ≠ .unbounded) :
    t.chars = t.variance.mark?.toList ++ List.replicate t.dimensions '[' ++ t.element.chars := by
  cases t
  simp_all [chars]

theorem chars_of_invariant {t : GenericType} (h : t.variance = .invariant) :
    t.chars = List.replicate t.dimensions '[' ++ t.element.chars := by
  rw [chars_of_bounded (by simp [h]), h]
  rfl

theorem chars_withVariance {t : GenericType} {v : Variance} (ht : t.variance = .invariant)
    (hv : v ≠ .unbounded) : (t.withVariance v).chars = v.mark?.toList ++ t.chars := by
  rw [chars_of_bounded hv, chars_of_invariant ht, List.append_assoc]
  rfl

end GenericType

theorem Segment.chars_eq (s : Segment) :
    s.chars = s.name.toList ++ GenericType.argumentsChars s.arguments := by
  cases s with
  | mk name as => cases as <;> simp [chars, GenericType.argumentsChars, GenericType.listChars_eq]

theorem Segment.innerChars_eq (ss : List Segment) :
    innerChars ss = ss.flatMap ('.' :: ·.chars) := by
  induction ss with
  | nil => simp [innerChars]
  | cons s ss ih => simp [innerChars, ih]

theorem ClassType.chars_eq (outer : Segment) (inner : List Segment) :
    chars ⟨outer :: inner⟩ =
      'L' :: (outer.chars ++ (inner.flatMap ('.' :: ·.chars) ++ [';'])) := by
  simp [chars, Segment.innerChars_eq]

theorem ClassType.exists_chars (c : ClassType) : ∃ u, c.chars = 'L' :: u := by
  obtain ⟨_ | ⟨s, ss⟩⟩ := c
  · exact ⟨[';'], by simp [chars]⟩
  · exact ⟨_, chars_eq s ss⟩

def elementStarts : List Char := ['L', 'T', 'Z', 'C', 'F', 'D', 'B', 'S', 'I', 'J']

def arrayStarts : List Char := '[' :: elementStarts

def typeStarts : List Char := '*' :: '+' :: '-' :: arrayStarts

theorem Element.exists_chars (e : Element) : ∃ c u, e.chars = c :: u ∧ c ∈ elementStarts := by
  obtain p | c | name := e
  · exact ⟨p.letter, [], by simp [chars], by cases p <;> decide⟩
  · obtain ⟨u, hu⟩ := c.exists_chars
    exact ⟨'L', u, by rw [chars, hu], by decide⟩
  · exact ⟨'T', name.toList ++ [';'], by simp [chars], by decide⟩

theorem Element.head?_chars_append (e : Element) (r : List Char) :
    (e.chars ++ r).head? ≠ some '[' := by
  obtain ⟨c, u, he, hc⟩ := e.exists_chars
  rw [he]
  rintro h
  cases h
  exact absurd hc (by decide)

theorem GenericType.exists_chars_of_invariant {t : GenericType} (h : t.variance = .invariant) :
    ∃ c u, t.chars = c :: u ∧ c ∈ arrayStarts := by
  obtain ⟨c, u, he, hc⟩ := t.element.exists_chars
  rw [chars_of_invariant h, he]
  cases t.dimensions.val with
  | zero => exact ⟨c, u, rfl, by simp [arrayStarts, hc]⟩
  | succ n => exact ⟨'[', _, rfl, by decide⟩

theorem GenericType.exists_chars (t : GenericType) : ∃ c u, t.chars = c :: u ∧ c ∈ typeStarts := by
  cases hv : t.variance with
  | invariant =>
    obtain ⟨c, u, ht, hc⟩ := exists_chars_of_invariant hv
    exact ⟨c, u, ht, by simp [typeStarts, hc]⟩
  | covariant =>
    rw [chars_of_bounded (by simp [hv]), hv]
    exact ⟨'+', _, rfl, by decide⟩
  | contravariant =>
    rw [chars_of_bounded (by simp [hv]), hv]
    exact ⟨'-', _, rfl, by decide⟩
  | unbounded =>
    cases t
    cases hv
    exact ⟨'*', [], by simp [chars], by decide⟩

theorem GenericType.head?_chars_append {c : Char} (hc : c ∉ typeStarts) (t : GenericType)
    (r : List Char) : (t.chars ++ r).head? ≠ some c := by
  obtain ⟨d, u, ht, hd⟩ := t.exists_chars
  rw [ht]
  rintro h
  cases h
  exact hc hd

theorem GenericType.inArrays?_eq {t : GenericType} {n : Nat} (h : t.dimensions.val + n < 256) :
    t.inArrays? n = some { t with dimensions := ⟨t.dimensions + n, h⟩ } := by
  induction n generalizing t with
  | zero => cases t; rfl
  | succ n ih =>
    have ht : t.dimensions.val + 1 < 256 := by omega
    rw [inArrays?, inArray?, dif_pos ht, Option.bind_some, ih (by dsimp only; omega)]
    simp only [Option.some.injEq, GenericType.mk.injEq, Fin.mk.injEq, true_and, and_true]
    omega

theorem GenericType.exactly_inArrays? (e : Element) (n : Fin 256) :
    (exactly e).inArrays? n = some ⟨.invariant, n, e⟩ := by
  rw [inArrays?_eq (by simp [exactly])]
  simp [exactly]

end NullSafety
