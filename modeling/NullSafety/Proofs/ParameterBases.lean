import NullSafety.Proofs.BoundErasure
import NullSafety.Proofs.LegalErasure
import NullSafety.Proofs.ParameterSource

namespace NullSafety

theorem GenericType.exists_erased? {t : GenericType} (h : t.variableName? = none) :
    ∃ d, t.erased? = some d := by
  unfold variableName? at h
  unfold erased?
  split at h
  · cases h
  · rename_i p hp
    simp only [hp]
    exact ⟨_, rfl⟩
  · rename_i c hc
    simp only [hc]
    exact ⟨_, rfl⟩

/-- Only the dimensions of a type variable can go wrong, which are those in front of it and those
of its erasure. -/
theorem MethodSignature.WellFormed.valid_erase_iff {m : MethodSignature} (hm : m.WellFormed)
    {t : GenericType} (ht : t.element.WellFormed) :
    (m.erase t).Valid ↔ ∀ name, t.variableName? = some name →
      t.dimensions.val + (m.erasureOf name).dimensions ≤ 255 := by
  cases hname : t.variableName? with
  | some name =>
    simp only [erase, hname, Option.some.injEq, forall_eq']
    rw [ErasedType.valid_inArrays (hm.valid_erasureOf name), Nat.add_comm]
  | none =>
    obtain ⟨d, hd⟩ := GenericType.exists_erased? hname
    have hvalid := GenericType.valid_of_erased? ht hd
    simp [erase, hname, hd, hvalid]

namespace ParameterTypes

theorem exists_outcome_of_ofTexts {descriptor : String} {signature : Option String}
    {p : ParameterTypes} (h : ofTexts descriptor signature = .ok p) :
    ∃ m : MethodType, m.Valid ∧ Outcome m signature (.ok p) := by
  unfold ofTexts at h
  cases hm : MethodType.ofDescriptor descriptor with
  | error e =>
    rw [hm] at h
    cases h
  | ok m =>
    rw [hm] at h
    exact ⟨m, (MethodType.ofChars_eq_ok.mp hm).1, ofSignature_eq_iff.mp h⟩

/-- The base type of a parameter has a descriptor of its own, unless it is that of an array of a
type variable and has more dimensions than a descriptor can have. -/
theorem base_legal_iff {descriptor : String} {signature : Option String} {p : ParameterTypes}
    (hp : ofTexts descriptor signature = .ok p) {i : Nat} (hi : i < p.count) :
    ∃ t, p.get i = .ok t ∧
      (t.base.dimensions ≤ 255 ∧ ErasedType.ofDescriptor t.base.descriptor = .ok t.base ↔
        ∀ s g name, p.signature? = some s → s.parameters[i]? = some g →
          g.variableName? = some name →
          g.dimensions.val + (s.erasureOf name).dimensions ≤ 255) := by
  obtain ⟨t, ht⟩ := exists_get_iff.mpr hi
  refine ⟨t, ht, ?_⟩
  rw [get_eq_ok_iff] at ht
  have hlegal : t.base.dimensions ≤ 255 ∧ ErasedType.ofDescriptor t.base.descriptor = .ok t.base ↔
      t.base.Valid := by
    rw [ErasedType.ofDescriptor_descriptor]
    exact and_iff_right_of_imp And.left
  rw [hlegal]
  obtain ⟨m, hm, hchosen⟩ := exists_outcome_of_ofTexts hp
  cases hchosen with
  | absent =>
    obtain ⟨u, hu, rfl⟩ := Option.map_eq_some_iff.mp ht
    refine ⟨nofun, fun _ => ?_⟩
    exact hm.parameters u (List.mem_of_getElem? hu)
  | @agreeing text s parsed _ =>
    obtain ⟨g, hg, rfl⟩ := Option.map_eq_some_iff.mp ht
    have hs := (Signature.written_of_parse Signature.methodSignature_reads parsed).1
    rw [hs.valid_erase_iff (hs.parameters g (List.mem_of_getElem? hg)).element]
    constructor
    · intro h s' g' name hs' hg' hname
      cases hs'
      cases hg.symm.trans hg'
      exact h name hname
    · intro h name hname
      exact h s g name rfl hg hname

def stacked (k n : Fin 256) : MethodSignature :=
  ⟨[⟨"T", some ⟨.invariant, k, .classType (.raw "p/N")⟩, []⟩], [⟨.invariant, n, .variable "T"⟩],
    .void, []⟩

def stackedText (k n : Fin 256) : String :=
  "<T:" ++ String.ofList (List.replicate k '[') ++ "Lp/N;>(" ++
    String.ofList (List.replicate n '[') ++ "TT;)V"

theorem wellFormed_stacked (k n : Fin 256) : (stacked k n).WellFormed := by
  have hT : IsIdentifier "T" := by decide
  have hbound := GenericType.isPlain_raw isClassPath_lowest 64 k
  refine ⟨?_, ?_, nofun, nofun⟩
  · simp only [stacked, List.mem_singleton, forall_eq]
    exact ⟨hT, by simp [TypeParameter.bounds], by simpa [TypeParameter.bounds] using hbound⟩
  · simpa [stacked] using (GenericType.isPlain_variable hT 64 n).1

theorem parse_stackedText (k n : Fin 256) :
    MethodSignature.parse (stackedText k n) = .ok (stacked k n) := by
  refine Signature.parse_of_chars ?_ (Signature.methodSignature_chars (wellFormed_stacked k n))
  apply String.toList_injective
  simp [stackedText, stacked, MethodSignature.chars, TypeParameter.listChars,
    TypeParameter.chars, GenericType.chars, Element.chars, ClassType.raw, ClassType.chars,
    Segment.chars, Segment.innerChars, Return.chars, Variance.mark?]

theorem ofTexts_stackedText (k n : Fin 256) :
    ofTexts "([Lp/N;)V" (some (stackedText k n)) = .ok (generic (stacked k n)) := by
  have hdescriptor : MethodType.ofDescriptor "([Lp/N;)V" =
      .ok ⟨[.array (.object ⟨"p/N"⟩)], .void⟩ := by
    have hvalid := (ErasedType.valid_object (c := ⟨"p/N"⟩) ⟨by decide, by decide⟩).inArrays_of_flat
      rfl ⟨1, by decide⟩
    refine MethodType.ofChars_eq_ok.mpr ⟨⟨fun t ht => ?_, trivial⟩, by decide⟩
    rwa [List.mem_singleton.mp ht]
  rw [ofTexts, hdescriptor]
  exact (Outcome.agreeing (parse_stackedText k n) rfl).ofSignature_eq

theorem erasureOf_stacked (k n : Fin 256) :
    (stacked k n).erasureOf "T" = .inArrays (.object ⟨"p/N"⟩) k := by
  have bare : GenericType.bareVariable? ⟨.invariant, k, .classType (.raw "p/N")⟩ = none := by
    unfold GenericType.bareVariable?
    split <;> rfl
  exact MethodSignature.erasureOf_of_endsAfter (.here rfl bare) (by decide)

theorem base_legal_iff_stacked :
    ∃ t, (generic (stacked ⟨1, by decide⟩ ⟨254, by decide⟩)).get 0 = .ok t ∧
      t.base.dimensions ≤ 255 ∧ ErasedType.ofDescriptor t.base.descriptor = .ok t.base := by
  obtain ⟨t, ht, hlegal⟩ := base_legal_iff
    (ofTexts_stackedText ⟨1, by decide⟩ ⟨254, by decide⟩) (i := 0) (by decide)
  refine ⟨t, ht, hlegal.mpr fun s g name hs hg hname => ?_⟩
  cases hs
  cases hg
  cases hname
  rw [erasureOf_stacked]
  decide

/-- With 255 brackets in front of the variable there is one dimension too many. -/
theorem base_not_legal :
    ofTexts "([Lp/N;)V" (some (stackedText ⟨1, by decide⟩ ⟨255, by decide⟩)) =
      .ok (generic (stacked ⟨1, by decide⟩ ⟨255, by decide⟩)) ∧
    ∃ t, (generic (stacked ⟨1, by decide⟩ ⟨255, by decide⟩)).get 0 = .ok t ∧
      t.base.dimensions = 256 ∧ ErasedType.ofDescriptor t.base.descriptor ≠ .ok t.base := by
  have hdims : (ErasedType.inArrays (.array (.object ⟨"p/N"⟩)) 255).dimensions = 256 :=
    ErasedType.dimensions_inArrays _ 255
  refine ⟨ofTexts_stackedText _ _, ⟨.inArrays (.array (.object ⟨"p/N"⟩)) 255, []⟩, rfl, hdims, ?_⟩
  rw [ne_eq, ErasedType.ofDescriptor_descriptor]
  intro hvalid
  have hle := hvalid.1
  rw [hdims] at hle
  omega

end ParameterTypes

end NullSafety
