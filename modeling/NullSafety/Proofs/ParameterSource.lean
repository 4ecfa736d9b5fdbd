import NullSafety.ParameterTypes
import NullSafety.Proofs.RoundTrip

namespace NullSafety

namespace ParameterTypes

inductive Outcome (m : MethodType) : Option String → Except Error ParameterTypes → Prop
  | absent : Outcome m none (.ok (erased m.parameters))
  | malformed {text : String} {e : Malformed} (parsed : MethodSignature.parse text = .error e) :
      Outcome m (some text) (.error (.malformed e))
  | agreeing {text : String} {s : MethodSignature} (parsed : MethodSignature.parse text = .ok s)
      (count : s.parameters.length = m.parameters.length) : Outcome m (some text) (.ok (generic s))
  | differing {text : String} {s : MethodSignature} (parsed : MethodSignature.parse text = .ok s)
      (count : s.parameters.length ≠ m.parameters.length) :
      Outcome m (some text) (.error (.countMismatch s.parameters.length m.parameters.length))

section Choice

variable {m : MethodType} {signature : Option String} {r : Except Error ParameterTypes}

theorem Outcome.ofSignature_eq (h : Outcome m signature r) : ofSignature m signature = r := by
  cases h with
  | absent => rfl
  | malformed parsed =>
    rw [ofSignature, parsed]
    rfl
  | agreeing parsed count =>
    rw [ofSignature, parsed]
    exact if_pos count
  | differing parsed count =>
    rw [ofSignature, parsed]
    exact if_neg count

theorem exists_outcome (m : MethodType) (signature : Option String) :
    ∃ r, Outcome m signature r := by
  cases signature with
  | none => exact ⟨_, .absent⟩
  | some text =>
    cases hparse : MethodSignature.parse text with
    | error e => exact ⟨_, .malformed hparse⟩
    | ok s =>
      by_cases hcount : s.parameters.length = m.parameters.length
      · exact ⟨_, .agreeing hparse hcount⟩
      · exact ⟨_, .differing hparse hcount⟩

theorem ofSignature_eq_iff : ofSignature m signature = r ↔ Outcome m signature r := by
  constructor
  · rintro rfl
    obtain ⟨r, hr⟩ := exists_outcome m signature
    rwa [hr.ofSignature_eq]
  · exact Outcome.ofSignature_eq

theorem ofSignature_eq_malformed_iff {e : Malformed} :
    ofSignature m signature = .error (.malformed e) ↔
      ∃ text, signature = some text ∧ MethodSignature.parse text = .error e := by
  rw [ofSignature_eq_iff]
  constructor
  · intro h
    cases h with
    | malformed parsed => exact ⟨_, rfl, parsed⟩
  · rintro ⟨text, rfl, hparse⟩
    exact .malformed hparse

theorem ofSignature_eq_countMismatch_iff {n k : Nat} :
    ofSignature m signature = .error (.countMismatch n k) ↔
      ∃ text s, signature = some text ∧ MethodSignature.parse text = .ok s ∧
        n = s.parameters.length ∧ k = m.parameters.length ∧ n ≠ k := by
  rw [ofSignature_eq_iff]
  constructor
  · intro h
    cases h with
    | differing parsed count => exact ⟨_, _, rfl, parsed, rfl, rfl, count⟩
  · rintro ⟨text, s, rfl, hparse, rfl, rfl, hne⟩
    exact .differing hparse hne

theorem ofSignature_eq_generic_iff {s : MethodSignature} :
    ofSignature m signature = .ok (generic s) ↔
      ∃ text, signature = some text ∧ MethodSignature.parse text = .ok s ∧
        s.parameters.length = m.parameters.length := by
  rw [ofSignature_eq_iff]
  constructor
  · intro h
    cases h with
    | agreeing parsed count => exact ⟨_, rfl, parsed, count⟩
  · rintro ⟨text, rfl, hparse, hcount⟩
    exact .agreeing hparse hcount

theorem ofSignature_isOk_iff :
    (∃ p, ofSignature m signature = .ok p) ↔
      ∀ text, signature = some text → ∃ s, MethodSignature.parse text = .ok s ∧
        s.parameters.length = m.parameters.length := by
  simp only [ofSignature_eq_iff]
  constructor
  · rintro ⟨p, h⟩ text rfl
    cases h with
    | agreeing parsed count => exact ⟨_, parsed, count⟩
  · intro h
    cases signature with
    | none => exact ⟨_, .absent⟩
    | some text =>
      obtain ⟨s, hparse, hcount⟩ := h text rfl
      exact ⟨_, .agreeing hparse hcount⟩

end Choice

/-- Either the choice succeeds and is kept, or the erased types are taken. -/
theorem ofDeclarationOrErased_cases (d : Declaration MethodId) :
    (∃ s, ofDeclaration d = .ok (generic s) ∧
      s.parameters.length = d.member.type.parameters.length ∧
      ofDeclarationOrErased d = generic s) ∨
    (∀ s, ofDeclaration d ≠ .ok (generic s)) ∧
      ofDeclarationOrErased d = erased d.member.type.parameters := by
  obtain ⟨r, hr⟩ := exists_outcome d.member.type d.signature
  have hchoice : ofDeclaration d = r := hr.ofSignature_eq
  rw [ofDeclarationOrErased, hchoice]
  generalize d.signature = signature at hr
  cases hr with
  | agreeing parsed count => exact .inl ⟨_, rfl, count, rfl⟩
  | absent | malformed | differing => exact .inr ⟨by simp, rfl⟩

theorem count_ofDeclarationOrErased (d : Declaration MethodId) :
    (ofDeclarationOrErased d).count = d.member.type.parameters.length := by
  obtain ⟨s, -, hcount, h⟩ | ⟨-, h⟩ := ofDeclarationOrErased_cases d
  · rw [h]
    exact hcount
  · rw [h]
    rfl

theorem signature?_ofDeclarationOrErased {d : Declaration MethodId} {s : MethodSignature} :
    (ofDeclarationOrErased d).signature? = some s ↔ ofDeclaration d = .ok (generic s) := by
  obtain ⟨s', hok, -, h⟩ | ⟨hne, h⟩ := ofDeclarationOrErased_cases d
  · rw [h, hok]
    simp [signature?]
  · rw [h]
    simp [signature?, hne s]

theorem get_ofDeclarationOrErased {d : Declaration MethodId}
    (h : (ofDeclarationOrErased d).signature? = none) {i : Nat} {t : ErasedType}
    (ht : d.member.type.parameters[i]? = some t) :
    (ofDeclarationOrErased d).get i = .ok ⟨t, []⟩ := by
  obtain ⟨s, -, -, hs⟩ | ⟨-, herased⟩ := ofDeclarationOrErased_cases d
  · rw [hs] at h
    cases h
  · rw [herased, get, get?, ht]
    rfl

section Queries

variable {p : ParameterTypes} {i : Nat}

theorem get_eq_ok_iff {t : ParameterType} : p.get i = .ok t ↔ p.get? i = some t := by
  rw [get]
  cases p.get? i <;> simp

theorem isSome_get? : (p.get? i).isSome ↔ i < p.count := by
  cases p with
  | generic s => simp [get?, count]
  | erased types => simp [get?, count]

theorem exists_get_iff : (∃ t, p.get i = .ok t) ↔ i < p.count := by
  simp only [get_eq_ok_iff, ← Option.isSome_iff_exists, isSome_get?]

theorem get_of_count_le (h : p.count ≤ i) :
    p.get i = .error (.indexOutOfRange i p.count) := by
  have hnone : p.get? i = none := by
    rw [← Option.not_isSome_iff_eq_none, isSome_get?]
    omega
  rw [get, hnone]

theorem bound_eq_ok_iff {j k : Nat} {t : GenericType} :
    p.bound j k = .ok t ↔ ∃ s q, p.signature? = some s ∧ s.typeParameters[j]? = some q ∧
      (q.classBound.toList ++ q.interfaceBounds)[k]? = some t := by
  have hbound : p.bound j k = .ok t ↔ p.bound? j k = some t := by
    rw [bound]
    cases p.bound? j k <;> simp
  rw [hbound]
  simp [bound?, Option.bind_eq_some_iff, TypeParameter.bounds]

theorem bound_eq_error {j k : Nat} (h : ∀ t, p.bound j k ≠ .ok t) :
    p.bound j k = .error (.noSuchBound j k) := by
  cases hbound : p.bound? j k with
  | none => rw [bound, hbound]
  | some t =>
    apply absurd _ (h t)
    rw [bound, hbound]

theorem exists_bound_iff {j k : Nat} :
    (∃ t, p.bound j k = .ok t) ↔ ∃ s q, p.signature? = some s ∧ s.typeParameters[j]? = some q ∧
      k < q.bounds.length := by
  simp only [bound_eq_ok_iff]
  constructor
  · rintro ⟨t, s, q, hs, hq, ht⟩
    exact ⟨s, q, hs, hq, (List.getElem?_eq_some_iff.mp ht).1⟩
  · rintro ⟨s, q, hs, hq, hk⟩
    exact ⟨_, s, q, hs, hq, List.getElem?_eq_getElem hk⟩

theorem bound_eq_ok_iff_of_typeParameter {s : MethodSignature} {q : TypeParameter} {j : Nat}
    (hs : p.signature? = some s) (hq : s.typeParameters[j]? = some q) {k : Nat}
    {t : GenericType} :
    p.bound j k = .ok t ↔ (q.classBound.toList ++ q.interfaceBounds)[k]? = some t := by
  rw [bound_eq_ok_iff]
  constructor
  · rintro ⟨s', q', hs', hq', ht⟩
    cases hs.symm.trans hs'
    cases hq.symm.trans hq'
    exact ht
  · intro ht
    exact ⟨s, q, hs, hq, ht⟩

end Queries

/-- When there are parameter types at all, which source they come from, and which of the
questions about them have an answer. -/
theorem ofDeclaration_total (d : Declaration MethodId) :
    ((∀ e, ofDeclaration d = .error (.malformed e) ↔
        ∃ text, d.signature = some text ∧ MethodSignature.parse text = .error e) ∧
      (∀ n k, ofDeclaration d = .error (.countMismatch n k) ↔
        ∃ text s, d.signature = some text ∧ MethodSignature.parse text = .ok s ∧
          n = s.parameters.length ∧ k = d.member.type.parameters.length ∧ n ≠ k) ∧
      ((∃ p, ofDeclaration d = .ok p) ↔
        ∀ text, d.signature = some text → ∃ s, MethodSignature.parse text = .ok s ∧
          s.parameters.length = d.member.type.parameters.length) ∧
      ∀ s, ofDeclaration d = .ok (generic s) ↔
        ∃ text, d.signature = some text ∧ MethodSignature.parse text = .ok s ∧
          s.parameters.length = d.member.type.parameters.length) ∧
    ((ofDeclarationOrErased d).count = d.member.type.parameters.length ∧
      (∀ s, (ofDeclarationOrErased d).signature? = some s ↔
        ofDeclaration d = .ok (generic s)) ∧
      ((ofDeclarationOrErased d).signature? = none →
        ∀ i t, d.member.type.parameters[i]? = some t →
          (ofDeclarationOrErased d).get i = .ok ⟨t, []⟩)) ∧
    (∀ (p : ParameterTypes) i, ((∃ t, p.get i = .ok t) ↔ i < p.count) ∧
      (p.count ≤ i → p.get i = .error (.indexOutOfRange i p.count))) ∧
    ∀ (p : ParameterTypes) j k,
      ((∃ t, p.bound j k = .ok t) ↔ ∃ s q, p.signature? = some s ∧
        s.typeParameters[j]? = some q ∧ k < q.bounds.length) ∧
      (∀ s q, p.signature? = some s → s.typeParameters[j]? = some q → ∀ t,
        p.bound j k = .ok t ↔ (q.classBound.toList ++ q.interfaceBounds)[k]? = some t) ∧
      ((∀ t, p.bound j k ≠ .ok t) → p.bound j k = .error (.noSuchBound j k)) := by
  refine ⟨⟨?_, ?_, ?_, ?_⟩, ⟨?_, ?_, ?_⟩, fun p i => ⟨?_, ?_⟩, fun p j k => ⟨?_, ?_, ?_⟩⟩
  · exact fun e => ofSignature_eq_malformed_iff
  · exact fun n k => ofSignature_eq_countMismatch_iff
  · exact ofSignature_isOk_iff
  · exact fun s => ofSignature_eq_generic_iff
  · exact count_ofDeclarationOrErased d
  · exact fun s => signature?_ofDeclarationOrErased
  · exact fun h i t ht => get_ofDeclarationOrErased h ht
  · exact exists_get_iff
  · exact get_of_count_le
  · exact exists_bound_iff
  · exact fun s q hs hq t => bound_eq_ok_iff_of_typeParameter hs hq
  · exact bound_eq_error

/-- A method with the erased types of the signature in `Signature.parse_entryMethod`. -/
def entryDeclaration (signature : String) : Declaration MethodId :=
  ⟨⟨⟨"p/C"⟩, "m", ⟨[.array (.array (.primitive .int)), .object ⟨"java/util/Map$Entry"⟩], .void⟩⟩,
    some signature, [], []⟩

theorem ofDeclaration_total_entry :
    (ofDeclarationOrErased (entryDeclaration
      "<K::Ljava/util/Map<*+[TK;>.Entry;>([[ILjava/util/Map<*+[TK;>.Entry;)V^TK;")).signature? =
        some Signature.entryMethod ∧
    (generic Signature.entryMethod).get 2 = .error (.indexOutOfRange 2 2) ∧
    (generic Signature.entryMethod).bound 0 0 =
      .ok (.exactly (.classType Signature.entryClass)) ∧
    (ofDeclarationOrErased (entryDeclaration "")).get 0 =
      .ok ⟨.array (.array (.primitive .int)), []⟩ := by
  obtain ⟨⟨-, -, -, hgeneric⟩, ⟨-, hused, -⟩, hget, hbound⟩ := ofDeclaration_total (entryDeclaration
    "<K::Ljava/util/Map<*+[TK;>.Entry;>([[ILjava/util/Map<*+[TK;>.Entry;)V^TK;")
  obtain ⟨⟨hmalformed, -, -, -⟩, ⟨-, hused', herased⟩, -, -⟩ :=
    ofDeclaration_total (entryDeclaration "")
  refine ⟨?_, ?_, ?_, ?_⟩
  · exact (hused _).mpr ((hgeneric _).mpr ⟨_, rfl, Signature.parse_entryMethod, rfl⟩)
  · exact (hget _ 2).2 (by decide)
  · exact ((hbound _ 0 0).2.1 _ _ rfl rfl _).mpr rfl
  · have hempty := (hmalformed ⟨"", 0, .prematureEnd⟩).mpr ⟨"", rfl, rfl⟩
    refine herased (Option.eq_none_iff_forall_ne_some.mpr fun s hs => ?_) 0 _ rfl
    cases ((hused' s).mp hs).symm.trans hempty

end ParameterTypes

end NullSafety
