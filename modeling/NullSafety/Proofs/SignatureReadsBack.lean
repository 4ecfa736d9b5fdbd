import NullSafety.Proofs.SignatureReads
import NullSafety.Proofs.TypeReadsBack

namespace NullSafety.Signature

theorem anyType_readsBack :
    ReadsBack anyType.read (GenericType.IsPlain 64) GenericType.chars (fun _ => True) :=
  type_readsBack (argumentList_readsBack 64)

theorem anyReference_readsBack :
    ReadsBack anyReference.read (fun t => t.IsPlain 64 ∧ t.IsReference) GenericType.chars
      (fun _ => True) :=
  reference_readsBack (argumentList_readsBack 64)

theorem anyClass_readsBack :
    ReadsBack anyClass.read (ClassType.Fits 64) ClassType.chars (fun _ => True) :=
  classType_readsBack (argumentList_readsBack 64)

theorem eachReference_readsBack (mark : Char) :
    ReadsBack (anyReference.eachAfter mark) (∀ t ∈ ·, GenericType.IsPlain 64 t ∧ t.IsReference)
      (fun ts => ts.flatMap (mark :: GenericType.chars ·)) (·.head? ≠ some mark) :=
  fun ts hts r hr =>
    anyReference_readsBack.eachAfter mark (fun _ => trivial) ts hts r ⟨trivial, hr⟩

theorem classBound_of_reference {t : GenericType} (ht : t.IsPlain 64 ∧ t.IsReference)
    (r : List Char) : classBound (t.chars ++ r) = .ok (some t, r) := by
  have hhead := GenericType.head?_chars_append (c := ':') (by decide) t r
  have hne : t.chars ++ r ≠ [] := by
    obtain ⟨c, u, hu, -⟩ := t.exists_chars
    simp [hu]
  rw [classBound, if_neg (not_or.mpr ⟨hne, hhead⟩)]
  exact ok_bind (anyReference_readsBack t ht r trivial)

theorem typeParameter_readsBack :
    ReadsBack typeParameter.read TypeParameter.WellFormed TypeParameter.chars
      (·.head? ≠ some ':') := by
  rintro ⟨name, bound, bounds⟩ ⟨hn, hne, hbs⟩ r hr
  have hname (t : List Char) : identifier.read (name.toList ++ ':' :: t) = .ok (name, ':' :: t) :=
    identifier_readsBack name hn _ (endsName_cons.mpr (by decide))
  have hbound : classBound ((bound.map GenericType.chars).getD [] ++
      (bounds.flatMap (':' :: ·.chars) ++ r)) =
      .ok (bound, bounds.flatMap (':' :: ·.chars) ++ r) := by
    cases bound with
    | none =>
      cases bounds with
      | nil => exact absurd rfl hne
      | cons b bs => exact if_pos (.inr rfl)
    | some t => exact classBound_of_reference (hbs t (by simp [TypeParameter.bounds])) _
  have hlist := eachReference_readsBack ':' bounds
    (fun t ht => hbs t (by simp [TypeParameter.bounds, ht])) r hr
  simp only [TypeParameter.chars, List.append_assoc, List.cons_append]
  exact (ok_bind (hname _)).trans ((ok_bind (expect_cons ':' _)).trans
    ((ok_bind hbound).trans (ok_bind hlist)))

/-- A type parameter begins with its name. -/
theorem head?_typeParameter_append {p : TypeParameter} (hp : p.WellFormed) {c : Char}
    (hc : c ∈ reserved) (r : List Char) : (p.chars ++ r).head? ≠ some c := by
  obtain ⟨d, u, hd⟩ := List.exists_cons_of_ne_nil hp.name.1
  have hmem := hp.name.2 d (by simp [hd])
  rw [TypeParameter.chars, hd]
  rintro h
  cases h
  exact hmem hc

theorem typeParameterList_readsBack :
    ReadsBack (typeParameterList.ifAt '<') (∀ p ∈ ·, TypeParameter.WellFormed p)
      TypeParameter.listChars (·.head? ≠ some '<') := by
  intro ps hps r hr
  have hlist := typeParameter_readsBack.someUpTo '>' (fun r => by simp)
    (fun p hp => head?_typeParameter_append hp (by decide))
    (fun p hp => head?_typeParameter_append hp (by decide))
  cases ps with
  | nil => exact if_neg hr
  | cons p ps =>
    have hread := hlist (p :: ps) ⟨by simp, hps⟩ r trivial
    exact (if_pos rfl).trans ((ok_bind (expect_cons '<' _)).trans hread)

theorem result_readsBack :
    ReadsBack result (fun m => ∀ t, m = .value t → t.IsPlain 64) Return.chars
      (fun _ => True) := by
  rintro (t | _) hm r -
  · have hread := anyType_readsBack t (hm t rfl) r trivial
    have hhead := GenericType.head?_chars_append (c := 'V') (by decide) t r
    exact (if_neg hhead).trans (ok_bind hread)
  · rfl

theorem methodSignature_chars {m : MethodSignature} (hm : m.WellFormed) :
    methodSignature m.chars = .ok m := by
  obtain ⟨ps, ts, res, xs⟩ := m
  obtain ⟨hps, hts, hres, hxs⟩ := hm
  have hlist (r : List Char) := typeParameterList_readsBack ps hps ('(' :: r) (by simp)
  have hparameters (r : List Char) := anyType_readsBack.upTo ')' (fun _ => trivial)
    (fun _ _ _ => trivial) (fun t _ => GenericType.head?_chars_append (by decide) t)
    ts hts r trivial
  have hresult (r : List Char) := result_readsBack res hres r trivial
  have hthrown := eachReference_readsBack '^' xs hxs [] (by simp)
  simp only [List.append_assoc, List.cons_append, List.nil_append] at hparameters
  rw [List.append_nil] at hthrown
  simp only [MethodSignature.chars, List.append_assoc, List.cons_append]
  exact (ok_bind (hlist _)).trans ((ok_bind (expect_cons '(' _)).trans
    ((ok_bind (hparameters _)).trans ((ok_bind (hresult _)).trans (ok_bind hthrown))))

theorem fieldSignature_chars {f : FieldSignature} (hf : f.WellFormed) :
    fieldSignature f.chars = .ok f := by
  have hread := anyReference_readsBack f.type hf.type [] trivial
  rw [List.append_nil] at hread
  exact ok_bind hread

theorem classSignature_chars {c : ClassSignature} (hc : c.WellFormed) :
    classSignature c.chars = .ok c := by
  obtain ⟨ps, superclass, interfaces⟩ := c
  obtain ⟨hps, hsuper, hinterfaces⟩ := hc
  have hhead (r : List Char) : (superclass.chars ++ r).head? ≠ some '<' := by
    obtain ⟨u, hu⟩ := superclass.exists_chars
    simp [hu]
  have hlist (r : List Char) := typeParameterList_readsBack ps hps (superclass.chars ++ r) (hhead r)
  have hclass (r : List Char) := anyClass_readsBack superclass hsuper r trivial
  have hend := anyClass_readsBack.toEnd hinterfaces
  rw [ClassSignature.chars, List.append_assoc]
  exact (ok_bind (hlist _)).trans ((ok_bind (hclass _)).trans (ok_bind hend))

end NullSafety.Signature
