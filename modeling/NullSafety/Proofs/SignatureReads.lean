import NullSafety.Proofs.TypeReads

namespace NullSafety.Signature

theorem anyType_reads :
    Reads anyType.read (Written (GenericType.IsPlain 64) GenericType.chars) :=
  type_reads (argumentList_reads 64)

theorem anyReference_reads :
    Reads anyReference.read
      (Written (fun t => t.IsPlain 64 ∧ t.IsReference) GenericType.chars) :=
  reference_reads (argumentList_reads 64)

theorem anyClass_reads : Reads anyClass.read (Written (ClassType.Fits 64) ClassType.chars) :=
  classType_reads (argumentList_reads 64)

def someBounds (name : String) (s : List Char) : Except Fault (TypeParameter × List Char) :=
  if s.head? = some ':' then do
    let s ← expect ':' s
    let (bound, s) ← anyReference.read s
    let (bounds, s) ← anyReference.eachAfter ':' s
    return (⟨name, none, bound :: bounds⟩, s)
  else do
    let (bound, s) ← anyReference.read s
    let (bounds, s) ← anyReference.eachAfter ':' s
    return (⟨name, some bound, bounds⟩, s)

/-- At the end of the text a type parameter may be read without a bound. -/
def bounds (name : String) (s : List Char) : Except Fault (TypeParameter × List Char) := do
  let (bound, s) ← classBound s
  let (bounds, s) ← anyReference.eachAfter ':' s
  return (⟨name, bound, bounds⟩, s)

theorem bounds_of_ne (name : String) {s : List Char} (hs : s ≠ []) :
    bounds name s = someBounds name s := by
  by_cases hc : s.head? = some ':'
  · obtain ⟨t, rfl⟩ := List.head?_eq_some_iff.mp hc
    rw [bounds, classBound, if_pos (.inr hc), someBounds, if_pos hc, expect_cons]
    change (anyReference.eachAfter ':' (':' :: t) >>= fun x =>
        .ok (TypeParameter.mk name none x.1, x.2)) =
      (anyReference.read t >>= fun x => anyReference.eachAfter ':' x.2 >>= fun y =>
        .ok (TypeParameter.mk name none (x.1 :: y.1), y.2))
    simp only [Reader.eachAfter_cons, bind_assoc]
    rfl
  · rw [bounds, classBound, if_neg (by simp [hs, hc]), someBounds, if_neg hc, bind_assoc]
    rfl

theorem bounds_nil (name : String) : bounds name [] = .ok (⟨name, none, []⟩, []) := by
  rw [bounds, classBound, if_pos (.inl rfl)]
  refine (ok_bind (anyReference.eachAfter_of_ne (by simp))).trans rfl

theorem someBounds_nil (name : String) : someBounds name [] = .error ⟨.prematureEnd, []⟩ := rfl

def boundedTypeParameter : Reader Fault TypeParameter where
  read s := do
    let (name, s) ← identifier.read s
    let s ← expect ':' s
    someBounds name s
  shorter {s r p} h := by
    obtain ⟨⟨name, t⟩, ht, h⟩ := exists_of_bind_eq_ok h
    obtain ⟨u, hu, h⟩ := exists_of_bind_eq_ok h
    have hne : u ≠ [] := by
      rintro rfl
      cases h
    have hread : typeParameter.read s = .ok (p, r) := by
      refine (ok_bind ht).trans ((ok_bind hu).trans ?_)
      exact (bounds_of_ne name hne).trans h
    exact typeParameter.shorter hread

theorem typeParameter_bind {β : Type} {k : TypeParameter × List Char → Except Fault β}
    (hk : ∀ p, k (p, []) = .error ⟨.prematureEnd, []⟩) (s : List Char) :
    typeParameter.read s >>= k = boundedTypeParameter.read s >>= k := by
  change (identifier.read s >>= fun x => expect ':' x.2 >>= bounds x.1) >>= k =
    (identifier.read s >>= fun x => expect ':' x.2 >>= someBounds x.1) >>= k
  simp only [bind_assoc]
  congr
  funext x
  congr
  funext t
  cases t with
  | nil =>
    -- what reads on after a missing bound fails in the same place and for the same reason
    rw [bounds_nil, someBounds_nil]
    exact hk _
  | cons c t => rw [bounds_of_ne _ (by simp)]

theorem boundedTypeParameter_reads :
    Reads boundedTypeParameter.read (Written TypeParameter.WellFormed TypeParameter.chars) := by
  refine identifier_reads.bind ?_
  rintro name u ⟨hn, rfl⟩
  refine Reads.expect_bind (Reads.ite ':' (Reads.expect_bind (anyReference_reads.bind ?_))
    (anyReference_reads.bind ?_))
  -- with and without a class bound the same list of bounds is read
  all_goals
    rintro bound v ⟨hb, rfl⟩
    refine (anyReference_reads.eachAfter ':').bind ?_
    rintro bounds w ⟨hbs, rfl⟩
    refine Reads.pure ⟨⟨hn, by simp [TypeParameter.bounds], ?_⟩, by simp [TypeParameter.chars]⟩
    simpa [TypeParameter.bounds] using ⟨hb, hbs⟩

theorem typeParameterList_reads :
    Reads (typeParameterList.ifAt '<')
      (Written (∀ p ∈ ·, TypeParameter.WellFormed p) TypeParameter.listChars) := by
  refine Reads.ifAt ?_ ⟨by simp, rfl⟩ '<'
  have hlist : typeParameter.someUpTo '>' = boundedTypeParameter.someUpTo '>' := by
    funext s
    exact Reader.someUpTo_congr '>' rfl (fun k hk => typeParameter_bind hk) s
  change Reads (fun s => expect '<' s >>= typeParameter.someUpTo '>') _
  rw [hlist]
  refine Reads.expect_bind ((boundedTypeParameter_reads.someUpTo '>').mono ?_)
  rintro ps u ⟨⟨hne, hps⟩, rfl⟩
  refine ⟨hps, ?_⟩
  simp [TypeParameter.listChars, hne]

theorem result_reads :
    Reads result (Written (fun m => ∀ t, m = .value t → t.IsPlain 64) Return.chars) := by
  have hvalue : Reads (fun s => anyType.read s >>= fun x => .ok (Return.value x.1, x.2))
      (Written (fun m => ∀ t, m = .value t → t.IsPlain 64) Return.chars) := by
    refine anyType_reads.map Return.value ?_
    rintro t u ⟨ht, rfl⟩
    exact ⟨by simpa using ht, rfl⟩
  apply Reads.of_head
  intro o
  by_cases ho : o = some 'V'
  · subst o
    exact Reads.after 'V' (Reads.pure (a := .void) ⟨by simp, rfl⟩) (fun t => rfl)
  · exact ⟨_, hvalue, fun t ht => if_neg (ht ▸ ho)⟩

def thenEnd {α : Type} (f : List Char → Except Fault (α × List Char)) (s : List Char) :
    Except Fault α := do
  let (a, s) ← f s
  finish s
  return a

theorem thenEnd_reads {α : Type} {P : α → Prop} {print : α → List Char}
    {f : List Char → Except Fault (α × List Char)} (hf : Reads f (Written P print)) :
    Reads (whole (thenEnd f)) (Written P print) := by
  refine hf.whole_bind ?_
  rintro a u ⟨ha, rfl⟩
  exact Reads.whole_finish ⟨ha, List.append_nil _⟩

def methodBody (ps : List TypeParameter) (s : List Char) :
    Except Fault (MethodSignature × List Char) := do
  let s ← expect '(' s
  let (parameters, s) ← anyType.upTo ')' s
  let (result, s) ← result s
  let (thrown, s) ← anyReference.eachAfter '^' s
  return (⟨ps, parameters, result, thrown⟩, s)

def methodParts (s : List Char) : Except Fault (MethodSignature × List Char) := do
  let (ps, s) ← typeParameterList.ifAt '<' s
  methodBody ps s

def fieldParts (s : List Char) : Except Fault (FieldSignature × List Char) := do
  let (type, s) ← anyReference.read s
  return (⟨type⟩, s)

theorem methodSignature_eq : methodSignature = thenEnd methodParts := by
  funext s
  simp only [methodSignature, thenEnd, methodParts, methodBody, bind_assoc]
  rfl

theorem fieldSignature_eq : fieldSignature = thenEnd fieldParts := by
  funext s
  simp only [fieldSignature, thenEnd, fieldParts, bind_assoc]
  rfl

theorem methodParts_reads :
    Reads methodParts (Written MethodSignature.WellFormed MethodSignature.chars) := by
  refine typeParameterList_reads.bind ?_
  rintro ps u ⟨hps, rfl⟩
  refine Reads.expect_bind ((anyType_reads.upTo ')').bind ?_)
  rintro ts v ⟨hts, rfl⟩
  refine result_reads.bind ?_
  rintro m w ⟨hm, rfl⟩
  refine (anyReference_reads.eachAfter '^').bind ?_
  rintro xs x ⟨hxs, rfl⟩
  refine Reads.pure ⟨⟨hps, hts, hm, hxs⟩, ?_⟩
  simp [MethodSignature.chars]

theorem fieldParts_reads :
    Reads fieldParts (Written FieldSignature.WellFormed FieldSignature.chars) := by
  refine anyReference_reads.bind ?_
  rintro t u ⟨ht, rfl⟩
  exact Reads.pure ⟨⟨ht⟩, List.append_nil _⟩

theorem methodSignature_reads :
    Reads (whole methodSignature) (Written MethodSignature.WellFormed MethodSignature.chars) := by
  rw [methodSignature_eq]
  exact thenEnd_reads methodParts_reads

theorem fieldSignature_reads :
    Reads (whole fieldSignature) (Written FieldSignature.WellFormed FieldSignature.chars) := by
  rw [fieldSignature_eq]
  exact thenEnd_reads fieldParts_reads

theorem classSignature_reads :
    Reads (whole classSignature) (Written ClassSignature.WellFormed ClassSignature.chars) := by
  refine typeParameterList_reads.whole_bind ?_
  rintro ps u ⟨hps, rfl⟩
  refine anyClass_reads.whole_bind ?_
  rintro c v ⟨hc, rfl⟩
  refine anyClass_reads.toEnd.whole_map _ ?_
  rintro is w ⟨his, rfl⟩
  refine ⟨⟨hps, hc, his⟩, ?_⟩
  simp [ClassSignature.chars]

end NullSafety.Signature
