import NullSafety.Proofs.Explains
import NullSafety.Proofs.SignatureReads

namespace NullSafety.Signature

variable {room : Nat}

theorem identifier_explains : Explains room [] identifier.read := by
  intro s
  refine ⟨fun {r name} h => ?_, fun {e} h => ?_⟩
  · obtain ⟨⟨-, hn⟩, hs, -⟩ := identifier_eq_ok h
    have hreserved (c : Char) (hc : c ∈ reserved) : c ∉ name.toList := fun hmem => hn c hmem hc
    exact ⟨_, hs, .of_notMem (hreserved _ (by decide)) (hreserved _ (by decide))
      (hreserved _ (by decide))⟩
  · have hs := identifier_of_endsName (endsName_of_identifier_error h)
    exact ExplainsAt.fail_unexpected.error (hs.symm.trans h)

theorem classPath_explains : Explains room [] classPath.read := by
  refine identifier_explains.bind fun first => ?_
  exact (identifier_explains.eachAfter (.brackets 0 (by decide))).bind fun more => .pure .nil _

theorem typeVariable_explains (n : Nat) :
    Explains room (List.replicate n '[') typeVariable.read := by
  refine .expect_bind (.brackets n (by decide)) (identifier_explains.bind fun name => ?_)
  exact .expect_bind (.brackets 0 (by decide)) (.pure .nil name)

section

variable {arguments : Reader Fault (List GenericType)}
  (hargs : Explains room [] (arguments.ifAt '<'))

include hargs

theorem innerSegment_explains : Explains room [] (innerSegment arguments).read := by
  refine identifier_explains.bind fun name => ?_
  exact hargs.bind fun as => .pure .nil _

theorem classType_explains (n : Nat) :
    Explains room (List.replicate n '[') (classType arguments).read := by
  refine .expect_bind (.brackets n (by decide)) (classPath_explains.bind fun name => ?_)
  refine hargs.bind fun as => ?_
  have hinner := innerSegment_explains hargs
  refine (hinner.eachAfter (.brackets 0 (by decide))).bind fun inner => ?_
  exact .expect_bind (.brackets 0 (by decide)) (.pure .nil _)

theorem referenceElement_explains (n : Nat) :
    Explains room (List.replicate n '[') (referenceElement arguments).read := by
  apply Explains.of_head
  intro o
  by_cases hL : o = some 'L'
  · refine ⟨_, (classType_explains hargs n).map Element.classType, fun t ht => ?_⟩
    simp only [referenceElement, ht, hL]
    rfl
  by_cases hT : o = some 'T'
  · refine ⟨_, (typeVariable_explains n).map Element.variable, fun t ht => ?_⟩
    simp only [referenceElement, ht, hT]
    rfl
  · refine ⟨_, .fail_unexpected, fun t ht => ?_⟩
    simp only [referenceElement, ht]

theorem element_explains (n : Nat) :
    Explains room (List.replicate n '[') (element arguments).read := by
  apply Explains.of_head
  intro o
  cases ho : o.bind Primitive.ofLetter? with
  | none =>
    refine ⟨_, referenceElement_explains hargs n, fun t ht => ?_⟩
    simp [element, ht, ho]
  | some p =>
    obtain ⟨c, rfl, hc⟩ := Option.bind_eq_some_iff.mp ho
    obtain rfl := Primitive.eq_letter_of_ofLetter? hc
    have hletter : p.letter ∉ ['<', '>', '['] := by cases p <;> decide
    exact Explains.after p.letter (.brackets n hletter) (.pure .nil (.primitive p))
      (fun t => by simp [element])

theorem type_explains : Explains room [] (type arguments).read := by
  intro s
  obtain ⟨n, t, rfl, ht⟩ | ⟨t, rfl, ht⟩ := exists_dimensions s
  -- the brackets belong to the text behind which the element is read
  · have hread := type_read_of_ne arguments n ht
    have helement := (element_explains hargs n).map (GenericType.mk .invariant n) t
    refine ⟨fun h => ?_, fun h => ?_⟩
    · obtain ⟨u, rfl, hu⟩ := helement.ok (hread.symm.trans h)
      exact ⟨List.replicate n '[' ++ u, by rw [List.append_assoc], hu⟩
    · obtain ⟨u, hu, he⟩ := helement.error (hread.symm.trans h)
      exact ⟨List.replicate n '[' ++ u, by rw [List.append_assoc, ← hu], he⟩
  · have hread := type_read_of_eq arguments ht
    refine ⟨fun h => ?_, fun h => ?_⟩
    · cases hread.symm.trans h
    · cases hread.symm.trans h
      exact ⟨List.replicate 255 '[', rfl, ht, [], rfl, by simp⟩

theorem reference_explains : Explains room [] (reference arguments).read := by
  exact .ite '[' (type_explains hargs) ((referenceElement_explains hargs 0).map GenericType.exactly)

theorem argument_explains : Explains room [] (argument arguments).read := by
  have hreference := reference_explains hargs
  apply Explains.of_head
  intro o
  by_cases hstar : o = some '*'
  · subst o
    exact Explains.after '*' (.brackets 0 (by decide)) (.pure .nil .anything) (fun t => rfl)
  by_cases hplus : o = some '+'
  · subst o
    exact Explains.after '+' (.brackets 0 (by decide))
      (hreference.map (·.withVariance .covariant)) (fun t => rfl)
  by_cases hminus : o = some '-'
  · subst o
    exact Explains.after '-' (.brackets 0 (by decide))
      (hreference.map (·.withVariance .contravariant)) (fun t => rfl)
  · refine ⟨_, hreference, fun t ht => ?_⟩
    simp only [argument, ht]

end

theorem argumentList_explains (room : Nat) : Explains room [] ((argumentList room).ifAt '<') := by
  induction room with
  | zero =>
    intro s
    by_cases hs : s.head? = some '<'
    · have hread : (argumentList 0).ifAt '<' s = .error ⟨.tooDeeplyNested, s⟩ := if_pos hs
      refine ⟨fun h => ?_, fun h => ?_⟩
      · cases hread.symm.trans h
      · cases hread.symm.trans h
        exact ⟨[], rfl, hs, Settled.nil.nested⟩
    · refine (ExplainsAt.pure .nil []).congr ?_
      exact if_neg hs
  | succ room ih => exact .ite '<' (argument_explains ih).enclosed (.pure .nil [])

theorem anyType_explains : Explains 64 [] anyType.read :=
  type_explains (argumentList_explains 64)

theorem anyReference_explains : Explains 64 [] anyReference.read :=
  reference_explains (argumentList_explains 64)

theorem anyClass_explains : Explains 64 [] anyClass.read :=
  classType_explains (argumentList_explains 64) 0

theorem classBound_explains : Explains 64 [] classBound := by
  intro s
  by_cases hs : s = [] ∨ s.head? = some ':'
  · refine (ExplainsAt.pure .nil none).congr ?_
    exact if_pos hs
  · refine ((anyReference_explains s).map some).congr ?_
    exact if_neg hs

theorem typeParameter_explains : Explains 64 [] typeParameter.read := by
  refine identifier_explains.bind fun name => .expect_bind (.brackets 0 (by decide)) ?_
  refine classBound_explains.bind fun bound => ?_
  exact (anyReference_explains.eachAfter (.brackets 0 (by decide))).bind fun bounds => .pure .nil _

theorem result_explains : Explains 64 [] result := by
  apply Explains.of_head
  intro o
  by_cases ho : o = some 'V'
  · subst o
    exact Explains.after 'V' (.brackets 0 (by decide)) (.pure .nil .void) (fun t => rfl)
  · exact ⟨_, anyType_explains.map Return.value, fun t ht => if_neg (ht ▸ ho)⟩

theorem methodBody_explains (ps : List TypeParameter) : Explains 64 [] (methodBody ps) := by
  have hparameters := anyType_explains.upTo (.brackets 0 (c := ')') (by decide))
  refine .expect_bind (.brackets 0 (by decide)) (hparameters.bind fun ts => ?_)
  refine result_explains.bind fun m => ?_
  exact (anyReference_explains.eachAfter (.brackets 0 (by decide))).bind fun xs => .pure .nil _

theorem classBody_explained {s : List Char} {k : ClassType → List ClassType → ClassSignature}
    {e : Fault} (h : (anyClass.read s >>= fun x => anyClass.toEnd x.2 >>= fun is =>
      .ok (k x.1 is)) = .error e) : ∃ u, s = u ++ e.rest ∧ Explained 64 u e := by
  obtain h | ⟨⟨c, r⟩, hr, hrest⟩ := eq_of_bind_eq_error h
  · exact (anyClass_explains s).error h
  · obtain hend | ⟨is, -, hok⟩ := eq_of_bind_eq_error hrest
    · obtain ⟨u, hs, hu⟩ := (anyClass_explains s).ok hr
      obtain ⟨v, hv, he⟩ := anyClass_explains.toEnd_error hend
      refine ⟨u ++ v, ?_, hu.explained he⟩
      rw [hs, List.append_assoc, ← hv]
    · cases hok

end NullSafety.Signature
