import NullSafety.Proofs.SignatureReadsBack

namespace NullSafety.Signature

variable {α : Type}

theorem parse_eq_ok {read : List Char → Except Fault α} {s : String} {a : α} :
    parse read s = .ok a ↔ read s.toList = .ok a := by
  unfold parse
  cases read s.toList with
  | error e => exact ⟨nofun, nofun⟩
  | ok b =>
    constructor
    · intro h
      cases h
      rfl
    · intro h
      cases h
      rfl

theorem parse_of_chars {read : List Char → Except Fault α} {s : String} {u : List Char} {a : α}
    (hs : s = String.ofList u) (h : read u = .ok a) : parse read s = .ok a := by
  rw [hs, parse_eq_ok, String.toList_ofList]
  exact h

/-- A text that is read as a whole is the text of the value. -/
theorem written_of_parse {read : List Char → Except Fault α} {P : α → Prop}
    {print : α → List Char} (hread : Reads (whole read) (Written P print)) {s : String} {a : α}
    (h : parse read s = .ok a) : P a ∧ String.ofList (print a) = s := by
  have hs : whole read s.toList = .ok (a, []) := ok_bind (parse_eq_ok.mp h)
  obtain ⟨u, hu, ⟨ha, rfl⟩, -⟩ := (hread.reads s.toList).ok hs
  rw [List.append_nil] at hu
  exact ⟨ha, by rw [← hu, String.ofList_toList]⟩

theorem parse_toString :
    (∀ m : MethodSignature, m.WellFormed → MethodSignature.parse (toString m) = .ok m) ∧
    (∀ f : FieldSignature, f.WellFormed → FieldSignature.parse (toString f) = .ok f) ∧
    (∀ c : ClassSignature, c.WellFormed → ClassSignature.parse (toString c) = .ok c) := by
  refine ⟨fun m hm => ?_, fun f hf => ?_, fun c hc => ?_⟩
  · exact parse_of_chars rfl (methodSignature_chars hm)
  · exact parse_of_chars rfl (fieldSignature_chars hf)
  · exact parse_of_chars rfl (classSignature_chars hc)

def entryClass : ClassType :=
  ⟨[⟨"java/util/Map", [.anything, ⟨.covariant, ⟨1, by decide⟩, .variable "K"⟩]⟩, ⟨"Entry", []⟩]⟩

theorem entryClass_wellFormed : entryClass.WellFormed := by
  have harray : GenericType.IsArgument ⟨.covariant, ⟨1, by decide⟩, .variable "K"⟩ :=
    .bounded (by decide) (by simp [GenericType.IsReference]) (.variable (by decide))
  refine ⟨⟨["java", "util", "Map"], by decide, by decide, by decide⟩, ?_, ?_⟩
  · simp only [List.mem_singleton, forall_eq]
    decide
  · simp only [List.mem_cons, List.not_mem_nil, or_false, forall_eq_or_imp, forall_eq]
    exact ⟨⟨.anything, harray⟩, by simp⟩

theorem entryClass_fits : entryClass.Fits 64 := ⟨entryClass_wellFormed, by decide⟩

theorem entryClass_plain (n : Fin 256) :
    GenericType.IsPlain 64 ⟨.invariant, n, .classType entryClass⟩ ∧
      GenericType.IsReference ⟨.invariant, n, .classType entryClass⟩ := by
  refine ⟨GenericType.isPlain_iff.mpr ⟨rfl, ?_⟩, by simp [GenericType.IsReference]⟩
  exact Element.fits_classType.mpr entryClass_fits

def entryParameter : TypeParameter := ⟨"K", none, [.exactly (.classType entryClass)]⟩

theorem entryParameter_wellFormed : entryParameter.WellFormed := by
  refine ⟨by decide, by simp [entryParameter, TypeParameter.bounds], ?_⟩
  simpa [entryParameter, TypeParameter.bounds, GenericType.exactly] using entryClass_plain 0

def entryMethod : MethodSignature :=
  ⟨[entryParameter],
    [⟨.invariant, ⟨2, by decide⟩, .primitive .int⟩, .exactly (.classType entryClass)],
    .void, [.exactly (.variable "K")]⟩

theorem entryMethod_wellFormed : entryMethod.WellFormed := by
  have hint : GenericType.IsPlain 64 ⟨.invariant, ⟨2, by decide⟩, .primitive .int⟩ :=
    ⟨rfl, .primitive _, by decide⟩
  have hvariable : GenericType.IsPlain 64 (.exactly (.variable "K")) :=
    ⟨rfl, .variable (by decide), by decide⟩
  refine ⟨?_, ?_, ?_, ?_⟩
  · simpa [entryMethod] using entryParameter_wellFormed
  · simpa [entryMethod, GenericType.exactly] using ⟨hint, (entryClass_plain 0).1⟩
  · simp [entryMethod]
  · simpa [entryMethod, GenericType.IsReference, GenericType.exactly] using hvariable

def entryField : FieldSignature := ⟨⟨.invariant, ⟨1, by decide⟩, .classType entryClass⟩⟩

theorem entryField_wellFormed : entryField.WellFormed := ⟨entryClass_plain _⟩

def entrySubclass : ClassSignature := ⟨[entryParameter], entryClass, [entryClass]⟩

theorem entrySubclass_wellFormed : entrySubclass.WellFormed := by
  refine ⟨?_, entryClass_fits, ?_⟩
  · simpa [entrySubclass] using entryParameter_wellFormed
  · simpa [entrySubclass] using entryClass_fits

theorem parse_toString_entry :
    (entryMethod.WellFormed ∧ MethodSignature.parse (toString entryMethod) = .ok entryMethod) ∧
    (entryField.WellFormed ∧ FieldSignature.parse (toString entryField) = .ok entryField) ∧
    (entrySubclass.WellFormed ∧
      ClassSignature.parse (toString entrySubclass) = .ok entrySubclass) :=
  ⟨⟨entryMethod_wellFormed, parse_toString.1 _ entryMethod_wellFormed⟩,
    ⟨entryField_wellFormed, parse_toString.2.1 _ entryField_wellFormed⟩,
    ⟨entrySubclass_wellFormed, parse_toString.2.2 _ entrySubclass_wellFormed⟩⟩

theorem toString_of_parse :
    (∀ s m, MethodSignature.parse s = .ok m →
      toString m = s ∧ ∀ t, MethodSignature.parse t = .ok m → t = s) ∧
    (∀ s f, FieldSignature.parse s = .ok f →
      toString f = s ∧ ∀ t, FieldSignature.parse t = .ok f → t = s) ∧
    (∀ s c, ClassSignature.parse s = .ok c →
      toString c = s ∧ ∀ t, ClassSignature.parse t = .ok c → t = s) := by
  refine ⟨fun s m h => ?_, fun s f h => ?_, fun s c h => ?_⟩
  · have hs := (written_of_parse methodSignature_reads h).2
    exact ⟨hs, fun t ht => (written_of_parse methodSignature_reads ht).2.symm.trans hs⟩
  · have hs := (written_of_parse fieldSignature_reads h).2
    exact ⟨hs, fun t ht => (written_of_parse fieldSignature_reads ht).2.symm.trans hs⟩
  · have hs := (written_of_parse classSignature_reads h).2
    exact ⟨hs, fun t ht => (written_of_parse classSignature_reads ht).2.symm.trans hs⟩

theorem parse_entryMethod :
    MethodSignature.parse
      "<K::Ljava/util/Map<*+[TK;>.Entry;>([[ILjava/util/Map<*+[TK;>.Entry;)V^TK;" =
      .ok entryMethod :=
  parse_of_chars (by decide) (methodSignature_chars entryMethod_wellFormed)

theorem parse_entryField :
    FieldSignature.parse "[Ljava/util/Map<*+[TK;>.Entry;" = .ok entryField :=
  parse_of_chars (by decide) (fieldSignature_chars entryField_wellFormed)

theorem parse_entrySubclass :
    ClassSignature.parse
      "<K::Ljava/util/Map<*+[TK;>.Entry;>Ljava/util/Map<*+[TK;>.Entry;Ljava/util/Map<*+[TK;>.Entry;" =
      .ok entrySubclass :=
  parse_of_chars (by decide) (classSignature_chars entrySubclass_wellFormed)

theorem toString_of_parse_entry :
    toString entryMethod =
      "<K::Ljava/util/Map<*+[TK;>.Entry;>([[ILjava/util/Map<*+[TK;>.Entry;)V^TK;" ∧
    toString entryField = "[Ljava/util/Map<*+[TK;>.Entry;" ∧
    toString entrySubclass =
      "<K::Ljava/util/Map<*+[TK;>.Entry;>Ljava/util/Map<*+[TK;>.Entry;Ljava/util/Map<*+[TK;>.Entry;" :=
  ⟨(toString_of_parse.1 _ _ parse_entryMethod).1, (toString_of_parse.2.1 _ _ parse_entryField).1,
    (toString_of_parse.2.2 _ _ parse_entrySubclass).1⟩

theorem wellFormed_of_parse :
    (∀ s m, MethodSignature.parse s = .ok m → m.WellFormed) ∧
    (∀ s f, FieldSignature.parse s = .ok f → f.WellFormed) ∧
    (∀ s c, ClassSignature.parse s = .ok c → c.WellFormed) := by
  refine ⟨fun s m h => ?_, fun s f h => ?_, fun s c h => ?_⟩
  · exact (written_of_parse methodSignature_reads h).1
  · exact (written_of_parse fieldSignature_reads h).1
  · exact (written_of_parse classSignature_reads h).1

theorem wellFormed_of_parse_entry :
    entryMethod.WellFormed ∧ entryField.WellFormed ∧ entrySubclass.WellFormed :=
  ⟨wellFormed_of_parse.1 _ _ parse_entryMethod, wellFormed_of_parse.2.1 _ _ parse_entryField,
    wellFormed_of_parse.2.2 _ _ parse_entrySubclass⟩

end NullSafety.Signature
