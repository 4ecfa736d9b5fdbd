import NullSafety.Proofs.RoundTrip

namespace NullSafety

theorem utf8ByteSize_ofList (s : List Char) : (String.ofList s).utf8ByteSize = utf8Length s := by
  induction s with
  | nil => rfl
  | cons c s ih =>
    rw [String.ofList_cons, String.utf8ByteSize_append, String.utf8ByteSize_singleton, ih]
    rfl

theorem utf8Length_toList (s : String) : utf8Length s.toList = s.utf8ByteSize := by
  rw [← utf8ByteSize_ofList, String.ofList_toList]

namespace Signature

variable {α : Type}

def Extendable (parse : String → Except Malformed α) (s : String) : Prop :=
  ∃ t a, parse (s ++ t) = .ok a

/-- The text up to the offset can be extended to an accepted one, and the character at the
offset rules that out. -/
def StopsAt (parse : String → Except Malformed α) (s : String) (offset : Nat) : Prop :=
  ∃ before after, s = before ++ after ∧ before.utf8ByteSize = offset ∧ Extendable parse before ∧
    ∀ c, after.toList.head? = some c → ¬ Extendable parse (before.push c)

theorem Extendable.of_append {parse : String → Except Malformed α} {s t : String}
    (h : Extendable parse (s ++ t)) : Extendable parse s := by
  obtain ⟨u, a, ha⟩ := h
  exact ⟨t ++ u, a, by rwa [← String.append_assoc]⟩

theorem exists_append_of_append_eq {s t p q : String} (h : s ++ t = p ++ q) :
    (∃ u, p = s ++ u ∧ t = u ++ q) ∨ ∃ u, s = p ++ u := by
  have hl := congrArg String.toList h
  rw [String.toList_append, String.toList_append, List.append_eq_append_iff] at hl
  obtain ⟨u, hp, ht⟩ | ⟨u, hs, -⟩ := hl
  · refine .inl ⟨String.ofList u, ?_, ?_⟩ <;> apply String.toList_injective <;> simp [hp, ht]
  · refine .inr ⟨String.ofList u, ?_⟩
    apply String.toList_injective
    simp [hs]

/-- So the offset is the length of the longest part in front that can be extended. -/
theorem StopsAt.extendable_iff {parse : String → Except Malformed α} {s p q : String}
    {offset : Nat} (h : StopsAt parse s offset) (hs : s = p ++ q) :
    Extendable parse p ↔ p.utf8ByteSize ≤ offset := by
  obtain ⟨before, after, rfl, rfl, hbefore, hafter⟩ := h
  obtain ⟨u, rfl, rfl⟩ | ⟨u, rfl⟩ := exists_append_of_append_eq hs
  · rw [String.utf8ByteSize_append]
    cases hu : u.toList with
    | nil =>
      rw [String.toList_eq_nil_iff.mp hu]
      simpa using hbefore
    | cons c w =>
      have hc := hafter c (by simp [hu])
      have hpush : before ++ u = before.push c ++ String.ofList w := by
        apply String.toList_injective
        simp [hu]
      have hpos : 0 < u.utf8ByteSize := by
        rw [← utf8Length_toList, hu]
        have := c.utf8Size_pos
        simp only [utf8Length, List.foldr_cons]
        omega
      constructor
      · intro he
        rw [hpush] at he
        exact absurd he.of_append hc
      · intro hle
        omega
  · rw [String.utf8ByteSize_append]
    exact ⟨fun _ => Nat.le_add_right _ _, fun _ => hbefore.of_append⟩

theorem utf8Length_append (u v : List Char) :
    utf8Length (u ++ v) = utf8Length u + utf8Length v := by
  rw [← utf8ByteSize_ofList, String.ofList_append, String.utf8ByteSize_append,
    utf8ByteSize_ofList, utf8ByteSize_ofList]

theorem exists_fault_of_parse {read : List Char → Except Fault α} {s : String} {m : Malformed}
    (h : parse read s = .error m) : ∃ e, read s.toList = .error e ∧ e.locate s = m := by
  unfold parse at h
  cases he : read s.toList with
  | error e =>
    rw [he] at h
    exact ⟨e, rfl, Except.error.inj h⟩
  | ok a =>
    rw [he] at h
    cases h

/-- The position is the length of the text in front of the rest. -/
theorem utf8ByteSize_eq_position {s : String} {e : Fault} {u : List Char}
    (hu : s.toList = u ++ e.rest) :
    (String.ofList u).utf8ByteSize = (e.locate s).position := by
  simp only [Fault.locate, hu, utf8ByteSize_ofList, utf8Length_append]
  omega

theorem eq_append_of_toList {s : String} {u v : List Char} (hu : s.toList = u ++ v) :
    s = String.ofList u ++ String.ofList v := by
  rw [← String.ofList_append, ← hu, String.ofList_toList]

theorem stopsAt_of_error {read : List Char → Except Fault α} {P : α → Prop}
    {print : α → List Char} (hread : Reads (whole read) (Written P print))
    (hprint : ∀ a, P a → read (print a) = .ok a) {s : String} {m : Malformed}
    (h : parse read s = .error m) : StopsAt (parse read) s m.position := by
  obtain ⟨e, he, rfl⟩ := exists_fault_of_parse h
  have hwhole : whole read s.toList = .error e := by rw [whole, he]; rfl
  obtain ⟨u, hu, ⟨a, v, ha, hv⟩, ht⟩ := (hread.reads s.toList).error hwhole
  refine ⟨String.ofList u, String.ofList e.rest, ?_, ?_, ⟨String.ofList v, a, ?_⟩, ?_⟩
  · exact eq_append_of_toList hu
  · exact utf8ByteSize_eq_position hu
  · rw [← String.ofList_append]
    exact parse_of_chars (by rw [hv]) (hprint a ha)
  -- the fault is the same in front of every text with this first character
  · rintro c hc ⟨t, b, hb⟩
    rw [String.toList_ofList] at hc
    have hok := parse_eq_ok.mp hb
    have herr := ht (c :: t.toList) (by rw [hc, List.head?_cons])
    rw [String.toList_append, String.toList_push, String.toList_ofList, List.append_assoc,
      List.singleton_append] at hok
    rw [whole, hok] at herr
    cases herr

theorem stopsAt_position :
    (∀ s e, MethodSignature.parse s = .error e → StopsAt MethodSignature.parse s e.position ∧
      ∀ p q, s = p ++ q →
        (Extendable MethodSignature.parse p ↔ p.utf8ByteSize ≤ e.position)) ∧
    (∀ s e, FieldSignature.parse s = .error e → StopsAt FieldSignature.parse s e.position ∧
      ∀ p q, s = p ++ q →
        (Extendable FieldSignature.parse p ↔ p.utf8ByteSize ≤ e.position)) ∧
    (∀ s e, ClassSignature.parse s = .error e → StopsAt ClassSignature.parse s e.position ∧
      ∀ p q, s = p ++ q →
        (Extendable ClassSignature.parse p ↔ p.utf8ByteSize ≤ e.position)) := by
  refine ⟨fun s e h => ?_, fun s e h => ?_, fun s e h => ?_⟩
  · have hs := stopsAt_of_error methodSignature_reads (fun m hm => methodSignature_chars hm) h
    exact ⟨hs, fun p q hpq => hs.extendable_iff hpq⟩
  · have hs := stopsAt_of_error fieldSignature_reads (fun f hf => fieldSignature_chars hf) h
    exact ⟨hs, fun p q hpq => hs.extendable_iff hpq⟩
  · have hs := stopsAt_of_error classSignature_reads (fun c hc => classSignature_chars hc) h
    exact ⟨hs, fun p q hpq => hs.extendable_iff hpq⟩

theorem stopsAt_position_unicode :
    (MethodSignature.parse "<é:[Tè" = .error ⟨"<é:[Tè", 8, .prematureEnd⟩ ∧
      StopsAt MethodSignature.parse "<é:[Tè" 8) ∧
    (FieldSignature.parse "[Té<" = .error ⟨"[Té<", 4, .unexpected '<'⟩ ∧
      StopsAt FieldSignature.parse "[Té<" 4) ∧
    (ClassSignature.parse "<é;" = .error ⟨"<é;", 3, .unexpected ';'⟩ ∧
      StopsAt ClassSignature.parse "<é;" 3) := by
  have hmethod : MethodSignature.parse "<é:[Tè" = .error ⟨"<é:[Tè", 8, .prematureEnd⟩ := rfl
  have hfield : FieldSignature.parse "[Té<" = .error ⟨"[Té<", 4, .unexpected '<'⟩ := rfl
  have hclass : ClassSignature.parse "<é;" = .error ⟨"<é;", 3, .unexpected ';'⟩ := rfl
  exact ⟨⟨hmethod, (stopsAt_position.1 _ _ hmethod).1⟩,
    ⟨hfield, (stopsAt_position.2.1 _ _ hfield).1⟩, ⟨hclass, (stopsAt_position.2.2 _ _ hclass).1⟩⟩

end Signature

end NullSafety
