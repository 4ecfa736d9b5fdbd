import NullSafety.Proofs.ErrorPosition
import NullSafety.Proofs.SignatureExplains

namespace NullSafety

/-- The list that a text opens with its first character is not closed in it. The type parameters
of a signature are such a list. -/
def FirstListOpen (u : List Char) : Prop :=
  u ≠ [] ∧ ∀ v w, u = v ++ w → v ≠ [] → v.count '>' < v.count '<'

def Reason.Holds (accepted : String → Prop) (before after : String) : Reason → Prop
  | prematureEnd => after = ""
  | unexpected c => after.toList.head? = some c
  | trailingData => after ≠ "" ∧ accepted before
  | tooManyDimensions => after.toList.head? = some '[' ∧
    ∃ w, before.toList = w ++ List.replicate 255 '[' ∧ w.getLast? ≠ some '['
  | tooDeeplyNested => after.toList.head? = some '<' ∧
    (¬ FirstListOpen before.toList ∧ before.toList.count '<' = before.toList.count '>' + 64 ∨
      FirstListOpen before.toList ∧ before.toList.count '<' = before.toList.count '>' + 65)

/-- An error quotes the text and points to a place between two of its characters, about which
it tells the truth. The text has come to an end there if and only if the error says so. -/
structure Malformed.Truthful {α : Type} (parse : String → Except Malformed α) (s : String)
    (m : Malformed) : Prop where
  text : m.text = s
  place : ∃ before after, s = before ++ after ∧ before.utf8ByteSize = m.position ∧
    m.reason.Holds (fun t => ∃ a, parse t = .ok a) before after
  ended : m.reason = .prematureEnd ↔ m.position = s.utf8ByteSize

theorem firstListOpen_cons {u : List Char} {k : Nat} (hu : Nested k u) :
    FirstListOpen ('<' :: u) := by
  refine ⟨by simp, fun v w h hv => ?_⟩
  cases v with
  | nil => exact absurd rfl hv
  | cons c v =>
    obtain ⟨rfl, rfl⟩ := List.cons.inj h
    have hle := hu.closing v w rfl
    simp
    omega

theorem not_firstListOpen_append {u : List Char} (hu : Nested 0 u) (hne : u ≠ [])
    (v : List Char) : ¬ FirstListOpen (u ++ v) := by
  intro h
  have hlt := h.2 u v rfl hne
  rw [hu.count] at hlt
  omega

theorem not_firstListOpen_of_head {u : List Char} (hu : u.head? ≠ some '<') :
    ¬ FirstListOpen u := by
  cases u with
  | nil => exact fun h => h.1 rfl
  | cons c u =>
    intro h
    have hlt := h.2 [c] u rfl (by simp)
    have hc : c ≠ '<' := by simpa using hu
    simp [List.count_cons, hc] at hlt

theorem Reason.Holds.prematureEnd_iff {accepted : String → Prop} {before after : String}
    {reason : Reason} (h : reason.Holds accepted before after) :
    reason = .prematureEnd ↔ after = "" := by
  constructor
  · rintro rfl
    exact h
  · rintro rfl
    cases reason with
    | prematureEnd => rfl
    | unexpected c => cases h
    | trailingData => exact absurd rfl h.1
    | tooManyDimensions | tooDeeplyNested => cases h.1

theorem Explained.holds {k : Nat} {u : List Char} {e : Fault} {accepted : String → Prop}
    (h : Explained k u e) (hdeep : e.reason = .tooDeeplyNested →
      ¬ FirstListOpen u ∧ k = 64 ∨ FirstListOpen u ∧ k = 65) :
    e.reason.Holds accepted (String.ofList u) (String.ofList e.rest) := by
  obtain ⟨reason, rest⟩ := e
  cases reason with
  | prematureEnd => exact congrArg String.ofList h
  | unexpected c =>
    simp only [Reason.Holds, String.toList_ofList]
    exact h
  | trailingData => exact h.elim
  | tooManyDimensions =>
    simp only [Reason.Holds, String.toList_ofList]
    exact h
  | tooDeeplyNested =>
    simp only [Reason.Holds, String.toList_ofList]
    obtain ⟨hhead, hnested⟩ := h
    obtain ⟨hopen, rfl⟩ | ⟨hopen, rfl⟩ := hdeep rfl
    · exact ⟨hhead, .inl ⟨hopen, hnested.count⟩⟩
    · exact ⟨hhead, .inr ⟨hopen, hnested.count⟩⟩

namespace Signature

variable {α : Type} {accepted : String → Prop} {s : List Char} {e : Fault}

/-- The fault stands in the type parameters, or behind them, or there are none. -/
theorem holds_of_typeParameters {g : List TypeParameter → List Char → Except Fault α}
    (hg : ∀ ps t e, g ps t = .error e → ∃ u, t = u ++ e.rest ∧ Explained 64 u e)
    (h : (typeParameterList.ifAt '<' s >>= fun x => g x.1 x.2) = .error e) :
    ∃ u, s = u ++ e.rest ∧
      e.reason.Holds accepted (String.ofList u) (String.ofList e.rest) := by
  by_cases hs : s.head? = some '<'
  · obtain ⟨t, rfl⟩ := List.head?_eq_some_iff.mp hs
    have hread : typeParameterList.ifAt '<' ('<' :: t) = typeParameter.someUpTo '>' t := rfl
    have hlist := typeParameter_explains.closesAt_someUpTo '>' t
    rw [hread] at h
    obtain h | ⟨⟨ps, r⟩, hr, hrest⟩ := eq_of_bind_eq_error h
    · obtain ⟨u, rfl, hu⟩ := hlist.error h
      refine ⟨'<' :: u, rfl, hu.opened.holds fun hdeep => .inr ⟨?_, rfl⟩⟩
      obtain ⟨reason, rest⟩ := e
      cases hdeep
      exact firstListOpen_cons hu.2
    · obtain ⟨u, hu, hsettled⟩ := hlist.ok hr
      obtain ⟨v, hv, he⟩ := hg ps r e hrest
      have hlist := hsettled.enclosed
      refine ⟨'<' :: u ++ ['>'] ++ v, by simp [hu, hv], (hlist.explained he).holds fun _ => ?_⟩
      exact .inl ⟨not_firstListOpen_append hlist.nested (by simp) v, rfl⟩
  · have hread : typeParameterList.ifAt '<' s = .ok ([], s) := if_neg hs
    rw [hread] at h
    obtain ⟨u, hu, he⟩ := hg [] s e h
    refine ⟨u, hu, he.holds fun _ => .inl ⟨not_firstListOpen_of_head fun hhead => hs ?_, rfl⟩⟩
    rw [hu, List.head?_append, hhead]
    rfl

/-- A fault at the end is one of the value read so far, or more text follows a whole value. -/
theorem holds_of_thenEnd {f : List Char → Except Fault (α × List Char)} {P : α → Prop}
    {print : α → List Char} (hf : Reads f (Written P print))
    (herror : f s = .error e → ∃ u, s = u ++ e.rest ∧
      e.reason.Holds accepted (String.ofList u) (String.ofList e.rest))
    (haccepted : ∀ a, P a → accepted (String.ofList (print a))) (h : thenEnd f s = .error e) :
    ∃ u, s = u ++ e.rest ∧
      e.reason.Holds accepted (String.ofList u) (String.ofList e.rest) := by
  obtain h | ⟨⟨a, r⟩, hr, hrest⟩ := eq_of_bind_eq_error h
  · exact herror h
  · obtain hend | ⟨_, -, hok⟩ := eq_of_bind_eq_error hrest
    · obtain ⟨u, hs, ⟨ha, rfl⟩, -⟩ := (hf.reads s).ok hr
      unfold finish at hend
      split at hend
      · cases hend
      · rename_i hne
        cases hend
        refine ⟨print a, hs, ?_, haccepted a ha⟩
        intro hnil
        exact hne (String.ofList_injective hnil)
    · cases hok

theorem truthful_of_holds {read : List Char → Except Fault α} {s : String} {m : Malformed}
    (hread : ∀ e, read s.toList = .error e → ∃ u, s.toList = u ++ e.rest ∧
      e.reason.Holds (fun t => ∃ a, parse read t = .ok a) (String.ofList u)
        (String.ofList e.rest))
    (h : parse read s = .error m) : m.Truthful (parse read) s := by
  obtain ⟨e, he, rfl⟩ := exists_fault_of_parse h
  obtain ⟨u, hu, hholds⟩ := hread e he
  have hs := eq_append_of_toList hu
  have hposition := utf8ByteSize_eq_position hu
  refine ⟨rfl, ⟨_, _, hs, hposition, hholds⟩, hholds.prematureEnd_iff.trans ?_⟩
  have hlength := congrArg String.utf8ByteSize hs
  rw [String.utf8ByteSize_append, hposition] at hlength
  rw [← String.utf8ByteSize_eq_zero_iff]
  omega

theorem fieldParts_holds (h : fieldParts s = .error e) :
    ∃ u, s = u ++ e.rest ∧
      e.reason.Holds accepted (String.ofList u) (String.ofList e.rest) := by
  obtain h | ⟨_, -, hok⟩ := eq_of_bind_eq_error h
  · obtain ⟨u, hu, (he : Explained 64 u e)⟩ := (anyReference_explains s).error h
    refine ⟨u, hu, he.holds fun hdeep => .inl ⟨not_firstListOpen_of_head fun hhead => ?_, rfl⟩⟩
    -- no field signature begins with a list
    have hs : s.head? = some '<' := by rw [hu, List.head?_append, hhead]; rfl
    obtain ⟨t, rfl⟩ := List.head?_eq_some_iff.mp hs
    have hread : anyReference.read ('<' :: t) = .error ⟨.unexpected '<', '<' :: t⟩ := rfl
    cases hread.symm.trans h
    cases hdeep
  · cases hok

theorem methodSignature_holds (h : methodSignature s = .error e) :
    ∃ u, s = u ++ e.rest ∧ e.reason.Holds (fun t => ∃ m, MethodSignature.parse t = .ok m)
      (String.ofList u) (String.ofList e.rest) := by
  rw [methodSignature_eq] at h
  refine holds_of_thenEnd methodParts_reads (fun hparts => ?_) (fun m hm => ⟨m, ?_⟩) h
  · exact holds_of_typeParameters (fun ps t _ => (methodBody_explains ps t).error) hparts
  · exact parse_of_chars rfl (methodSignature_chars hm)

theorem fieldSignature_holds (h : fieldSignature s = .error e) :
    ∃ u, s = u ++ e.rest ∧ e.reason.Holds (fun t => ∃ f, FieldSignature.parse t = .ok f)
      (String.ofList u) (String.ofList e.rest) := by
  rw [fieldSignature_eq] at h
  refine holds_of_thenEnd fieldParts_reads fieldParts_holds (fun f hf => ⟨f, ?_⟩) h
  exact parse_of_chars rfl (fieldSignature_chars hf)

theorem classSignature_holds (h : classSignature s = .error e) :
    ∃ u, s = u ++ e.rest ∧ e.reason.Holds accepted (String.ofList u) (String.ofList e.rest) :=
  holds_of_typeParameters (fun ps _ _ => classBody_explained (k := ClassSignature.mk ps)) h

theorem parse_truthful :
    (∀ s m, MethodSignature.parse s = .error m → m.Truthful MethodSignature.parse s) ∧
    (∀ s m, FieldSignature.parse s = .error m → m.Truthful FieldSignature.parse s) ∧
    (∀ s m, ClassSignature.parse s = .error m →
      m.Truthful ClassSignature.parse s ∧ m.reason ≠ .trailingData) := by
  refine ⟨fun s m h => ?_, fun s m h => ?_, fun s m h => ⟨?_, fun htrailing => ?_⟩⟩
  · exact truthful_of_holds (fun e => methodSignature_holds) h
  · exact truthful_of_holds (fun e => fieldSignature_holds) h
  · exact truthful_of_holds (fun e => classSignature_holds) h
  -- what is said of a trailing text cannot even be said if no text is accepted
  · obtain ⟨e, he, rfl⟩ := exists_fault_of_parse h
    have hfalse : ∃ u, s.toList = u ++ e.rest ∧
        e.reason.Holds (fun _ => False) (String.ofList u) (String.ofList e.rest) :=
      classSignature_holds he
    obtain ⟨u, -, hholds⟩ := hfalse
    have hreason : e.reason = .trailingData := htrailing
    rw [hreason] at hholds
    exact hholds.2

theorem parse_truthful_short :
    (MethodSignature.parse "<é:[Tè" = .error ⟨"<é:[Tè", 8, .prematureEnd⟩ ∧
      Malformed.Truthful MethodSignature.parse "<é:[Tè" ⟨"<é:[Tè", 8, .prematureEnd⟩) ∧
    (FieldSignature.parse "Té;T" = .error ⟨"Té;T", 4, .trailingData⟩ ∧
      Malformed.Truthful FieldSignature.parse "Té;T" ⟨"Té;T", 4, .trailingData⟩) ∧
    (ClassSignature.parse "<é;" = .error ⟨"<é;", 3, .unexpected ';'⟩ ∧
      Malformed.Truthful ClassSignature.parse "<é;" ⟨"<é;", 3, .unexpected ';'⟩) := by
  have hmethod : MethodSignature.parse "<é:[Tè" = .error ⟨"<é:[Tè", 8, .prematureEnd⟩ := rfl
  have hfield : FieldSignature.parse "Té;T" = .error ⟨"Té;T", 4, .trailingData⟩ := rfl
  have hclass : ClassSignature.parse "<é;" = .error ⟨"<é;", 3, .unexpected ';'⟩ := rfl
  exact ⟨⟨hmethod, parse_truthful.1 _ _ hmethod⟩, ⟨hfield, parse_truthful.2.1 _ _ hfield⟩,
    ⟨hclass, (parse_truthful.2.2 _ _ hclass).1⟩⟩

end Signature

end NullSafety
