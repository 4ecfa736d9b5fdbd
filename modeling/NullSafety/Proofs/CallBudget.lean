import NullSafety.Proofs.CountedReader
import NullSafety.Proofs.SignatureReads

namespace NullSafety.Signature.Counted

/-- On one text the counted reader gives the answer of the reader without counters, and the
number of open lists is what it was. -/
def FollowsAt {α : Type} (depth : Nat) (run : Run α)
    (read : List Char → Except Fault (α × List Char)) (s : List Char) : Prop :=
  run ⟨s, depth⟩ = answer depth (read s)

def Follows {α : Type} (depth : Nat) (run : Run α)
    (read : List Char → Except Fault (α × List Char)) : Prop :=
  ∀ s, FollowsAt depth run read s

variable {α β : Type} {depth : Nat}

theorem FollowsAt.bind {m : Run α} {k : α → Run β} {f : List Char → Except Fault (α × List Char)}
    {g : α × List Char → Except Fault (β × List Char)} {s : List Char} (hm : FollowsAt depth m f s)
    (hk : ∀ a r, f s = .ok (a, r) → FollowsAt depth (k a) (fun t => g (a, t)) r) :
    FollowsAt depth (m >>= k) (fun t => f t >>= g) s := by
  change EStateM.bind m k ⟨s, depth⟩ = answer depth (f s >>= g)
  unfold EStateM.bind
  rw [hm]
  cases hf : f s with
  | error e => rfl
  | ok x => exact hk x.1 x.2 hf

theorem FollowsAt.congr {m : Run α} {f g : List Char → Except Fault (α × List Char)}
    {s : List Char} (hm : FollowsAt depth m f s) (h : f s = g s) : FollowsAt depth m g s :=
  Eq.trans hm (congrArg (answer depth) h)

section

variable {goOn : Option Char → Bool} {item : Run α} {c c' : Cursor}

theorem loop_of_stop (hc : goOn c.rest.head? = false) : loop goOn item c = .ok [] c := by
  rw [loop, if_neg (by simp [hc])]

theorem loop_of_error {e : Stop} (hc : goOn c.rest.head? = true) (h : item c = .error e c') :
    loop goOn item c = .error e c' := by
  rw [loop, if_pos hc, h]

theorem loop_of_ok {a : α} (hc : goOn c.rest.head? = true) (h : item c = .ok a c')
    (hshort : c'.rest.length < c.rest.length) :
    loop goOn item c = prepend a (loop goOn item c') := by
  rw [loop, if_pos hc, h]
  exact dif_pos hshort

end

theorem prepend_answer (a : α) (x : Except Fault (List α × List Char)) :
    prepend a (answer depth x) = answer depth (x >>= fun y => .ok (a :: y.1, y.2)) := by
  cases x <;> rfl

namespace Follows

theorem plain (read : List Char → Except Fault (α × List Char)) :
    Follows depth (plain read) read :=
  fun _ => rfl

theorem pure (a : α) : Follows depth (pure a) (fun t => .ok (a, t)) := fun _ => rfl

theorem bind {m : Run α} {k : α → Run β} {f : List Char → Except Fault (α × List Char)}
    {g : α × List Char → Except Fault (β × List Char)} (hm : Follows depth m f)
    (hk : ∀ a, Follows depth (k a) (fun t => g (a, t))) :
    Follows depth (m >>= k) (fun t => f t >>= g) :=
  fun s => (hm s).bind fun a r _ => hk a r

theorem map {m : Run α} {f : List Char → Except Fault (α × List Char)} (hm : Follows depth m f)
    (k : α → β) :
    Follows depth (m >>= fun a => Pure.pure (k a)) (fun t => f t >>= fun x => .ok (k x.1, x.2)) :=
  hm.bind fun a => pure (k a)

theorem expect_bind {k : Run β} {g : List Char → Except Fault (β × List Char)} {next : Char}
    (hk : Follows depth k g) :
    Follows depth (expect next >>= fun _ => k) (fun t => Signature.expect next t >>= g) := by
  intro s
  refine ((plain _ s).bind (g := fun x => g x.2) fun _ r _ => hk r).congr ?_
  exact bind_assoc ..

/-- A loop whose items are followed is followed. Each item makes the text shorter, so that no loop
stalls. -/
theorem loop {goOn : Option Char → Bool} {item : Run α}
    {q : List Char → Except Fault (α × List Char)}
    {f : List Char → Except Fault (List α × List Char)}
    (hitem : ∀ s, goOn s.head? = true → FollowsAt depth item q s)
    (hshort : ∀ s a r, goOn s.head? = true → q s = .ok (a, r) → r.length < s.length)
    (hstop : ∀ s, goOn s.head? = false → f s = .ok ([], s))
    (hgo : ∀ s, goOn s.head? = true → f s = (q s >>= fun x => f x.2 >>= fun y =>
      .ok (x.1 :: y.1, y.2))) :
    Follows depth (loop goOn item) f := by
  intro s
  induction hn : s.length using Nat.strongRecOn generalizing s with
  | ind n ih =>
    unfold FollowsAt
    cases hs : goOn s.head? with
    | false =>
      rw [loop_of_stop hs, hstop s hs]
      rfl
    | true =>
      rw [hgo s hs]
      have hfirst := hitem s hs
      unfold FollowsAt at hfirst
      cases hread : q s with
      | error e =>
        rw [hread] at hfirst
        exact loop_of_error hs hfirst
      | ok x =>
        have hl := hshort s x.1 x.2 hs hread
        have hrest := ih x.2.length (hn ▸ hl) x.2 rfl
        rw [hread] at hfirst
        refine (loop_of_ok hs hfirst hl).trans ?_
        rw [hrest]
        exact prepend_answer x.1 (f x.2)

variable {item : Run α} {p : Reader Fault α}

theorem advance_bind {k : Run β} {g : List Char → Except Fault (β × List Char)} {s : List Char}
    (hk : FollowsAt depth k g s.tail) :
    FollowsAt depth (advance >>= fun _ => k) (fun s => g s.tail) s := hk

theorem peek_bind {k : Option Char → Run β} {g : List Char → Except Fault (β × List Char)}
    {s : List Char} (hk : FollowsAt depth (k s.head?) g s) : FollowsAt depth (peek >>= k) g s := hk

theorem get_bind {k : Cursor → Run β} {g : List Char → Except Fault (β × List Char)}
    {s : List Char} (hk : FollowsAt depth (k ⟨s, depth⟩) g s) : FollowsAt depth (get >>= k) g s :=
  hk

theorem finish_pure (a : α) :
    Follows depth (finish >>= fun _ => Pure.pure a)
      (fun t => Signature.finish t >>= fun _ => .ok (a, [])) := by
  intro s
  cases s with
  | nil => rfl
  | cons c s => rfl

theorem eachAfter (hitem : Follows depth item p.read) (mark : Char) :
    Follows depth (eachAfter mark item) (p.eachAfter mark) := by
  refine loop (q := fun s => p.read s.tail) (fun s _ => ?_) (fun s a r hs h => ?_)
    (fun s hs => ?_) (fun s hs => ?_)
  · exact advance_bind (hitem s.tail)
  · have hl := p.shorter h
    rw [List.length_tail] at hl
    omega
  · exact p.eachAfter_of_ne (by simpa using hs)
  · obtain ⟨t, rfl⟩ := List.head?_eq_some_iff.mp (of_decide_eq_true hs)
    exact p.eachAfter_cons mark t

theorem toEnd (hitem : Follows depth item p.read) :
    Follows depth (toEnd item) (whole p.toEnd) := by
  refine loop (fun s _ => hitem s) (fun s a r _ h => p.shorter h) (fun s hs => ?_) (fun s hs => ?_)
  · obtain rfl : s = [] := by simpa using hs
    rw [whole, p.toEnd_nil]
    rfl
  · have hne : s ≠ [] := by
      rintro rfl
      cases hs
    rw [whole, p.toEnd_of_ne hne]
    simp only [whole, bind_assoc]
    rfl

theorem upTo (hitem : Follows depth item p.read) (close : Char) :
    Follows depth (upTo close item) (p.upTo close) := by
  -- the loop stops in front of the closing character
  have hloop : Follows depth (Counted.loop (· ≠ some close) item)
      (fun s => p.upTo close s >>= fun x => .ok (x.1, close :: x.2)) := by
    refine loop (fun s _ => hitem s) (fun s a r _ h => p.shorter h) (fun s hs => ?_)
      (fun s hs => ?_)
    · obtain ⟨t, rfl⟩ := List.head?_eq_some_iff.mp (by simpa using hs)
      rw [p.upTo_close]
      rfl
    · rw [p.upTo_of_ne (of_decide_eq_true hs), Reader.someUpTo]
      simp only [bind_assoc]
      rfl
  have hadvance (as : List α) :
      Follows depth (do advance; return as) (fun t => .ok (as, t.tail)) := fun _ => rfl
  intro s
  refine (hloop.bind (g := fun x => .ok (x.1, x.2.tail)) hadvance s).congr ?_
  cases p.upTo close s <;> rfl

theorem someUpTo (hitem : Follows depth item p.read) (close : Char) :
    Follows depth (someUpTo close item) (p.someUpTo close) :=
  hitem.bind fun a => (hitem.upTo close).map (a :: ·)

theorem nested {run : Run α} {f : List Char → Except Fault (α × List Char)}
    (hd : depth < maxNesting) (hrun : Follows (depth + 1) run f) :
    Follows depth (nested run) f := by
  intro s
  unfold FollowsAt Counted.nested
  rw [if_pos hd, hrun s]
  cases f s <;> rfl

end Follows

/-- An element that is no array yet fits into any array that can be written. -/
theorem wrap_exactly (n : Fin 256) (e : Element) :
    wrap n (.exactly e) = pure ⟨.invariant, n, e⟩ := by
  rw [wrap, GenericType.exactly_inArrays?]

section

variable {calls k : Nat} {args : Reader Fault (List GenericType)}
  (hargs : ∀ j, calls ≤ j → Follows depth (arguments j) (args.ifAt '<'))

include hargs

theorem classType_follows (hk : calls + 1 ≤ k) :
    Follows depth (classType k) (Signature.classType args).read := by
  obtain ⟨j, rfl⟩ : ∃ j, k = j + 1 := ⟨k - 1, by omega⟩
  have hj := hargs j (by omega)
  have hinner : Follows depth
      (do
        let name ← plain identifier.read
        let as ← arguments j
        return Segment.mk name as) (innerSegment args).read :=
    (Follows.plain identifier.read).bind fun name => hj.bind fun as => .pure _
  rw [classType]
  refine .expect_bind ((Follows.plain classPath.read).bind fun name => ?_)
  refine hj.bind fun as => (hinner.eachAfter '.').bind fun inner => ?_
  exact .expect_bind (.pure _)

/-- Where no bracket stands a reference is read without calling `type`. -/
theorem reference_followsAt (hk : calls + 2 ≤ k) {s : List Char} (hs : s.head? ≠ some '[') :
    FollowsAt depth (reference k) (Signature.reference args).read s := by
  obtain ⟨j, rfl⟩ : ∃ j, k = j + 1 := ⟨k - 1, by omega⟩
  have hclass := classType_follows hargs (show calls + 1 ≤ j by omega)
  rw [reference]
  apply Follows.peek_bind
  split
  · rename_i hL
    refine (hclass.map (fun c => GenericType.exactly (.classType c)) s).congr ?_
    simp only [Signature.reference, referenceElement, hL, bind_assoc]
    rfl
  · rename_i hT
    refine ((Follows.plain typeVariable.read).map (fun x => GenericType.exactly (.variable x))
      s).congr ?_
    simp only [Signature.reference, referenceElement, hT, bind_assoc]
    rfl
  · rename_i hb
    exact absurd hb hs
  · rename_i hL hT hb
    refine (Follows.plain (fun t => .error (Signature.unexpected t)) s).congr ?_
    simp only [Signature.reference, referenceElement, if_neg hs]
    rfl

theorem wrapped_followsAt (hk : calls + 2 ≤ k) (n : Fin 256) {s : List Char}
    (hs : s.head? ≠ some '[') :
    FollowsAt depth (wrapped n (reference k))
      (fun t => (element args).read t >>= fun x => .ok (⟨.invariant, n, x.1⟩, x.2)) s := by
  have href (hp : s.head?.bind Primitive.ofLetter? = none) :
      FollowsAt depth (reference k >>= wrap n)
        (fun t => (element args).read t >>= fun x => .ok (⟨.invariant, n, x.1⟩, x.2)) s := by
    refine ((reference_followsAt hargs hk hs).bind (g := fun x =>
      .ok (⟨.invariant, n, x.1.element⟩, x.2)) fun t r ht => ?_).congr ?_
    · obtain ⟨x, _, hx⟩ := exists_of_bind_eq_ok ((if_neg hs).symm.trans ht)
      cases hx
      rw [wrap_exactly]
      exact Follows.pure _ x.2
    · simp only [Signature.reference, if_neg hs, element, hp, bind_assoc]
      rfl
  unfold wrapped
  apply Follows.peek_bind
  split
  · rename_i hL
    exact href (by rw [hL]; rfl)
  · rename_i hT
    exact href (by rw [hT]; rfl)
  · rename_i hL hT
    split
    · rename_i p hp
      rw [wrap_exactly]
      refine (Follows.advance_bind (Follows.pure _ s.tail)).congr ?_
      simp only [element, hp]
      rfl
    · rename_i hp
      refine (Follows.plain (fun t => .error (Signature.unexpected t)) s).congr ?_
      simp only [element, hp, referenceElement]
      rfl

/-- The brackets are all read before the element, so `reference` and `type` call each other only
once around. -/
theorem type_follows (hk : calls + 3 ≤ k) :
    Follows depth (type k) (Signature.type args).read := by
  obtain ⟨j, rfl⟩ : ∃ j, k = j + 1 := ⟨k - 1, by omega⟩
  rw [type]
  intro s
  refine ((Follows.plain dimensions s).bind (g := fun x =>
    (element args).read x.2 >>= fun y => .ok (⟨.invariant, x.1, y.1⟩, y.2)) ?_).congr ?_
  · intro n r hr
    exact wrapped_followsAt hargs (by omega) n (head?_of_dimensions hr)
  · simp only [Signature.type, GenericType.exactly_inArrays?]

theorem reference_follows (hk : calls + 4 ≤ k) :
    Follows depth (reference k) (Signature.reference args).read := by
  intro s
  by_cases hs : s.head? = some '['
  · obtain ⟨j, rfl⟩ : ∃ j, k = j + 1 := ⟨k - 1, by omega⟩
    rw [reference]
    apply Follows.peek_bind
    rw [hs]
    refine (type_follows hargs (show calls + 3 ≤ j by omega) s).congr ?_
    exact (if_pos hs).symm
  · exact reference_followsAt hargs (by omega) hs

theorem argument_follows (hk : calls + 5 ≤ k) :
    Follows depth (argument k) (Signature.argument args).read := by
  obtain ⟨j, rfl⟩ : ∃ j, k = j + 1 := ⟨k - 1, by omega⟩
  have href := reference_follows hargs (show calls + 4 ≤ j by omega)
  intro s
  rw [argument]
  apply Follows.peek_bind
  split
  · rename_i hs
    refine (Follows.advance_bind (Follows.pure GenericType.anything s.tail)).congr ?_
    simp only [Signature.argument, hs]
  · rename_i hs
    refine (Follows.advance_bind (href.map (GenericType.withVariance .covariant) s.tail)).congr ?_
    simp only [Signature.argument, hs]
    rfl
  · rename_i hs
    refine (Follows.advance_bind (href.map (GenericType.withVariance .contravariant)
      s.tail)).congr ?_
    simp only [Signature.argument, hs]
    rfl
  · refine (href s).congr ?_
    simp only [Signature.argument]

end

/-- A list that may hold `room` lists inside each other takes six calls for each of them. -/
theorem arguments_follows {room k : Nat} (hroom : room ≤ maxNesting) (hk : 6 * room + 1 ≤ k) :
    Follows (maxNesting - room) (arguments k) ((argumentList room).ifAt '<') := by
  induction room generalizing k with
  | zero =>
    obtain ⟨j, rfl⟩ : ∃ j, k = j + 1 := ⟨k - 1, by omega⟩
    intro s
    rw [arguments]
    apply Follows.peek_bind
    split
    · rename_i hs
      unfold FollowsAt Reader.ifAt
      rw [if_pos hs]
      rfl
    · rename_i hs
      exact (Follows.pure [] s).congr (if_neg hs).symm
  | succ room ih =>
    obtain ⟨j, rfl⟩ : ∃ j, k = j + 1 := ⟨k - 1, by omega⟩
    have hopen : maxNesting - (room + 1) < maxNesting := by omega
    have hinside : maxNesting - (room + 1) + 1 = maxNesting - room := by omega
    have harg : Follows (maxNesting - room) (argument j)
        (Signature.argument (argumentList room)).read :=
      argument_follows (fun _ h => ih (by omega) h) (by omega)
    have hlist := Follows.nested hopen (hinside ▸ harg.someUpTo '>')
    intro s
    rw [arguments]
    apply Follows.peek_bind
    split
    · rename_i hs
      apply Follows.get_bind
      rw [if_neg (by simpa using hopen)]
      refine (Follows.advance_bind (hlist s.tail)).congr ?_
      simp only [Reader.ifAt, argumentList, Signature.expect, if_pos hs]
      rfl
    · rename_i hs
      exact (Follows.pure [] s).congr (if_neg hs).symm

def callLimit : Nat := 6 * maxNesting + 5

section

variable {k : Nat} (hk : callLimit ≤ k)

include hk

theorem anyClass_follows : Follows 0 (classType k) anyClass.read :=
  classType_follows (fun _ => arguments_follows (Nat.le_refl _))
    (by unfold callLimit at hk; omega)

theorem anyType_follows : Follows 0 (type k) anyType.read :=
  type_follows (fun _ => arguments_follows (Nat.le_refl _))
    (by unfold callLimit at hk; omega)

theorem anyReference_follows : Follows 0 (reference k) anyReference.read :=
  reference_follows (fun _ => arguments_follows (Nat.le_refl _)) hk

theorem classBound_follows : Follows 0 (classBound k) Signature.classBound := by
  intro s
  apply Follows.peek_bind
  split
  · rename_i hs
    exact (Follows.pure none s).congr (if_pos (.inl (List.head?_eq_none_iff.mp hs))).symm
  · rename_i hs
    exact (Follows.pure none s).congr (if_pos (.inr hs)).symm
  · rename_i c hc hs
    refine ((anyReference_follows hk).map some s).congr ?_
    have hne : s ≠ [] := by
      rintro rfl
      cases hs
    have hcolon : s.head? ≠ some ':' := by
      rw [hs]
      simpa using hc
    exact (if_neg (by simp [hne, hcolon])).symm

theorem typeParameter_follows :
    Follows 0 (typeParameter k) Signature.typeParameter.read := by
  refine (Follows.plain identifier.read).bind fun name => .expect_bind ?_
  refine (classBound_follows hk).bind fun bound => ?_
  exact ((anyReference_follows hk).eachAfter ':').map _

theorem typeParameterList_follows :
    Follows 0 (typeParameterList k) (Signature.typeParameterList.ifAt '<') := by
  intro s
  apply Follows.peek_bind
  split
  · rename_i hs
    refine (Follows.advance_bind ((typeParameter_follows hk).someUpTo '>' s.tail)).congr ?_
    simp only [Reader.ifAt, Signature.typeParameterList, Signature.expect, if_pos hs]
    rfl
  · rename_i hs
    exact (Follows.pure [] s).congr (if_neg hs).symm

theorem result_follows : Follows 0 (result k) Signature.result := by
  intro s
  apply Follows.peek_bind
  split
  · rename_i hs
    exact (Follows.advance_bind (Follows.pure _ s.tail)).congr (if_pos hs).symm
  · rename_i hs
    exact ((anyType_follows hk).map Return.value s).congr (if_neg hs).symm

theorem methodSignature_follows :
    Follows 0 (methodSignature k) (whole Signature.methodSignature) := by
  unfold whole Signature.methodSignature
  simp only [bind_assoc]
  refine (typeParameterList_follows hk).bind fun ps => ?_
  dsimp only
  refine .expect_bind (((anyType_follows hk).upTo ')').bind fun parameters => ?_)
  dsimp only
  refine (result_follows hk).bind fun result => ?_
  dsimp only
  refine ((anyReference_follows hk).eachAfter '^').bind fun thrown => ?_
  exact .finish_pure _

theorem fieldSignature_follows :
    Follows 0 (fieldSignature k) (whole Signature.fieldSignature) := by
  unfold whole Signature.fieldSignature
  simp only [bind_assoc]
  exact (anyReference_follows hk).bind fun t => .finish_pure _

theorem classSignature_follows :
    Follows 0 (classSignature k) (whole Signature.classSignature) := by
  have hend := (anyClass_follows hk).toEnd
  unfold whole at hend ⊢
  unfold Signature.classSignature
  simp only [bind_assoc]
  refine (typeParameterList_follows hk).bind fun ps => ?_
  dsimp only
  refine (anyClass_follows hk).bind fun superclass => ?_
  intro s
  refine (hend.map _ s).congr ?_
  simp only [bind_assoc]
  rfl

end

theorem parse_of_follows {run : Run α} {read : List Char → Except Fault α}
    (h : Follows 0 run (whole read)) (text : String) :
    parse run text = .ok (Signature.parse read text) := by
  unfold parse Signature.parse
  rw [h]
  unfold whole
  cases read text.toList <;> rfl

/-- The calls of the readers are not nested more deeply than a constant allows, however long the
text is. With that many calls or more no reader is trapped, and its answer is the one without
counters. The lists that a reader opens are closed again wherever it stops. -/
theorem parse_withinCallLimit (spare : Nat) :
    (∀ text, parse (methodSignature (callLimit + spare)) text =
        .ok (MethodSignature.parse text)) ∧
      (∀ text, parse (fieldSignature (callLimit + spare)) text =
        .ok (FieldSignature.parse text)) ∧
      (∀ text, parse (classSignature (callLimit + spare)) text =
        .ok (ClassSignature.parse text)) ∧
      ∀ calls, KeepsDepth (arguments calls) := by
  have hk : callLimit ≤ callLimit + spare := Nat.le_add_right _ _
  exact ⟨parse_of_follows (methodSignature_follows hk),
    parse_of_follows (fieldSignature_follows hk),
    parse_of_follows (classSignature_follows hk), fun calls => (keepsDepth calls).2.2.2.1⟩

example : parse (fieldSignature 1) "La;" = .error .outOfCalls := rfl

end NullSafety.Signature.Counted
