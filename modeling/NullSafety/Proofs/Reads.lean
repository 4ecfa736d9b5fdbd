import NullSafety.Signature.Parser

namespace NullSafety

open Signature

variable {α β : Type} {L M : α → List Char → Prop} {N : β → List Char → Prop} {s : List Char}

/-- How one text is read: what is taken off spells the value, what is taken off in front of a
fault can be completed to a spelling, and of what is left only the first character was seen. -/
structure ReadsAt (f : List Char → Except Fault (α × List Char)) (L : α → List Char → Prop)
    (s : List Char) : Prop where
  ok {a : α} {r : List Char} (h : f s = .ok (a, r)) :
    ∃ u, s = u ++ r ∧ L a u ∧ ∀ t, t.head? = r.head? → f (u ++ t) = .ok (a, t)
  error {e : Fault} (h : f s = .error e) :
    ∃ u, s = u ++ e.rest ∧ (∃ a v, L a (u ++ v)) ∧
      ∀ t, t.head? = e.rest.head? → f (u ++ t) = .error ⟨e.reason, t⟩

structure Reads (f : List Char → Except Fault (α × List Char)) (L : α → List Char → Prop) :
    Prop where
  spelled : ∃ a u, L a u
  reads (s : List Char) : ReadsAt f L s

def whole (f : List Char → Except Fault α) (s : List Char) : Except Fault (α × List Char) :=
  f s >>= fun a => .ok (a, [])

def Written (P : α → Prop) (print : α → List Char) (a : α) (u : List Char) : Prop :=
  P a ∧ u = print a

theorem head?_append_congr {u t r : List Char} (h : t.head? = r.head?) :
    (u ++ t).head? = (u ++ r).head? := by
  rw [List.head?_append, List.head?_append, h]

def unexpectedReason (o : Option Char) : Reason := o.elim .prematureEnd .unexpected

theorem unexpected_eq (s : List Char) : unexpected s = ⟨unexpectedReason s.head?, s⟩ := by
  cases s <;> rfl

theorem expect_cons (c : Char) (s : List Char) : expect c (c :: s) = .ok s := by
  simp [expect]

namespace ReadsAt

theorem mono {f : List Char → Except Fault (α × List Char)} (hf : ReadsAt f L s)
    (h : ∀ a u, L a u → M a u) : ReadsAt f M s where
  ok hs := by
    obtain ⟨u, hu, hL, ht⟩ := hf.ok hs
    exact ⟨u, hu, h _ _ hL, ht⟩
  error hs := by
    obtain ⟨u, hu, ⟨a, v, hL⟩, ht⟩ := hf.error hs
    exact ⟨u, hu, ⟨a, v, h _ _ hL⟩, ht⟩

theorem congr {f g : List Char → Except Fault (α × List Char)}
    (h : ∀ t, t.head? = s.head? → f t = g t) (hg : ReadsAt g L s) : ReadsAt f L s where
  ok hs := by
    rw [h s rfl] at hs
    obtain ⟨u, rfl, hL, ht⟩ := hg.ok hs
    refine ⟨u, rfl, hL, fun t hr => ?_⟩
    rw [h _ (head?_append_congr hr), ht t hr]
  error hs := by
    rw [h s rfl] at hs
    obtain ⟨u, hu, hL, ht⟩ := hg.error hs
    refine ⟨u, hu, hL, fun t hr => ?_⟩
    rw [h _ (by rw [hu]; exact head?_append_congr hr), ht t hr]

theorem bind {f : List Char → Except Fault (α × List Char)}
    {g : α × List Char → Except Fault (β × List Char)} (hf : ReadsAt f L s)
    (hN : ∀ a u, L a u → ∃ b v, N b (u ++ v))
    (hg : ∀ a u r, f s = .ok (a, r) → L a u →
      ReadsAt (fun t => g (a, t)) (fun b v => N b (u ++ v)) r) :
    ReadsAt (fun t => f t >>= g) N s where
  ok h := by
    obtain ⟨⟨a, r⟩, hr, h⟩ := exists_of_bind_eq_ok h
    obtain ⟨u, hu, hL, ht⟩ := hf.ok hr
    obtain ⟨v, rfl, hv, hw⟩ := (hg a u r hr hL).ok h
    refine ⟨u ++ v, by rw [hu, List.append_assoc], hv, fun t he => ?_⟩
    rw [List.append_assoc, ht _ (head?_append_congr he)]
    exact hw t he
  error {e} h := by
    cases hr : f s with
    | error d =>
      have hd : d = e := by simpa [hr, Bind.bind, Except.bind] using h
      subst hd
      obtain ⟨u, hu, ⟨a, v, hL⟩, ht⟩ := hf.error hr
      obtain ⟨b, w, hb⟩ := hN a _ hL
      refine ⟨u, hu, ⟨b, v ++ w, by rwa [List.append_assoc] at hb⟩, fun t he => ?_⟩
      rw [ht t he]
      rfl
    | ok p =>
      obtain ⟨a, r⟩ := p
      rw [hr] at h
      obtain ⟨u, hu, hL, ht⟩ := hf.ok hr
      obtain ⟨v, hv, ⟨b, w, hb⟩, hw⟩ := (hg a u r hr hL).error h
      refine ⟨u ++ v, by rw [hu, hv, List.append_assoc],
        ⟨b, w, by rwa [List.append_assoc]⟩, fun t he => ?_⟩
      rw [List.append_assoc, ht _ (by rw [hv]; exact head?_append_congr he)]
      exact hw t he

theorem pure {a : α} (h : L a []) : ReadsAt (fun t => .ok (a, t)) L s where
  ok hs := by
    cases hs
    exact ⟨[], rfl, h, fun t _ => rfl⟩
  error hs := nomatch hs

theorem map {f : List Char → Except Fault (α × List Char)} (hf : ReadsAt f L s) (k : α → β)
    (h : ∀ a u, L a u → N (k a) u) :
    ReadsAt (fun t => f t >>= fun x => .ok (k x.1, x.2)) N s := by
  have hk (a : α) (u : List Char) (hL : L a u) : N (k a) (u ++ []) := by
    rw [List.append_nil]
    exact h a u hL
  refine hf.bind (fun a u hL => ⟨k a, [], hk a u hL⟩) (fun a u r _ hL => ?_)
  exact pure (L := fun b v => N b (u ++ v)) (a := k a) (hk a u hL)

theorem fail (k : Option Char → Reason) (hL : ∃ a u, L a u) :
    ReadsAt (fun t => .error ⟨k t.head?, t⟩) L s where
  ok h := nomatch h
  error h := by
    cases h
    exact ⟨[], rfl, hL, fun t he => by rw [List.nil_append, he]⟩

theorem expect_bind {c : Char} {g : List Char → Except Fault (β × List Char)}
    (hN : ∃ b v, N b (c :: v))
    (hg : ∀ r, s = c :: r → ReadsAt g (fun b v => N b (c :: v)) r) :
    ReadsAt (fun t => expect c t >>= g) N s := by
  have hc (t : List Char) : expect c (c :: t) >>= g = g t := by
    rw [expect_cons]
    rfl
  by_cases hs : s.head? = some c
  · obtain ⟨r, rfl⟩ := List.head?_eq_some_iff.mp hs
    refine ⟨fun h => ?_, fun h => ?_⟩
    · obtain ⟨u, rfl, hu, ht⟩ := (hg r rfl).ok ((hc r).symm.trans h)
      exact ⟨c :: u, rfl, hu, fun t he => (hc _).trans (ht t he)⟩
    · obtain ⟨u, hr, hu, ht⟩ := (hg r rfl).error ((hc r).symm.trans h)
      exact ⟨c :: u, congrArg (c :: ·) hr, hu, fun t he => (hc _).trans (ht t he)⟩
  · obtain ⟨b, v, hv⟩ := hN
    refine congr (fun t ht => ?_) (fail unexpectedReason ⟨b, _, hv⟩)
    rw [expect, if_neg (ht ▸ hs), unexpected_eq]
    rfl

end ReadsAt

namespace Reads

theorem mono {f : List Char → Except Fault (α × List Char)} (hf : Reads f L)
    (h : ∀ a u, L a u → M a u) : Reads f M where
  spelled := by
    obtain ⟨a, u, hL⟩ := hf.spelled
    exact ⟨a, u, h a u hL⟩
  reads s := (hf.reads s).mono h

theorem bind {f : List Char → Except Fault (α × List Char)}
    {g : α × List Char → Except Fault (β × List Char)} (hf : Reads f L)
    (hg : ∀ a u, L a u → Reads (fun t => g (a, t)) (fun b v => N b (u ++ v))) :
    Reads (fun t => f t >>= g) N where
  spelled := by
    obtain ⟨a, u, hL⟩ := hf.spelled
    obtain ⟨b, v, hN⟩ := (hg a u hL).spelled
    exact ⟨b, u ++ v, hN⟩
  reads s := (hf.reads s).bind (fun a u hL => (hg a u hL).spelled)
    (fun a u r _ hL => (hg a u hL).reads r)

theorem map {f : List Char → Except Fault (α × List Char)} (hf : Reads f L) (k : α → β)
    (h : ∀ a u, L a u → N (k a) u) :
    Reads (fun t => f t >>= fun x => .ok (k x.1, x.2)) N where
  spelled := by
    obtain ⟨a, u, hL⟩ := hf.spelled
    exact ⟨k a, u, h a u hL⟩
  reads s := (hf.reads s).map k h

theorem expect_bind {c : Char} {g : List Char → Except Fault (β × List Char)}
    (hg : Reads g (fun b v => N b (c :: v))) : Reads (fun t => expect c t >>= g) N where
  spelled := by
    obtain ⟨b, v, hN⟩ := hg.spelled
    exact ⟨b, c :: v, hN⟩
  reads _ := ReadsAt.expect_bind hg.spelled (fun r _ => hg.reads r)

theorem pure {a : α} (h : L a []) : Reads (fun t => .ok (a, t)) L where
  spelled := ⟨a, [], h⟩
  reads _ := ReadsAt.pure h

theorem fail (k : Option Char → Reason) (hL : ∃ a u, L a u) :
    Reads (fun t => .error ⟨k t.head?, t⟩) L :=
  ⟨hL, fun _ => ReadsAt.fail k hL⟩

theorem fail_unexpected (hL : ∃ a u, L a u) : Reads (fun t => .error (unexpected t)) L := by
  simp only [unexpected_eq]
  exact fail unexpectedReason hL

/-- A reader may choose what to do by the first character. -/
theorem of_head {f : List Char → Except Fault (α × List Char)}
    (h : ∀ o, ∃ g, Reads g L ∧ ∀ t, t.head? = o → f t = g t) : Reads f L where
  spelled := by
    obtain ⟨g, hg, -⟩ := h none
    exact hg.spelled
  reads s := by
    obtain ⟨g, hg, hf⟩ := h s.head?
    exact (hg.reads s).congr hf

/-- After its first character a text may be read by another reader. -/
theorem after {f g : List Char → Except Fault (α × List Char)} (c : Char)
    (hg : Reads g (fun a v => L a (c :: v))) (h : ∀ t, f (c :: t) = g t) :
    ∃ g, Reads g L ∧ ∀ t, t.head? = some c → f t = g t := by
  refine ⟨_, hg.expect_bind, fun t ht => ?_⟩
  obtain ⟨t, rfl⟩ := List.head?_eq_some_iff.mp ht
  rw [expect_cons]
  exact h t

theorem ite {f g : List Char → Except Fault (α × List Char)} (c : Char) (hf : Reads f L)
    (hg : Reads g L) : Reads (fun t => if t.head? = some c then f t else g t) L := by
  apply of_head
  intro o
  by_cases ho : o = some c
  · exact ⟨f, hf, fun t ht => if_pos (ht.trans ho)⟩
  · exact ⟨g, hg, fun t ht => if_neg (ht ▸ ho)⟩

theorem whole_bind {f : List Char → Except Fault (α × List Char)}
    {g : α × List Char → Except Fault β} (hf : Reads f L)
    (hg : ∀ a u, L a u → Reads (whole fun t => g (a, t)) (fun b v => N b (u ++ v))) :
    Reads (whole fun t => f t >>= g) N := by
  have hwhole : whole (fun t => f t >>= g) = fun t => f t >>= fun x => g x >>= fun b =>
      .ok (b, []) := by
    funext t
    rw [whole, bind_assoc]
  rw [hwhole]
  exact hf.bind hg

theorem whole_map {f : List Char → Except Fault α} (hf : Reads (whole f) L) (k : α → β)
    (h : ∀ a u, L a u → N (k a) u) : Reads (whole fun t => f t >>= fun a => .ok (k a)) N := by
  have hwhole : whole (fun t => f t >>= fun a => .ok (k a)) =
      fun t => whole f t >>= fun x => .ok (k x.1, x.2) := by
    funext t
    simp only [whole, bind_assoc]
    rfl
  rw [hwhole]
  exact hf.map k h

end Reads

end NullSafety
