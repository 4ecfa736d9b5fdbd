import NullSafety.Proofs.ReaderLoops
import NullSafety.Proofs.Reads

namespace NullSafety

open Signature

/-- A text opens so many argument lists more than it closes, and closes none that it has not
opened. -/
structure Nested (depth : Nat) (u : List Char) : Prop where
  count : u.count '<' = u.count '>' + depth
  closing (v w : List Char) (h : u = v ++ w) : v.count '>' ≤ v.count '<'

/-- A text after which a type may begin: it closes the lists it opens, and the brackets that
follow are not added to brackets of its own. -/
structure Settled (u : List Char) : Prop where
  nested : Nested 0 u
  last : u.getLast? ≠ some '['

/-- What is said about the text `u` in front of a fault and the character behind it, with room
for so many argument lists inside each other. -/
def Explained (room : Nat) (u : List Char) (e : Fault) : Prop :=
  match e.reason with
  | .prematureEnd => e.rest = []
  | .unexpected c => e.rest.head? = some c
  | .trailingData => False
  | .tooManyDimensions => e.rest.head? = some '[' ∧
    ∃ w, u = w ++ List.replicate 255 '[' ∧ w.getLast? ≠ some '['
  | .tooDeeplyNested => e.rest.head? = some '<' ∧ Nested room u

/-- How one text is read behind the text `p`: the reader stops behind a settled text, or at a
fault that is explained. -/
structure ExplainsAt {α : Type} (room : Nat) (p : List Char)
    (f : List Char → Except Fault (α × List Char)) (s : List Char) : Prop where
  ok {r : List Char} {a : α} (h : f s = .ok (a, r)) : ∃ u, s = u ++ r ∧ Settled (p ++ u)
  error {e : Fault} (h : f s = .error e) : ∃ u, s = u ++ e.rest ∧ Explained room (p ++ u) e

structure ClosesAt {α : Type} (room : Nat) (close : Char)
    (f : List Char → Except Fault (α × List Char)) (s : List Char) : Prop where
  ok {r : List Char} {a : α} (h : f s = .ok (a, r)) : ∃ u, s = u ++ close :: r ∧ Settled u
  error {e : Fault} (h : f s = .error e) : ∃ u, s = u ++ e.rest ∧ Explained room u e

def Explains {α : Type} (room : Nat) (p : List Char)
    (f : List Char → Except Fault (α × List Char)) : Prop :=
  ∀ s, ExplainsAt room p f s

section

variable {u v : List Char} {j k : Nat}

theorem count_le_of_notMem {x y : List Char} (hu : '>' ∉ u) (h : u = x ++ y) :
    x.count '>' ≤ x.count '<' := by
  have hx : '>' ∉ x := fun hmem => hu (h ▸ List.mem_append_left y hmem)
  rw [List.count_eq_zero.mpr hx]
  exact Nat.zero_le _

namespace Nested

theorem of_notMem (ho : '<' ∉ u) (hc : '>' ∉ u) : Nested 0 u where
  count := by rw [List.count_eq_zero.mpr ho, List.count_eq_zero.mpr hc]
  closing _ _ := count_le_of_notMem hc

theorem opening : Nested 1 ['<'] where
  count := rfl
  closing _ _ := count_le_of_notMem (by decide)

theorem append (hu : Nested j u) (hv : Nested k v) : Nested (j + k) (u ++ v) where
  count := by
    rw [List.count_append, List.count_append, hu.count, hv.count]
    omega
  closing x y h := by
    obtain ⟨z, rfl, rfl⟩ | ⟨z, rfl, -⟩ := List.append_eq_append_iff.mp h
    · have hz := hv.closing z y rfl
      rw [List.count_append, List.count_append, hu.count]
      omega
    · exact hu.closing x z rfl

theorem close (hu : Nested (k + 1) u) : Nested k (u ++ ['>']) where
  count := by
    rw [List.count_append, List.count_append, hu.count]
    simp
    omega
  closing x y h := by
    obtain ⟨z, rfl, hz⟩ | ⟨z, rfl, -⟩ := List.append_eq_append_iff.mp h
    · have hone : z.count '>' ≤ 1 := by
        have hl := congrArg (List.count '>') hz
        rw [List.count_append] at hl
        have hsingle : List.count '>' ['>'] = 1 := rfl
        omega
      rw [List.count_append, List.count_append, hu.count]
      omega
    · exact hu.closing x z rfl

end Nested

namespace Settled

theorem of_notMem (ho : '<' ∉ u) (hc : '>' ∉ u) (hb : '[' ∉ u) : Settled u where
  nested := .of_notMem ho hc
  last h := hb (List.mem_of_getLast? h)

theorem nil : Settled [] := of_notMem (by simp) (by simp) (by simp)

/-- A character behind brackets. -/
theorem brackets (n : Nat) {c : Char} (hc : c ∉ ['<', '>', '[']) :
    Settled (List.replicate n '[' ++ [c]) where
  nested := by
    simp only [List.mem_cons, List.not_mem_nil, or_false, not_or] at hc
    refine .of_notMem ?_ ?_
    · simp [List.mem_replicate, Ne.symm hc.1]
    · simp [List.mem_replicate, Ne.symm hc.2.1]
  last := by
    rw [List.getLast?_concat]
    rintro h
    cases h
    simp at hc

theorem append (hu : Settled u) (hv : Settled v) : Settled (u ++ v) where
  nested := hu.nested.append hv.nested
  last := getLast?_append_ne hu.last hv.last

theorem enclosed (hu : Settled u) : Settled ('<' :: u ++ ['>']) where
  nested := (Nested.opening.append hu.nested).close
  last := by
    rw [List.getLast?_concat]
    decide

end Settled

theorem Explained.append {e : Fault} (hu : Nested j u) (hl : u.getLast? ≠ some '[')
    (hv : Explained k v e) : Explained (j + k) (u ++ v) e := by
  obtain ⟨reason, rest⟩ := e
  cases reason with
  | prematureEnd => exact hv
  | unexpected c => exact hv
  | trailingData => exact hv
  | tooManyDimensions =>
    obtain ⟨hrest, w, rfl, hw⟩ := hv
    exact ⟨hrest, u ++ w, by rw [List.append_assoc], getLast?_append_ne hl hw⟩
  | tooDeeplyNested => exact ⟨hv.1, hu.append hv.2⟩

theorem Settled.explained {e : Fault} (hu : Settled u) (hv : Explained k v e) :
    Explained k (u ++ v) e := by
  have h := hv.append hu.nested hu.last
  rwa [Nat.zero_add] at h

theorem Explained.opened {e : Fault} (hu : Explained k u e) : Explained (k + 1) ('<' :: u) e := by
  have h := hu.append Nested.opening (by simp)
  rwa [Nat.add_comm] at h

theorem explained_unexpected (s : List Char) : Explained k u (unexpected s) := by
  cases s with
  | nil => rfl
  | cons c s => rfl

end

theorem eq_of_bind_eq_error {ε α β : Type} {x : Except ε α} {f : α → Except ε β} {e : ε}
    (h : x >>= f = .error e) : x = .error e ∨ ∃ a, x = .ok a ∧ f a = .error e := by
  cases x with
  | error d =>
    cases h
    exact .inl rfl
  | ok a => exact .inr ⟨a, rfl, h⟩

variable {α β : Type} {room : Nat} {p s : List Char}

namespace ExplainsAt

theorem congr {f g : List Char → Except Fault (α × List Char)} (h : f s = g s)
    (hg : ExplainsAt room p g s) : ExplainsAt room p f s where
  ok hs := hg.ok (h.symm.trans hs)
  error hs := hg.error (h.symm.trans hs)

theorem bind {f : List Char → Except Fault (α × List Char)}
    {g : α × List Char → Except Fault (β × List Char)} (hf : ExplainsAt room p f s)
    (hg : ∀ a r, f s = .ok (a, r) → ExplainsAt room [] (fun t => g (a, t)) r) :
    ExplainsAt room p (fun t => f t >>= g) s where
  ok h := by
    obtain ⟨⟨a, r⟩, hr, hrest⟩ := exists_of_bind_eq_ok h
    obtain ⟨u, hs, hu⟩ := hf.ok hr
    obtain ⟨v, rfl, hv⟩ := (hg a r hr).ok hrest
    refine ⟨u ++ v, by rw [hs, List.append_assoc], ?_⟩
    rw [← List.append_assoc]
    exact hu.append hv
  error h := by
    obtain h | ⟨⟨a, r⟩, hr, hrest⟩ := eq_of_bind_eq_error h
    · exact hf.error h
    · obtain ⟨u, hs, hu⟩ := hf.ok hr
      obtain ⟨v, hv, he⟩ := (hg a r hr).error hrest
      refine ⟨u ++ v, by rw [hs, hv, List.append_assoc], ?_⟩
      rw [← List.append_assoc]
      exact hu.explained he

theorem pure (hp : Settled p) (a : α) : ExplainsAt room p (fun t => .ok (a, t)) s where
  ok h := by
    cases h
    exact ⟨[], rfl, by rwa [List.append_nil]⟩
  error h := nomatch h

theorem map {f : List Char → Except Fault (α × List Char)} (hf : ExplainsAt room p f s)
    (k : α → β) : ExplainsAt room p (fun t => f t >>= fun x => .ok (k x.1, x.2)) s :=
  hf.bind fun a _ _ => pure .nil (k a)

theorem fail_unexpected : ExplainsAt (α := α) room p (fun t => .error (unexpected t)) s where
  ok h := nomatch h
  error h := by
    cases h
    refine ⟨[], ?_, explained_unexpected s⟩
    rw [unexpected_eq]
    rfl

theorem expect_of_ne {c : Char} {g : List Char → Except Fault (β × List Char)}
    (hs : s.head? ≠ some c) : ExplainsAt room p (fun t => expect c t >>= g) s := by
  refine congr ?_ fail_unexpected
  rw [expect, if_neg hs]
  rfl

theorem expect_bind {c : Char} {g : List Char → Except Fault (β × List Char)}
    (hp : Settled (p ++ [c])) (hg : ∀ r, s = c :: r → ExplainsAt room [] g r) :
    ExplainsAt room p (fun t => expect c t >>= g) s := by
  by_cases hs : s.head? = some c
  · obtain ⟨r, rfl⟩ := List.head?_eq_some_iff.mp hs
    have hc : (expect c (c :: r) >>= g) = g r := by
      rw [expect_cons]
      rfl
    refine ⟨fun h => ?_, fun h => ?_⟩
    · obtain ⟨u, hu, hsettled⟩ := (hg r rfl).ok (hc.symm.trans h)
      refine ⟨c :: u, congrArg (c :: ·) hu, ?_⟩
      rw [List.append_cons]
      exact hp.append hsettled
    · obtain ⟨u, hu, he⟩ := (hg r rfl).error (hc.symm.trans h)
      refine ⟨c :: u, congrArg (c :: ·) hu, ?_⟩
      rw [List.append_cons]
      exact hp.explained he
  · exact expect_of_ne hs

end ExplainsAt

namespace Explains

theorem bind {f : List Char → Except Fault (α × List Char)}
    {g : α × List Char → Except Fault (β × List Char)} (hf : Explains room p f)
    (hg : ∀ a, Explains room [] (fun t => g (a, t))) : Explains room p (fun t => f t >>= g) :=
  fun s => (hf s).bind fun a r _ => hg a r

theorem pure (hp : Settled p) (a : α) : Explains room p (fun t => .ok (a, t)) :=
  fun _ => .pure hp a

theorem map {f : List Char → Except Fault (α × List Char)} (hf : Explains room p f) (k : α → β) :
    Explains room p (fun t => f t >>= fun x => .ok (k x.1, x.2)) :=
  fun s => (hf s).map k

theorem fail_unexpected : Explains (α := α) room p (fun t => .error (unexpected t)) :=
  fun _ => .fail_unexpected

theorem expect_bind {c : Char} {g : List Char → Except Fault (β × List Char)}
    (hp : Settled (p ++ [c])) (hg : Explains room [] g) :
    Explains room p (fun t => expect c t >>= g) :=
  fun _ => .expect_bind hp fun r _ => hg r

/-- A reader may choose what to do by the first character. -/
theorem of_head {f : List Char → Except Fault (α × List Char)}
    (h : ∀ o, ∃ g, Explains room p g ∧ ∀ t, t.head? = o → f t = g t) : Explains room p f := by
  intro s
  obtain ⟨g, hg, hf⟩ := h s.head?
  exact (hg s).congr (hf s rfl)

/-- After its first character a text may be read by another reader. -/
theorem after {f g : List Char → Except Fault (α × List Char)} (c : Char)
    (hp : Settled (p ++ [c])) (hg : Explains room [] g) (h : ∀ t, f (c :: t) = g t) :
    ∃ g, Explains room p g ∧ ∀ t, t.head? = some c → f t = g t := by
  refine ⟨_, expect_bind hp hg, fun t ht => ?_⟩
  obtain ⟨t, rfl⟩ := List.head?_eq_some_iff.mp ht
  rw [expect_cons]
  exact h t

theorem ite {f g : List Char → Except Fault (α × List Char)} (c : Char)
    (hf : Explains room p f) (hg : Explains room p g) :
    Explains room p (fun t => if t.head? = some c then f t else g t) := by
  intro s
  by_cases hs : s.head? = some c
  · exact (hf s).congr (if_pos hs)
  · exact (hg s).congr (if_neg hs)

variable {q : Reader Fault α}

theorem eachAfter (hq : Explains room [] q.read) {mark : Char} (hm : Settled [mark]) :
    Explains room [] (q.eachAfter mark) := by
  intro s
  -- the loop goes on with what an item leaves, so the induction is on the length of the text
  induction hn : s.length using Nat.strongRecOn generalizing s with
  | ind n ih =>
    by_cases hs : s.head? = some mark
    · obtain ⟨t, rfl⟩ := List.head?_eq_some_iff.mp hs
      have hread : ExplainsAt room [] (fun t => expect mark t >>= fun t => q.read t >>= fun x =>
          q.eachAfter mark x.2 >>= fun y => .ok (x.1 :: y.1, y.2)) (mark :: t) := by
        refine .expect_bind hm fun r hr => (hq r).bind fun a u hu => ?_
        have hl : u.length < n := by
          obtain rfl := (List.cons.inj hr).2
          have hshorter := q.shorter hu
          rw [List.length_cons] at hn
          omega
        exact (ih u.length hl u rfl).map (a :: ·)
      refine hread.congr ?_
      rw [q.eachAfter_cons, expect_cons]
      rfl
    · exact ExplainsAt.congr (q.eachAfter_of_ne hs) (.pure .nil [])

theorem closesAt_someUpTo_of (hq : Explains room [] q.read) {close : Char}
    (hrest : ∀ a r, q.read s = .ok (a, r) → ClosesAt room close (q.upTo close) r) :
    ClosesAt room close (q.someUpTo close) s where
  ok h := by
    obtain ⟨⟨a, r⟩, hr, h⟩ := exists_of_bind_eq_ok h
    obtain ⟨⟨as, t⟩, ht, h⟩ := exists_of_bind_eq_ok h
    cases h
    obtain ⟨u, hs, hu⟩ := (hq s).ok hr
    obtain ⟨v, rfl, hv⟩ := (hrest a r hr).ok ht
    exact ⟨u ++ v, by rw [hs, List.append_assoc], hu.append hv⟩
  error h := by
    obtain h | ⟨⟨a, r⟩, hr, h⟩ := eq_of_bind_eq_error h
    · exact (hq s).error h
    · obtain h | ⟨⟨as, t⟩, -, h⟩ := eq_of_bind_eq_error h
      · obtain ⟨u, hs, hu⟩ := (hq s).ok hr
        obtain ⟨v, hv, he⟩ := (hrest a r hr).error h
        exact ⟨u ++ v, by rw [hs, hv, List.append_assoc], hu.explained he⟩
      · cases h

theorem closesAt_upTo (hq : Explains room [] q.read) (close : Char) (s : List Char) :
    ClosesAt room close (q.upTo close) s := by
  induction hn : s.length using Nat.strongRecOn generalizing s with
  | ind n ih =>
    by_cases hs : s.head? = some close
    · obtain ⟨t, rfl⟩ := List.head?_eq_some_iff.mp hs
      refine ⟨fun h => ?_, fun h => ?_⟩
      · cases (q.upTo_close close t).symm.trans h
        exact ⟨[], rfl, .nil⟩
      · cases (q.upTo_close close t).symm.trans h
    · have hsome : ClosesAt room close (q.someUpTo close) s :=
        hq.closesAt_someUpTo_of fun a r hr => ih r.length (hn ▸ q.shorter hr) r rfl
      have heq := (q.upTo_of_ne hs).symm
      exact ⟨fun h => hsome.ok (heq.trans h), fun h => hsome.error (heq.trans h)⟩

theorem upTo (hq : Explains room [] q.read) {close : Char} (hc : Settled [close]) :
    Explains room [] (q.upTo close) := by
  intro s
  have hs := hq.closesAt_upTo close s
  refine ⟨fun h => ?_, hs.error⟩
  obtain ⟨u, rfl, hu⟩ := hs.ok h
  exact ⟨u ++ [close], by rw [List.append_assoc]; rfl, hu.append hc⟩

theorem closesAt_someUpTo (hq : Explains room [] q.read) (close : Char) (s : List Char) :
    ClosesAt room close (q.someUpTo close) s :=
  hq.closesAt_someUpTo_of fun _ r _ => hq.closesAt_upTo close r

/-- A list in angle brackets takes one level of the room. -/
theorem enclosed (hq : Explains room [] q.read) :
    Explains (room + 1) [] (fun s => expect '<' s >>= q.someUpTo '>') := by
  intro s
  by_cases hs : s.head? = some '<'
  · obtain ⟨t, rfl⟩ := List.head?_eq_some_iff.mp hs
    have ht := hq.closesAt_someUpTo '>' t
    have hread : (expect '<' ('<' :: t) >>= q.someUpTo '>') = q.someUpTo '>' t := by
      rw [expect_cons]
      rfl
    refine ⟨fun h => ?_, fun h => ?_⟩
    · obtain ⟨u, rfl, hu⟩ := ht.ok (hread.symm.trans h)
      exact ⟨'<' :: u ++ ['>'], by simp, hu.enclosed⟩
    · obtain ⟨u, hu, he⟩ := ht.error (hread.symm.trans h)
      exact ⟨'<' :: u, congrArg ('<' :: ·) hu, he.opened⟩
  · exact .expect_of_ne hs

theorem toEnd_error (hq : Explains room [] q.read) {e : Fault} (h : q.toEnd s = .error e) :
    ∃ u, s = u ++ e.rest ∧ Explained room u e := by
  induction hn : s.length using Nat.strongRecOn generalizing s with
  | ind n ih =>
    by_cases hs : s = []
    · rw [hs, q.toEnd_nil] at h
      cases h
    · rw [q.toEnd_of_ne hs] at h
      obtain h | ⟨⟨a, r⟩, hr, h⟩ := eq_of_bind_eq_error h
      · exact (hq s).error h
      · obtain h | ⟨as, -, h⟩ := eq_of_bind_eq_error h
        · obtain ⟨u, hsu, hu⟩ := (hq s).ok hr
          obtain ⟨v, hv, he⟩ := ih r.length (hn ▸ q.shorter hr) h rfl
          refine ⟨u ++ v, ?_, hu.explained he⟩
          rw [hsu, List.append_assoc, ← hv]
        · cases h

end Explains

end NullSafety
