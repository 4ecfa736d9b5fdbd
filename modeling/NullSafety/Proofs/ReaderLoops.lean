import NullSafety.Reader

namespace NullSafety

namespace Reader

variable {ε α : Type}

theorem upTo_of_ne (p : Reader ε α) {close : Char} {s : List Char} (hs : s.head? ≠ some close) :
    p.upTo close s = p.someUpTo close s := by
  cases h : p.read s with
  | error e => rw [upTo_of_error p hs h, someUpTo, h]; rfl
  | ok x => rw [upTo_of_ok p hs h, someUpTo, h]; rfl

theorem eachAfter_cons (p : Reader ε α) (mark : Char) (s : List Char) :
    p.eachAfter mark (mark :: s) = (p.read s >>= fun x => p.eachAfter mark x.2 >>= fun y =>
      .ok (x.1 :: y.1, y.2)) := by
  cases h : p.read s with
  | error e => rw [eachAfter_of_error p h]; rfl
  | ok x => rw [eachAfter_of_ok p h]; rfl

theorem toEnd_of_ne (p : Reader ε α) {s : List Char} (hs : s ≠ []) :
    p.toEnd s = (p.read s >>= fun x => p.toEnd x.2 >>= fun as => .ok (x.1 :: as)) := by
  cases h : p.read s with
  | error e => rw [toEnd_of_error p hs h]; rfl
  | ok x => rw [toEnd_of_ok p h]; rfl

/-- Readers that only differ at the end of the text, where a list cannot end, read the same
lists. -/
theorem upTo_congr {p q : Reader ε α} {e : ε} (close : Char) (hp : p.read [] = .error e)
    (h : ∀ (k : α × List Char → Except ε (List α × List Char)), (∀ a, k (a, []) = .error e) →
      ∀ s, p.read s >>= k = q.read s >>= k) (s : List Char) :
    p.upTo close s = q.upTo close s := by
  induction hn : s.length using Nat.strongRecOn generalizing s with
  | ind n ih =>
    by_cases hs : s.head? = some close
    · obtain ⟨t, rfl⟩ := List.head?_eq_some_iff.mp hs
      rw [p.upTo_close, q.upTo_close]
    · rw [p.upTo_of_ne hs, q.upTo_of_ne hs, someUpTo, someUpTo, h]
      · cases hq : q.read s with
        | error d => rfl
        | ok x =>
          have hx := ih x.2.length (hn ▸ q.shorter hq) x.2 rfl
          simp only [Bind.bind, Except.bind, hx]
      · intro a
        dsimp only
        rw [p.upTo_of_error (by simp) hp]
        rfl

theorem someUpTo_congr {p q : Reader ε α} {e : ε} (close : Char) (hp : p.read [] = .error e)
    (h : ∀ (k : α × List Char → Except ε (List α × List Char)), (∀ a, k (a, []) = .error e) →
      ∀ s, p.read s >>= k = q.read s >>= k) (s : List Char) :
    p.someUpTo close s = q.someUpTo close s := by
  rw [someUpTo, someUpTo, ← funext (upTo_congr close hp h)]
  apply h
  intro a
  dsimp only
  rw [p.upTo_of_error (by simp) hp]
  rfl

end Reader

end NullSafety
