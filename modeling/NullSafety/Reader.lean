namespace NullSafety

/-- A reader takes a value off the front of a text and hands back the rest. What it takes is
never empty, so reading again and again comes to an end. -/
structure Reader (ε α : Type) where
  read : List Char → Except ε (α × List Char)
  shorter {s r : List Char} {a : α} (h : read s = .ok (a, r)) : r.length < s.length

theorem exists_of_bind_eq_ok {ε α β : Type} {x : Except ε α} {f : α → Except ε β} {b : β}
    (h : x >>= f = .ok b) : ∃ a, x = .ok a ∧ f a = .ok b := by
  cases x with
  | error e => cases h
  | ok a => exact ⟨a, rfl, h⟩

namespace Reader

variable {ε α : Type}

def upTo (p : Reader ε α) (close : Char) (s : List Char) : Except ε (List α × List Char) :=
  if s.head? = some close then .ok ([], s.tail)
  else
    match _h : p.read s with
    | .error e => .error e
    | .ok (a, r) => do
      let (as, r) ← p.upTo close r
      return (a :: as, r)
termination_by s.length
decreasing_by exact p.shorter _h

/-- Read items as long as each stands after its own mark. -/
def eachAfter (p : Reader ε α) (mark : Char) (s : List Char) : Except ε (List α × List Char) :=
  if s.head? = some mark then
    match _h : p.read s.tail with
    | .error e => .error e
    | .ok (a, r) => do
      let (as, r) ← p.eachAfter mark r
      return (a :: as, r)
  else .ok ([], s)
termination_by s.length
decreasing_by
  have ht := p.shorter _h
  rw [List.length_tail] at ht
  omega

def toEnd (p : Reader ε α) (s : List Char) : Except ε (List α) :=
  if s = [] then .ok []
  else
    match _h : p.read s with
    | .error e => .error e
    | .ok (a, r) => do
      let as ← p.toEnd r
      return a :: as
termination_by s.length
decreasing_by exact p.shorter _h

def someUpTo (p : Reader ε α) (close : Char) (s : List Char) :
    Except ε (List α × List Char) := do
  let (a, r) ← p.read s
  let (as, r) ← p.upTo close r
  return (a :: as, r)

/-- Read a list if the text begins with its opening character; it is empty otherwise. -/
def ifAt (p : Reader ε (List α)) (start : Char) (s : List Char) :
    Except ε (List α × List Char) :=
  if s.head? = some start then p.read s else .ok ([], s)

theorem upTo_close (p : Reader ε α) (close : Char) (s : List Char) :
    p.upTo close (close :: s) = .ok ([], s) := by
  rw [upTo]
  simp

theorem upTo_of_ok (p : Reader ε α) {close : Char} {s r : List Char} {a : α}
    (hs : s.head? ≠ some close) (h : p.read s = .ok (a, r)) :
    p.upTo close s = (fun q => (a :: q.1, q.2)) <$> p.upTo close r := by
  rw [upTo, if_neg hs]
  split
  · rename_i e he
    rw [h] at he
    cases he
  · rename_i b t ht
    rw [h] at ht
    cases ht
    cases p.upTo close r <;> rfl

theorem upTo_of_error (p : Reader ε α) {close : Char} {s : List Char} {e : ε}
    (hs : s.head? ≠ some close) (h : p.read s = .error e) : p.upTo close s = .error e := by
  rw [upTo, if_neg hs]
  split
  · rename_i d hd
    rw [h] at hd
    cases hd
    rfl
  · rename_i b t ht
    rw [h] at ht
    cases ht

theorem eachAfter_of_ne (p : Reader ε α) {mark : Char} {s : List Char}
    (hs : s.head? ≠ some mark) : p.eachAfter mark s = .ok ([], s) := by
  rw [eachAfter, if_neg hs]

theorem eachAfter_of_ok (p : Reader ε α) {mark : Char} {s r : List Char} {a : α}
    (h : p.read s = .ok (a, r)) :
    p.eachAfter mark (mark :: s) = (fun q => (a :: q.1, q.2)) <$> p.eachAfter mark r := by
  rw [eachAfter, if_pos (List.head?_cons ..)]
  split
  · rename_i e he
    rw [List.tail_cons, h] at he
    cases he
  · rename_i b t ht
    rw [List.tail_cons, h] at ht
    cases ht
    cases p.eachAfter mark r <;> rfl

theorem eachAfter_of_error (p : Reader ε α) {mark : Char} {s : List Char} {e : ε}
    (h : p.read s = .error e) : p.eachAfter mark (mark :: s) = .error e := by
  rw [eachAfter, if_pos (List.head?_cons ..)]
  split
  · rename_i d hd
    rw [List.tail_cons, h] at hd
    cases hd
    rfl
  · rename_i b t ht
    rw [List.tail_cons, h] at ht
    cases ht

theorem toEnd_nil (p : Reader ε α) : p.toEnd [] = .ok [] := by
  rw [toEnd, if_pos rfl]

theorem toEnd_of_ok (p : Reader ε α) {s r : List Char} {a : α}
    (h : p.read s = .ok (a, r)) : p.toEnd s = (a :: ·) <$> p.toEnd r := by
  have hs : s ≠ [] := by
    rintro rfl
    exact absurd (p.shorter h) (by simp)
  rw [toEnd, if_neg hs]
  split
  · rename_i e he
    rw [h] at he
    cases he
  · rename_i b t ht
    rw [h] at ht
    cases ht
    cases p.toEnd r <;> rfl

theorem toEnd_of_error (p : Reader ε α) {s : List Char} {e : ε} (hs : s ≠ [])
    (h : p.read s = .error e) : p.toEnd s = .error e := by
  rw [toEnd, if_neg hs]
  split
  · rename_i d hd
    rw [h] at hd
    cases hd
    rfl
  · rename_i b t ht
    rw [h] at ht
    cases ht

theorem upTo_shorter (p : Reader ε α) (close : Char) {s r : List Char} {as : List α}
    (h : p.upTo close s = .ok (as, r)) : r.length < s.length := by
  fun_induction upTo p close s generalizing as r with
  | case1 s hs =>
    cases h
    cases s with
    | nil => simp at hs
    | cons c s => simp
  | case2 s hs e he => cases h
  | case3 s hs a t ht ih =>
    obtain ⟨⟨bs, u⟩, hu, hb⟩ := exists_of_bind_eq_ok h
    cases hb
    exact Nat.lt_trans (ih hu) (p.shorter ht)

theorem eachAfter_length_le (p : Reader ε α) (mark : Char) {s r : List Char} {as : List α}
    (h : p.eachAfter mark s = .ok (as, r)) : r.length ≤ s.length := by
  fun_induction eachAfter p mark s generalizing as r with
  | case1 s hs e he => cases h
  | case2 s hs a t ht ih =>
    obtain ⟨⟨bs, u⟩, hu, hb⟩ := exists_of_bind_eq_ok h
    cases hb
    have hl := ih hu
    have htail := p.shorter ht
    rw [List.length_tail] at htail
    omega
  | case3 s hs => cases h; exact Nat.le_refl _

theorem someUpTo_shorter (p : Reader ε α) (close : Char) {s r : List Char} {as : List α}
    (h : p.someUpTo close s = .ok (as, r)) : r.length < s.length := by
  obtain ⟨⟨a, t⟩, ht, h⟩ := exists_of_bind_eq_ok h
  obtain ⟨⟨bs, u⟩, hu, h⟩ := exists_of_bind_eq_ok h
  cases h
  exact Nat.lt_trans (upTo_shorter p close hu) (p.shorter ht)

theorem ifAt_length_le (p : Reader ε (List α)) (start : Char) {s r : List Char} {as : List α}
    (h : p.ifAt start s = .ok (as, r)) : r.length ≤ s.length := by
  unfold ifAt at h
  split at h
  · exact Nat.le_of_lt (p.shorter h)
  · cases h; exact Nat.le_refl _

end Reader

end NullSafety
