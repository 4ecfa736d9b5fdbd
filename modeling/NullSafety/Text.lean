namespace NullSafety

def utf8Length (s : List Char) : Nat := s.foldr (fun c n => c.utf8Size + n) 0

def leadingBrackets (s : List Char) : Nat := (s.takeWhile (· = '[')).length

/-- The text before the last occurrence of a character, empty if there is none. -/
def beforeLast (c : Char) (s : List Char) : List Char :=
  ((s.reverse.dropWhile (· ≠ c)).drop 1).reverse

def replaceChar (old new : Char) (s : String) : String :=
  s.map fun c => if c = old then new else c

theorem drop_leadingBrackets_length (s : List Char) :
    (s.drop (leadingBrackets s)).length ≤ s.length := by
  rw [List.length_drop]
  omega

/-- A text with a character in it falls apart at the first one. -/
theorem eq_of_dropWhile_ne {c d : Char} {s r : List Char} (h : s.dropWhile (· ≠ c) = d :: r) :
    s = s.takeWhile (· ≠ c) ++ c :: r ∧ c ∉ s.takeWhile (· ≠ c) := by
  have hd : d = c := by
    have hhead := List.head?_dropWhile_not (· ≠ c) s
    rw [h] at hhead
    simpa using hhead
  have hs := List.takeWhile_append_dropWhile (p := (· ≠ c)) (l := s)
  rw [h, hd] at hs
  refine ⟨hs.symm, fun hc => ?_⟩
  have hall := List.all_takeWhile (p := (· ≠ c)) (l := s)
  simpa using List.all_eq_true.mp hall c hc

theorem decide_ne_of_notMem {c : Char} {u : List Char} (hu : c ∉ u) :
    ∀ d ∈ u, decide (d ≠ c) = true := by
  intro d hd
  rw [decide_eq_true_eq]
  rintro rfl
  exact hu hd

theorem takeWhile_ne_append {c : Char} {u : List Char} (hu : c ∉ u) (r : List Char) :
    (u ++ c :: r).takeWhile (· ≠ c) = u := by
  rw [List.takeWhile_append_of_pos (decide_ne_of_notMem hu)]
  simp

theorem dropWhile_ne_append {c : Char} {u : List Char} (hu : c ∉ u) (r : List Char) :
    (u ++ c :: r).dropWhile (· ≠ c) = c :: r := by
  rw [List.dropWhile_append_of_pos (decide_ne_of_notMem hu)]
  simp

theorem getLast?_append_ne {c : Char} {u v : List Char} (hu : u.getLast? ≠ some c)
    (hv : v.getLast? ≠ some c) : (u ++ v).getLast? ≠ some c := by
  rw [List.getLast?_append]
  cases hlast : v.getLast? with
  | none => exact hu
  | some d => rwa [hlast] at hv

/-- Of parts with a character between them, each but the first stands behind the character. -/
theorem intercalate_cons (c : Char) (first : List Char) (more : List (List Char)) :
    [c].intercalate (first :: more) = first ++ more.flatMap (c :: ·) := by
  induction more generalizing first with
  | nil => simp
  | cons next more ih =>
    rw [List.intercalate_cons_cons, ih]
    simp

theorem beforeLast_append {c : Char} {u : List Char} (hu : c ∉ u) (s : List Char) :
    beforeLast c (s ++ c :: u) = s := by
  have hrev : (s ++ c :: u).reverse = u.reverse ++ c :: s.reverse := by simp
  rw [beforeLast, hrev, dropWhile_ne_append (by simpa using hu), List.drop_one, List.tail_cons,
    List.reverse_reverse]

theorem beforeLast_of_notMem {c : Char} {s : List Char} (hs : c ∉ s) : beforeLast c s = [] := by
  have hall := decide_ne_of_notMem (u := s.reverse) (by simpa using hs)
  have hnil : (s.reverse ++ []).dropWhile (· ≠ c) = [] := List.dropWhile_append_of_pos hall
  rw [List.append_nil] at hnil
  rw [beforeLast, hnil]
  rfl

end NullSafety
