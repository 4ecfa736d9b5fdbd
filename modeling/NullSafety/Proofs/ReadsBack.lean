import NullSafety.Proofs.ReaderLoops

namespace NullSafety

variable {ε α : Type}

/-- Every value of a kind is read off its own text, whatever follows of what may follow. -/
def ReadsBack (read : List Char → Except ε (α × List Char)) (P : α → Prop)
    (print : α → List Char) (Follow : List Char → Prop) : Prop :=
  ∀ a, P a → ∀ r, Follow r → read (print a ++ r) = .ok (a, r)

theorem ok_bind {β : Type} {x : Except ε α} {f : α → Except ε β} {a : α} (h : x = .ok a) :
    x >>= f = f a := by
  rw [h]
  rfl

theorem error_bind {β : Type} {x : Except ε α} {f : α → Except ε β} {e : ε} (h : x = .error e) :
    x >>= f = .error e := by
  rw [h]
  rfl

namespace ReadsBack

variable {p : Reader ε α} {P : α → Prop} {print : α → List Char} {Follow : List Char → Prop}

theorem eachAfter (hp : ReadsBack p.read P print Follow) (mark : Char)
    (hmark : ∀ r, Follow (mark :: r)) :
    ReadsBack (p.eachAfter mark) (∀ a ∈ ·, P a) (fun as => as.flatMap (mark :: print ·))
      (fun r => Follow r ∧ r.head? ≠ some mark) := by
  rintro as has r ⟨hr, hne⟩
  dsimp only at hr hne ⊢
  induction as with
  | nil => exact p.eachAfter_of_ne hne
  | cons a as ih =>
    have hfollow : Follow (as.flatMap (mark :: print ·) ++ r) := by
      cases as with
      | nil => exact hr
      | cons b as => exact hmark _
    have ha := hp a (has a (by simp)) _ hfollow
    have hih := ih fun b hb => has b (by simp [hb])
    rw [List.flatMap_cons, List.append_assoc, List.cons_append, p.eachAfter_of_ok ha, hih]
    rfl

theorem upTo (hp : ReadsBack p.read P print Follow) (close : Char)
    (hclose : ∀ r, Follow (close :: r)) (hnext : ∀ a, P a → ∀ r, Follow (print a ++ r))
    (hne : ∀ a, P a → ∀ r, (print a ++ r).head? ≠ some close) :
    ReadsBack (p.upTo close) (∀ a ∈ ·, P a) (fun as => as.flatMap print ++ [close])
      (fun _ => True) := by
  rintro as has r -
  dsimp only
  induction as with
  | nil => exact p.upTo_close close r
  | cons a as ih =>
    have hpa := has a (by simp)
    have hfollow : Follow (as.flatMap print ++ [close] ++ r) := by
      cases as with
      | nil => exact hclose r
      | cons b as =>
        rw [List.flatMap_cons, List.append_assoc, List.append_assoc]
        exact hnext b (has b (by simp)) _
    have ha := hp a hpa _ hfollow
    have hih := ih fun b hb => has b (by simp [hb])
    rw [List.flatMap_cons, List.append_assoc, List.append_assoc]
    rw [List.append_assoc] at ha hih
    rw [p.upTo_of_ok (hne a hpa _) ha, hih]
    rfl

theorem someUpTo (hp : ReadsBack p.read P print Follow) (close : Char)
    (hclose : ∀ r, Follow (close :: r)) (hnext : ∀ a, P a → ∀ r, Follow (print a ++ r))
    (hne : ∀ a, P a → ∀ r, (print a ++ r).head? ≠ some close) :
    ReadsBack (p.someUpTo close) (fun as => as ≠ [] ∧ ∀ a ∈ as, P a)
      (fun as => as.flatMap print ++ [close]) (fun _ => True) := by
  rintro as ⟨has, hall⟩ r -
  cases as with
  | nil => exact absurd rfl has
  | cons a as =>
    have hlist := hp.upTo close hclose hnext hne (a :: as) hall r trivial
    have hs : ((a :: as).flatMap print ++ [close] ++ r).head? ≠ some close := by
      rw [List.flatMap_cons, List.append_assoc, List.append_assoc]
      exact hne a (hall a (by simp)) _
    rwa [p.upTo_of_ne hs] at hlist

theorem toEnd (hp : ReadsBack p.read P print fun _ => True) {as : List α} (has : ∀ a ∈ as, P a) :
    p.toEnd (as.flatMap print) = .ok as := by
  induction as with
  | nil => exact p.toEnd_nil
  | cons a as ih =>
    have ha := hp a (has a (by simp)) (as.flatMap print) trivial
    have hih := ih fun b hb => has b (by simp [hb])
    rw [List.flatMap_cons, p.toEnd_of_ok ha, hih]
    rfl

end ReadsBack

end NullSafety
