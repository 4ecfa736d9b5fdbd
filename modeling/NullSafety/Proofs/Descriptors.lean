import NullSafety.MethodType
import NullSafety.Proofs.TypeReads

namespace NullSafety

open Signature (leadingBrackets_replicate exists_brackets)

/-- A text is read as a value and a rest exactly if it is the text of the value, then the rest. -/
def Inverts {ε α : Type} (read : List Char → Except ε (α × List Char)) (P : α → Prop)
    (print : α → List Char) : Prop :=
  ∀ s a r, read s = .ok (a, r) ↔ P a ∧ s = print a ++ r

namespace Inverts

variable {ε α : Type} {p : Reader ε α} {P : α → Prop} {print : α → List Char}

theorem readsBack (hp : Inverts p.read P print) : ReadsBack p.read P print fun _ => True :=
  fun a ha r _ => (hp _ a r).mpr ⟨ha, rfl⟩

theorem eq_of_upTo (hp : Inverts p.read P print) {close : Char} {s r : List Char} {as : List α}
    (h : p.upTo close s = .ok (as, r)) :
    (∀ a ∈ as, P a) ∧ s = as.flatMap print ++ [close] ++ r := by
  fun_induction Reader.upTo p close s generalizing as r with
  | case1 s hs =>
    cases h
    obtain ⟨t, rfl⟩ := List.head?_eq_some_iff.mp hs
    simp
  | case2 s hs e he => cases h
  | case3 s hs a t ht ih =>
    obtain ⟨⟨bs, u⟩, hu, hb⟩ := exists_of_bind_eq_ok h
    cases hb
    obtain ⟨ha, rfl⟩ := (hp _ _ _).mp ht
    obtain ⟨hbs, rfl⟩ := ih hu
    exact ⟨by simpa using ⟨ha, hbs⟩, by simp⟩

/-- Items in a row are told apart without anything between them. -/
theorem upTo (hp : Inverts p.read P print) (close : Char)
    (hne : ∀ a, P a → ∀ r, (print a ++ r).head? ≠ some close) :
    Inverts (p.upTo close) (∀ a ∈ ·, P a) (fun as => as.flatMap print ++ [close]) := by
  intro s as r
  constructor
  · exact hp.eq_of_upTo
  · rintro ⟨has, rfl⟩
    exact hp.readsBack.upTo close (fun _ => trivial) (fun _ _ _ => trivial) hne as has r trivial

end Inverts

def ClassName.IsWritable (c : ClassName) : Prop :=
  c.binaryName ≠ "" ∧ ';' ∉ c.binaryName.toList

namespace ErasedType

def Valid (t : ErasedType) : Prop :=
  t.dimensions ≤ 255 ∧ ∀ c, t.innermost = .object c → c.IsWritable

theorem descriptorChars_eq (t : ErasedType) :
    t.descriptorChars = List.replicate t.dimensions '[' ++ t.innermost.descriptorChars := by
  induction t with
  | primitive p => rfl
  | object c => rfl
  | array t ih => rw [descriptorChars, ih, dimensions, List.replicate_succ]; rfl

theorem innermost_inArrays_dimensions (t : ErasedType) :
    t.innermost.inArrays t.dimensions = t := by
  induction t with
  | primitive p => rfl
  | object c => rfl
  | array t ih => rw [dimensions, inArrays, innermost, ih]

@[simp] theorem dimensions_innermost (t : ErasedType) : t.innermost.dimensions = 0 := by
  induction t with
  | primitive p => rfl
  | object c => rfl
  | array t ih => exact ih

@[simp] theorem dimensions_inArrays (t : ErasedType) (n : Nat) :
    (t.inArrays n).dimensions = t.dimensions + n := by
  induction n with
  | zero => rfl
  | succ n ih => rw [inArrays, dimensions, ih, Nat.add_assoc]

@[simp] theorem innermost_inArrays (t : ErasedType) (n : Nat) :
    (t.inArrays n).innermost = t.innermost := by
  induction n with
  | zero => rfl
  | succ n ih => rw [inArrays, innermost, ih]

/-- The characters that the text of a type can begin with. -/
theorem exists_descriptorChars (t : ErasedType) :
    ∃ c u, t.descriptorChars = c :: u ∧ c ∈ arrayStarts := by
  cases t with
  | primitive p => exact ⟨p.letter, [], rfl, by cases p <;> decide⟩
  | object c => exact ⟨'L', _, rfl, by decide⟩
  | array t => exact ⟨'[', _, rfl, by decide⟩

theorem head?_descriptorChars_append {c : Char} (hc : c ∉ arrayStarts) (t : ErasedType)
    (r : List Char) : (t.descriptorChars ++ r).head? ≠ some c := by
  obtain ⟨d, u, ht, hd⟩ := t.exists_descriptorChars
  rw [ht]
  rintro h
  cases h
  exact hc hd

theorem head?_innermost_append (t : ErasedType) (r : List Char) :
    (t.innermost.descriptorChars ++ r).head? ≠ some '[' := by
  induction t with
  | primitive p => cases p <;> simp [innermost, descriptorChars, Primitive.letter]
  | object c => simp [innermost, descriptorChars]
  | array t ih => exact ih

theorem eq_of_readInnermost {s r : List Char} {t : ErasedType}
    (h : readInnermost s = .ok (t, r)) :
    t.innermost = t ∧ t.Valid ∧ s = t.descriptorChars ++ r := by
  unfold readInnermost at h
  split at h
  · rename_i s
    dsimp only at h
    split at h
    · cases h
    · rename_i d u hd
      split at h
      · cases h
      · rename_i hn
        cases h
        obtain ⟨hs, hsemi⟩ := eq_of_dropWhile_ne hd
        refine ⟨rfl, ⟨Nat.zero_le _, ?_⟩, ?_⟩
        · rintro c hc
          cases hc
          rw [ClassName.IsWritable, String.toList_ofList]
          exact ⟨mt String.ofList_eq_empty_iff.mp hn, hsemi⟩
        · rw [descriptorChars, String.toList_ofList, List.append_assoc, List.cons_append,
            List.singleton_append, ← hs]
  · rename_i c s hc
    split at h
    · rename_i p hp
      cases h
      refine ⟨rfl, ⟨Nat.zero_le _, fun _ hc => ?_⟩, ?_⟩
      · cases hc
      · rw [Primitive.eq_letter_of_ofLetter? hp]
        rfl
    · cases h
  · cases h

theorem readInnermost_descriptorChars {t : ErasedType} (ht : t.Valid) (r : List Char) :
    readInnermost (t.innermost.descriptorChars ++ r) = .ok (t.innermost, r) := by
  cases hi : t.innermost with
  | primitive p => cases p <;> rfl
  | object c =>
    obtain ⟨hn, hsemi⟩ := ht.2 c hi
    have htext : (object c).descriptorChars ++ r = 'L' :: (c.binaryName.toList ++ ';' :: r) := by
      simp [descriptorChars]
    have hne : c.binaryName.toList ≠ [] := mt String.toList_eq_nil_iff.mp hn
    rw [htext]
    simp only [readInnermost, takeWhile_ne_append hsemi, dropWhile_ne_append hsemi, if_neg hne,
      String.ofList_toList]
  | array u =>
    have hdims := dimensions_innermost t
    rw [hi] at hdims
    cases hdims

/-- Brackets first, and then a type that is no array. -/
theorem read_replicate (n : Nat) {u : List Char} (hu : u.head? ≠ some '[') :
    reader.read (List.replicate n '[' ++ u) =
      if 255 < n then .error .invalid
      else readInnermost u >>= fun x => .ok (x.1.inArrays n, x.2) := by
  simp only [reader, leadingBrackets_replicate n hu]
  split
  · rfl
  · rw [List.drop_left' (List.length_replicate ..)]
    rfl

theorem reader_inverts : Inverts reader.read Valid descriptorChars := by
  intro s t r
  constructor
  · intro h
    obtain ⟨n, u, rfl, hu⟩ := exists_brackets s
    rw [read_replicate n hu] at h
    split at h
    · cases h
    · rename_i hn
      obtain ⟨⟨e, v⟩, he, h⟩ := exists_of_bind_eq_ok h
      cases h
      obtain ⟨hinner, hvalid, rfl⟩ := eq_of_readInnermost he
      have hdims : e.dimensions = 0 := hinner ▸ dimensions_innermost e
      refine ⟨⟨?_, by simpa using hvalid.2⟩, ?_⟩
      · rw [dimensions_inArrays, hdims]
        omega
      · rw [descriptorChars_eq (e.inArrays n), dimensions_inArrays, innermost_inArrays, hinner,
          hdims, Nat.zero_add, List.append_assoc]
  · rintro ⟨ht, rfl⟩
    have hread := readInnermost_descriptorChars ht r
    rw [descriptorChars_eq, List.append_assoc,
      read_replicate t.dimensions (t.head?_innermost_append r), if_neg (by have := ht.1; omega)]
    refine (ok_bind hread).trans ?_
    rw [innermost_inArrays_dimensions]

theorem ofChars_eq_ok {s : List Char} {t : ErasedType} :
    ofChars s = .ok t ↔ t.Valid ∧ s = t.descriptorChars := by
  have hread := reader_inverts s t []
  rw [List.append_nil] at hread
  rw [← hread, ofChars]
  split
  · rename_i u hu
    simp [hu]
  · rename_i hne
    exact ⟨nofun, fun h => absurd h (hne t)⟩

end ErasedType

namespace Return

def Valid : Return ErasedType → Prop
  | value t => t.Valid
  | void => True

theorem ofChars_void : ofChars ['V'] = .ok void := rfl

theorem ofChars_of_ne {s : List Char} (hs : s ≠ ['V']) {t : Return ErasedType} :
    ofChars s = .ok t ↔ ∃ u, ErasedType.ofChars s = .ok u ∧ value u = t := by
  rw [ofChars, if_neg hs]
  cases ErasedType.ofChars s with
  | error e => exact ⟨nofun, nofun⟩
  | ok u =>
    constructor
    · intro h
      cases h
      exact ⟨u, rfl, rfl⟩
    · rintro ⟨v, hv, rfl⟩
      cases hv
      rfl

theorem ofChars_eq_ok {s : List Char} {t : Return ErasedType} :
    ofChars s = .ok t ↔ t.Valid ∧ s = t.descriptorChars := by
  by_cases hs : s = ['V']
  · subst hs
    rw [ofChars_void]
    cases t with
    | void => exact ⟨fun _ => ⟨trivial, rfl⟩, fun _ => rfl⟩
    | value u =>
      -- no type begins with the letter for nothing
      have hne := ErasedType.head?_descriptorChars_append (c := 'V') (by decide) u []
      rw [List.append_nil] at hne
      refine ⟨nofun, fun h => absurd ?_ hne⟩
      exact congrArg List.head? h.2.symm
  · rw [ofChars_of_ne hs]
    cases t with
    | void => exact ⟨nofun, fun h => absurd h.2 hs⟩
    | value u =>
      simp only [value.injEq, exists_eq_right, ErasedType.ofChars_eq_ok]
      rfl

end Return

namespace MethodType

structure Valid (m : MethodType) : Prop where
  parameters : ∀ t ∈ m.parameters, t.Valid
  result : m.result.Valid

theorem ofChars_eq_ok {s : List Char} {m : MethodType} :
    ofChars s = .ok m ↔ m.Valid ∧ s = m.descriptorChars := by
  have hlist := ErasedType.reader_inverts.upTo ')'
    fun t _ => ErasedType.head?_descriptorChars_append (by decide) t
  unfold ofChars
  constructor
  · intro h
    split at h
    · rename_i hs
      obtain ⟨s, rfl⟩ := List.head?_eq_some_iff.mp hs
      obtain ⟨⟨ts, r⟩, hts, h⟩ := exists_of_bind_eq_ok h
      obtain ⟨res, hres, h⟩ := exists_of_bind_eq_ok h
      cases h
      obtain ⟨hvalid, htext⟩ := (hlist _ ts r).mp hts
      obtain ⟨hvalid', rfl⟩ := Return.ofChars_eq_ok.mp hres
      refine ⟨⟨hvalid, hvalid'⟩, ?_⟩
      rw [List.tail_cons] at htext
      simp [descriptorChars, htext]
    · cases h
  · rintro ⟨hm, rfl⟩
    have hts := (hlist _ m.parameters m.result.descriptorChars).mpr ⟨hm.parameters, rfl⟩
    have hres := Return.ofChars_eq_ok.mpr ⟨hm.result, rfl⟩
    rw [List.append_assoc, List.singleton_append] at hts
    exact (if_pos rfl).trans ((ok_bind hts).trans (ok_bind hres))

end MethodType

theorem ofList_eq_and_iff {cs : List Char} {s : String} {p : Prop} :
    String.ofList cs = s ∧ p ↔ p ∧ s.toList = cs := by
  rw [← String.toList_inj, String.toList_ofList, eq_comm, And.comm]

theorem ofDescriptor_eq_ok_iff :
    (∀ s t, ErasedType.ofDescriptor s = .ok t ↔ t.descriptor = s ∧ t.Valid) ∧
    (∀ s t, Return.ofDescriptor s = .ok t ↔ t.descriptor = s ∧ t.Valid) ∧
    (∀ s m, MethodType.ofDescriptor s = .ok m ↔ m.descriptor = s ∧ m.Valid) := by
  refine ⟨fun s t => ?_, fun s t => ?_, fun s m => ?_⟩
  · exact ErasedType.ofChars_eq_ok.trans ofList_eq_and_iff.symm
  · exact Return.ofChars_eq_ok.trans ofList_eq_and_iff.symm
  · exact MethodType.ofChars_eq_ok.trans ofList_eq_and_iff.symm

end NullSafety
