import NullSafety.Proofs.ReaderLoops
import NullSafety.Proofs.Reads

namespace NullSafety

open Signature

namespace Reads

variable {α : Type} {P : α → Prop} {print : α → List Char} {p : Reader Fault α}

theorem upTo (hp : Reads p.read (Written P print)) (close : Char) :
    Reads (p.upTo close)
      (Written (∀ a ∈ ·, P a) (fun as => as.flatMap print ++ [close])) where
  spelled := ⟨[], [close], by simp, rfl⟩
  reads s := by
    -- the loop goes on with what an item leaves, so the induction is on the length of the text
    induction hn : s.length using Nat.strongRecOn generalizing s with
    | ind n ih =>
      by_cases hs : s.head? = some close
      · refine ReadsAt.congr (fun t ht => ?_)
          ((expect_bind (c := close) (pure (a := []) ⟨by simp, rfl⟩)).reads s)
        obtain ⟨t, rfl⟩ := List.head?_eq_some_iff.mp (ht.trans hs)
        rw [p.upTo_close, expect_cons]
        rfl
      · refine ReadsAt.congr (fun t ht => p.upTo_of_ne (ht ▸ hs)) ((hp.reads s).bind ?_ ?_)
        · rintro a u ⟨ha, rfl⟩
          exact ⟨[a], [close], by simpa using ha, by simp⟩
        · rintro a u r hr ⟨ha, rfl⟩
          refine (ih r.length (hn ▸ p.shorter hr) r rfl).map (a :: ·) ?_
          rintro as v ⟨has, rfl⟩
          exact ⟨by simpa using ⟨ha, has⟩, by simp⟩

theorem eachAfter (hp : Reads p.read (Written P print)) (mark : Char) :
    Reads (p.eachAfter mark)
      (Written (∀ a ∈ ·, P a) (fun as => as.flatMap (mark :: print ·))) where
  spelled := ⟨[], [], by simp, rfl⟩
  reads s := by
    induction hn : s.length using Nat.strongRecOn generalizing s with
    | ind n ih =>
      by_cases hs : s.head? = some mark
      · refine ReadsAt.congr (fun t ht => ?_) (ReadsAt.expect_bind (c := mark) ?_ fun r hr =>
          (hp.reads r).bind (g := fun x => p.eachAfter mark x.2 >>= fun y =>
            .ok (x.1 :: y.1, y.2)) ?_ ?_)
        · obtain ⟨t, rfl⟩ := List.head?_eq_some_iff.mp (ht.trans hs)
          rw [p.eachAfter_cons, expect_cons]
          rfl
        · obtain ⟨a, u, ha, rfl⟩ := hp.spelled
          exact ⟨[a], print a, by simpa using ha, by simp⟩
        · rintro a u ⟨ha, rfl⟩
          exact ⟨[a], [], by simpa using ha, by simp⟩
        · rintro a u t ht ⟨ha, rfl⟩
          have hl : t.length < n := by
            have := p.shorter ht
            simp [← hn, hr]
            omega
          refine (ih t.length hl t rfl).map (a :: ·) ?_
          rintro as v ⟨has, rfl⟩
          exact ⟨by simpa using ⟨ha, has⟩, by simp⟩
      · exact ReadsAt.congr (fun t ht => p.eachAfter_of_ne (ht ▸ hs))
          ((pure (a := []) ⟨by simp, rfl⟩).reads s)

theorem toEnd (hp : Reads p.read (Written P print)) :
    Reads (whole p.toEnd) (Written (∀ a ∈ ·, P a) (fun as => as.flatMap print)) where
  spelled := ⟨[], [], by simp, rfl⟩
  reads s := by
    induction hn : s.length using Nat.strongRecOn generalizing s with
    | ind n ih =>
      cases s with
      | nil =>
        refine ReadsAt.congr (fun t ht => ?_) ((pure (a := []) ⟨by simp, rfl⟩).reads [])
        rw [List.head?_eq_none_iff.mp ht, whole, p.toEnd_nil]
        rfl
      | cons c s =>
        refine ReadsAt.congr (fun t ht => ?_) ((hp.reads (c :: s)).bind
          (g := fun x => whole p.toEnd x.2 >>= fun y => .ok (x.1 :: y.1, y.2)) ?_ ?_)
        · have ht : t ≠ [] := by
            rintro rfl
            cases ht
          rw [whole, p.toEnd_of_ne ht]
          simp only [whole, bind_assoc]
          rfl
        · rintro a u ⟨ha, rfl⟩
          exact ⟨[a], [], by simpa using ha, by simp⟩
        · rintro a u r hr ⟨ha, rfl⟩
          refine (ih r.length (hn ▸ p.shorter hr) r rfl).map (a :: ·) ?_
          rintro as v ⟨has, rfl⟩
          exact ⟨by simpa using ⟨ha, has⟩, by simp⟩

theorem someUpTo (hp : Reads p.read (Written P print)) (close : Char) :
    Reads (p.someUpTo close)
      (Written (fun as => as ≠ [] ∧ ∀ a ∈ as, P a) (fun as => as.flatMap print ++ [close])) := by
  refine hp.bind ?_
  rintro a u ⟨ha, rfl⟩
  refine (hp.upTo close).bind ?_
  rintro as v ⟨has, rfl⟩
  exact pure ⟨⟨by simp, by simpa using ⟨ha, has⟩⟩, by simp⟩

theorem ifAt {L : List α → List Char → Prop} {p : Reader Fault (List α)} (hp : Reads p.read L)
    (h : L [] []) (start : Char) : Reads (p.ifAt start) L :=
  ite start hp (pure h)

theorem whole_finish {L : α → List Char → Prop} {a : α} (h : L a []) :
    Reads (whole fun t => finish t >>= fun _ => .ok a) L := by
  apply of_head
  intro o
  cases o with
  | none =>
    refine ⟨_, pure h, fun t ht => ?_⟩
    rw [List.head?_eq_none_iff.mp ht]
    rfl
  | some c =>
    refine ⟨_, fail (fun _ => .trailingData) ⟨a, [], h⟩, fun t ht => ?_⟩
    obtain ⟨t, rfl⟩ := List.head?_eq_some_iff.mp ht
    rfl

end Reads

end NullSafety
