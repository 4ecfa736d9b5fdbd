import NullSafety.Memo

namespace NullSafety

namespace Memo

/-- What can be asked of a memo. A computation that fails has no value. -/
inductive Step (κ ν : Type)
  | fetch (k : κ) (isFresh : ν → Bool) (compute : Unit → Option ν)
  | invalidate (k : κ)
  | retain (keep : κ → ν → Bool)
  | clear

inductive Answer (ν : Type)
  | fetched (found : Option (Fetched ν))
  | flag (wasThere : Bool)
  | done

section

variable {κ ν : Type}

def Step.get (k : κ) (compute : Unit → Option ν) : Step κ ν := .fetch k (fun _ => true) compute

def Step.Removes : Step κ ν → κ → ν → Prop
  | fetch .., _, _ => False
  | invalidate l, k, _ => l = k
  | retain keep, k, v => keep k v = false
  | clear, _, _ => True

def Step.Refreshes : Step κ ν → κ → ν → Prop
  | fetch l isFresh compute, k, v => l = k ∧ isFresh v = false ∧ (compute ()).isSome = true
  | invalidate _, _, _ | retain _, _, _ | clear, _, _ => False

/-- Whether a computation was made, be it in vain. -/
def Answer.ran : Answer ν → Bool
  | fetched found => found.all Fetched.isComputed
  | flag _ | done => false

def Answer.value? : Answer ν → Option ν
  | fetched found => found.map Fetched.value
  | flag _ | done => none

end

variable {κ ν : Type} [BEq κ] [Hashable κ]

def step (m : Memo κ ν) : Step κ ν → Answer ν × Memo κ ν
  | .fetch k isFresh compute =>
    (.fetched (m.fetch? k isFresh compute).1, (m.fetch? k isFresh compute).2)
  | .invalidate k => (.flag (m.invalidate k).1, (m.invalidate k).2)
  | .retain keep => (.done, m.retain keep)
  | .clear => (.done, .empty)

def after (m : Memo κ ν) (steps : List (Step κ ν)) : Memo κ ν :=
  steps.foldl (fun m s => (m.step s).2) m

def answers : Memo κ ν → List (Step κ ν) → List (Answer ν)
  | _, [] => []
  | m, s :: steps => (m.step s).1 :: (m.step s).2.answers steps

theorem after_cons (m : Memo κ ν) (s : Step κ ν) (steps : List (Step κ ν)) :
    m.after (s :: steps) = (m.step s).2.after steps := rfl

theorem after_append (m : Memo κ ν) (before later : List (Step κ ν)) :
    m.after (before ++ later) = (m.after before).after later :=
  List.foldl_append

theorem answers_append (m : Memo κ ν) (before later : List (Step κ ν)) :
    m.answers (before ++ later) = m.answers before ++ (m.after before).answers later := by
  induction before generalizing m with
  | nil => rfl
  | cons s before ih => exact congrArg _ (ih (m.step s).2)

def Lacks (m : Memo κ ν) (k : κ) (isFresh : ν → Bool) : Prop :=
  m.find? k = none ∨ ∃ v, m.find? k = some v ∧ isFresh v = false

/-- A computation is made exactly when no stored value will do, and nothing changes but the value
of the key, if there is a new one. -/
structure FetchesOnDemand (m : Memo κ ν) (k : κ) (isFresh : ν → Bool)
    (compute : Unit → Option ν) : Prop where
  ran_iff : (m.step (.fetch k isFresh compute)).1.ran = true ↔ m.Lacks k isFresh
  kept : ∀ v, m.find? k = some v → isFresh v = true →
    m.step (.fetch k isFresh compute) = (.fetched (some (.kept v)), m)
  failed : m.Lacks k isFresh → compute () = none →
    m.step (.fetch k isFresh compute) = (.fetched none, m)
  computed : ∀ v, m.Lacks k isFresh → compute () = some v →
    (m.step (.fetch k isFresh compute)).1 = .fetched (some (.computed v)) ∧
      (m.step (.fetch k isFresh compute)).2.find? k = some v ∧
      ∀ l, l ≠ k → (m.step (.fetch k isFresh compute)).2.find? l = m.find? l

section

variable {m : Memo κ ν} {k : κ} {isFresh : ν → Bool} {compute : Unit → Option ν} {v : ν}

theorem fresh?_eq_some (hv : m.find? k = some v) (hfresh : isFresh v = true) :
    m.fresh? k isFresh = some v :=
  Option.filter_eq_some_iff.mpr ⟨hv, hfresh⟩

theorem Lacks.fresh?_eq_none (h : m.Lacks k isFresh) : m.fresh? k isFresh = none := by
  obtain hnone | ⟨v, hv, hstale⟩ := h
  · rw [fresh?, hnone, Option.filter_none]
  · rw [fresh?, hv, Option.filter_some_neg (by simp [hstale])]

theorem fresh_or_lacks (m : Memo κ ν) (k : κ) (isFresh : ν → Bool) :
    (∃ v, m.find? k = some v ∧ isFresh v = true) ∨ m.Lacks k isFresh := by
  cases hv : m.find? k with
  | none => exact .inr (.inl hv)
  | some v =>
    cases hfresh : isFresh v with
    | true => exact .inl ⟨v, rfl, hfresh⟩
    | false => exact .inr (.inr ⟨v, hv, hfresh⟩)

theorem step_of_fresh (hv : m.find? k = some v) (hfresh : isFresh v = true) :
    m.step (.fetch k isFresh compute) = (.fetched (some (.kept v)), m) := by
  simp only [step, fetch?, fresh?_eq_some hv hfresh]

theorem step_of_failed (h : m.Lacks k isFresh) (hfailed : compute () = none) :
    m.step (.fetch k isFresh compute) = (.fetched none, m) := by
  simp only [step, fetch?, h.fresh?_eq_none, hfailed]

theorem step_of_computed (h : m.Lacks k isFresh) (hv : compute () = some v) :
    m.step (.fetch k isFresh compute) = (.fetched (some (.computed v)), m.store k v) := by
  simp only [step, fetch?, h.fresh?_eq_none, hv]

/-- A stored value will do, or a computation fails, or there is a new value. -/
theorem step_fetch_cases (m : Memo κ ν) (k : κ) (isFresh : ν → Bool)
    (compute : Unit → Option ν) :
    (∃ v, m.find? k = some v ∧ isFresh v = true ∧
      m.step (.fetch k isFresh compute) = (.fetched (some (.kept v)), m)) ∨
    (m.Lacks k isFresh ∧ m.step (.fetch k isFresh compute) = (.fetched none, m)) ∨
    ∃ v, m.Lacks k isFresh ∧ compute () = some v ∧
      m.step (.fetch k isFresh compute) = (.fetched (some (.computed v)), m.store k v) := by
  obtain ⟨v, hv, hfresh⟩ | hlacks := m.fresh_or_lacks k isFresh
  · exact .inl ⟨v, hv, hfresh, step_of_fresh hv hfresh⟩
  · right
    cases hcompute : compute () with
    | none => exact .inl ⟨hlacks, step_of_failed hlacks hcompute⟩
    | some v => exact .inr ⟨v, hlacks, rfl, step_of_computed hlacks hcompute⟩

theorem Lacks.not_fresh (h : m.Lacks k isFresh) (hv : m.find? k = some v) :
    isFresh v = false := by
  obtain hnone | ⟨w, hw, hstale⟩ := h
  · cases hnone.symm.trans hv
  · cases hw.symm.trans hv
    exact hstale

theorem ran_iff_lacks : (m.step (.fetch k isFresh compute)).1.ran = true ↔ m.Lacks k isFresh := by
  obtain ⟨v, hv, hfresh, hstep⟩ | ⟨hlacks, hstep⟩ | ⟨v, hlacks, -, hstep⟩ :=
    m.step_fetch_cases k isFresh compute
  · rw [hstep]
    constructor
    · intro hran
      cases hran
    · intro hlacks
      cases hfresh.symm.trans (hlacks.not_fresh hv)
  · rw [hstep]
    exact ⟨fun _ => hlacks, fun _ => rfl⟩
  · rw [hstep]
    exact ⟨fun _ => hlacks, fun _ => rfl⟩

/-- A failed computation leaves no trace in the memo. -/
theorem step_eq_of_failed (h : (m.step (.fetch k isFresh compute)).1 = .fetched none) :
    m.step (.fetch k isFresh compute) = (.fetched none, m) := by
  obtain ⟨v, -, -, hstep⟩ | ⟨-, hstep⟩ | ⟨v, -, -, hstep⟩ := m.step_fetch_cases k isFresh compute
  · rw [hstep] at h
    cases h
  · exact hstep
  · rw [hstep] at h
    cases h

variable [LawfulBEq κ]

theorem find?_store_self (m : Memo κ ν) (k : κ) (v : ν) : (m.store k v).find? k = some v := by
  rw [find?_store, if_pos (beq_self_eq_true k)]

theorem find?_store_of_ne {l : κ} (h : l ≠ k) (v : ν) : (m.store k v).find? l = m.find? l := by
  rw [find?_store, if_neg]
  intro hkl
  exact h (eq_of_beq hkl).symm

theorem fetchesOnDemand (m : Memo κ ν) (k : κ) (isFresh : ν → Bool)
    (compute : Unit → Option ν) : m.FetchesOnDemand k isFresh compute where
  ran_iff := ran_iff_lacks
  kept _ hv hfresh := step_of_fresh hv hfresh
  failed hlacks hfailed := step_of_failed hlacks hfailed
  computed v hlacks hv := by
    rw [step_of_computed hlacks hv]
    exact ⟨rfl, m.find?_store_self k v, fun l hl => find?_store_of_ne hl v⟩

/-- What is returned for a key is stored under it. -/
theorem find?_of_value? (h : (m.step (.fetch k isFresh compute)).1.value? = some v) :
    (m.step (.fetch k isFresh compute)).2.find? k = some v := by
  obtain ⟨w, hw, -, hstep⟩ | ⟨-, hstep⟩ | ⟨w, -, -, hstep⟩ := m.step_fetch_cases k isFresh compute
  · rw [hstep] at h ⊢
    exact hw.trans h
  · rw [hstep] at h
    cases h
  · rw [hstep] at h ⊢
    exact (m.find?_store_self k w).trans h

theorem find?_of_removes {s : Step κ ν} (hv : m.find? k = some v) (hs : s.Removes k v) :
    (m.step s).2.find? k = none := by
  cases s with
  | fetch => exact hs.elim
  | invalidate l =>
    have hl : l = k := hs
    subst l
    exact (m.find?_invalidate k k).trans (if_pos (beq_self_eq_true k))
  | retain keep =>
    have hrejected : keep k v = false := hs
    refine (m.find?_retain keep k).trans ?_
    rw [hv, Option.filter_some_neg (by simp [hrejected])]
  | clear => exact find?_empty k

theorem find?_step_fetch {l : κ} (hv : m.find? k = some v)
    (h : ¬ (Step.fetch l isFresh compute).Refreshes k v) :
    (m.step (.fetch l isFresh compute)).2.find? k = some v := by
  obtain ⟨w, -, -, hstep⟩ | ⟨-, hstep⟩ | ⟨w, hlacks, hw, hstep⟩ :=
    m.step_fetch_cases l isFresh compute
  · rwa [hstep]
  · rwa [hstep]
  · rw [hstep]
    by_cases hl : k = l
    -- only a value that will not do is overwritten
    · subst l
      exact absurd ⟨rfl, hlacks.not_fresh hv, by rw [hw]; rfl⟩ h
    · rw [find?_store_of_ne hl, hv]

/-- A stored value stays where it is in a step that neither removes nor refreshes it. -/
theorem find?_step {s : Step κ ν} (hv : m.find? k = some v)
    (hs : ¬ s.Removes k v ∧ ¬ s.Refreshes k v) : (m.step s).2.find? k = some v := by
  obtain ⟨hremoves, hrefreshes⟩ := hs
  cases s with
  | fetch l isFresh compute => exact find?_step_fetch hv hrefreshes
  | invalidate l =>
    have hl : ¬ (l == k) = true := by
      intro hlk
      exact hremoves (eq_of_beq hlk)
    exact (m.find?_invalidate l k).trans ((if_neg hl).trans hv)
  | retain keep =>
    have hkeep : keep k v = true := eq_true_of_ne_false hremoves
    refine (m.find?_retain keep k).trans ?_
    rw [hv, Option.filter_some_pos hkeep]
  | clear => exact absurd trivial hremoves

theorem find?_after {steps : List (Step κ ν)} (hv : m.find? k = some v)
    (hsteps : ∀ s ∈ steps, ¬ s.Removes k v ∧ ¬ s.Refreshes k v) :
    (m.after steps).find? k = some v := by
  induction steps generalizing m with
  | nil => exact hv
  | cons s steps ih =>
    apply ih (find?_step hv (hsteps s List.mem_cons_self))
    intro u hu
    exact hsteps u (List.mem_cons_of_mem s hu)

theorem flag_invalidate (m : Memo κ ν) (k : κ) :
    (m.step (.invalidate k)).1 = .flag (m.find? k).isSome :=
  congrArg Answer.flag Std.HashMap.isSome_getElem?_eq_contains.symm

end

/-- In every run a computation is made exactly when no stored value will do. One that fails might
as well not have been asked for, and a value that was returned stays until it is removed or
refreshed. -/
theorem run_fetchesOnDemand [LawfulBEq κ] (m : Memo κ ν) (before : List (Step κ ν)) (k : κ)
    (isFresh : ν → Bool) (compute : Unit → Option ν) :
    (m.after before).FetchesOnDemand k isFresh compute ∧
    (((m.after before).step (.fetch k isFresh compute)).1 = .fetched none → ∀ later,
      m.answers (before ++ .fetch k isFresh compute :: later) =
          m.answers before ++ .fetched none :: (m.after before).answers later ∧
        m.answers (before ++ later) = m.answers before ++ (m.after before).answers later ∧
        m.after (before ++ .fetch k isFresh compute :: later) = m.after (before ++ later)) ∧
    (∀ v, ((m.after before).step (.fetch k isFresh compute)).1.value? = some v →
      ∀ between, (∀ s ∈ between, ¬ s.Removes k v ∧ ¬ s.Refreshes k v) → ∀ recompute,
        (m.after (before ++ .fetch k isFresh compute :: between)).step (.get k recompute) =
          (.fetched (some (.kept v)), m.after (before ++ .fetch k isFresh compute :: between))) ∧
    (∀ s v, (m.after before).find? k = some v → s.Removes k v →
      ((m.after before).step s).2.find? k = none) ∧
    ((m.after before).step (.invalidate k)).1 = .flag ((m.after before).find? k).isSome := by
  refine ⟨fetchesOnDemand .., fun hfailed later => ?_, fun v hv between hbetween recompute => ?_,
    fun s v hv hs => find?_of_removes hv hs, flag_invalidate ..⟩
  · have hstep := step_eq_of_failed hfailed
    refine ⟨?_, m.answers_append before later, ?_⟩
    · rw [answers_append, answers, hstep]
    · rw [after_append, after_append, after_cons, hstep]
  · apply step_of_fresh _ rfl
    rw [after_append, after_cons]
    exact find?_after (find?_of_value? hv) hbetween

def vainRefreshes : List (Step String Int) :=
  [.fetch "a" (fun v => 5 ≤ v) fun _ => none, .retain fun k _ => k = "a", .invalidate "b"]

theorem run_fetchesOnDemand_vain :
    let first : Step String Int := .get "a" fun _ => some 3
    let memo : Memo String Int := .empty
    (memo.step first).1 = .fetched (some (.computed 3)) ∧
      (∀ s ∈ vainRefreshes, ¬ s.Removes "a" 3 ∧ ¬ s.Refreshes "a" 3) ∧
      ((memo.after [first]).step (.fetch "a" (fun v => 5 ≤ v) fun _ => none)).1 = .fetched none ∧
      ((memo.after (first :: vainRefreshes)).step (.get "a" fun _ => some 7)).1 =
        .fetched (some (.kept 3)) := by
  intro first memo
  have hvain : ∀ s ∈ vainRefreshes, ¬ s.Removes "a" 3 ∧ ¬ s.Refreshes "a" 3 := by
    intro s hs
    simp only [vainRefreshes, List.mem_cons, List.not_mem_nil, or_false] at hs
    obtain rfl | rfl | rfl := hs
    · simp [Step.Removes, Step.Refreshes]
    · simp [Step.Removes, Step.Refreshes]
    · simp [Step.Removes, Step.Refreshes]
  obtain ⟨hfirst, -, hstays, -⟩ := run_fetchesOnDemand memo [] "a" (fun _ => true) fun _ => some 3
  obtain ⟨hcomputed, hstored, -⟩ := hfirst.computed 3 (.inl (find?_empty "a")) rfl
  obtain ⟨hagain, -⟩ := run_fetchesOnDemand memo [first] "a" (fun v => 5 ≤ v) fun _ => none
  refine ⟨hcomputed, hvain, ?_, ?_⟩
  · rw [hagain.failed (.inr ⟨3, hstored, rfl⟩) rfl]
  · exact congrArg Prod.fst (hstays 3 (by rw [hcomputed]; rfl) vainRefreshes hvain _)

end Memo

end NullSafety
