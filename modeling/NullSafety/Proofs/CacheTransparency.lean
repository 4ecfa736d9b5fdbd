import NullSafety.Proofs.CacheCoherence

namespace NullSafety

/-- Annotations play no part in the types of parameters. -/
theorem ParameterTypes.ofDeclarationOrErased_congr {d d' : Declaration MethodId}
    (hm : d.member = d'.member) (hs : d.signature = d'.signature) :
    ofDeclarationOrErased d = ofDeclarationOrErased d' := by
  rw [ofDeclarationOrErased, ofDeclarationOrErased, ofDeclaration, ofDeclaration, hm, hs]

/-- What is stored for a method is right for each declaration of it with the same signature. -/
def ParameterCache.Sound (c : ParameterCache) : Prop :=
  ∀ m e, c.memo.find? m = some e → ∀ d : Declaration MethodId, d.member = m →
    d.signature = e.signature → e.types = .ofDeclarationOrErased d

namespace ParameterCache

theorem sound_empty : empty.Sound := by
  intro m e h
  cases (Memo.find?_empty m).symm.trans h

theorem Sound.typesOf {c : ParameterCache} (hc : c.Sound) (d : Declaration MethodId) :
    (c.typesOf d).2.Sound := by
  intro m e h d' hm hs
  obtain h | ⟨rfl, rfl⟩ := find?_typesOf h
  · exact hc m e h d' hm hs
  · exact ParameterTypes.ofDeclarationOrErased_congr hm.symm hs.symm

theorem Sound.invalidate {c : ParameterCache} (hc : c.Sound) (m : MethodId) :
    (c.invalidate m).2.Sound := by
  intro m' e h
  have hfind := (Memo.find?_invalidate c.memo m m').symm.trans h
  split at hfind
  · cases hfind
  · exact hc m' e hfind

theorem Sound.eq_ofDeclarationOrErased {c : ParameterCache} (hc : c.Sound)
    (d : Declaration MethodId) : (c.typesOf d).1.value = .ofDeclarationOrErased d := by
  obtain hvalue | ⟨e, he, hs, hvalue⟩ := c.value_typesOf d
  · exact hvalue
  · exact hvalue.trans (hc _ e he d rfl hs.symm)

end ParameterCache

inductive Request.Forgets : Request → MethodId → Prop
  | method (m : MethodId) : Forgets (invalidateMethod m) m
  | all (m : MethodId) : Forgets clearParameters m

def Remembered (qs : List Request) (m : MethodId) : Prop :=
  ∃ before d after, qs = before ++ .parameterTypes d :: after ∧ d.member = m ∧
    ∀ q ∈ after, ¬ q.Forgets m

theorem not_remembered_nil (m : MethodId) : ¬ Remembered [] m := by
  rintro ⟨before, d, after, h, -⟩
  cases before <;> cases h

theorem remembered_snoc {qs : List Request} {q : Request} {m : MethodId} :
    Remembered (qs ++ [q]) m ↔
      (∃ d, q = .parameterTypes d ∧ d.member = m) ∨ Remembered qs m ∧ ¬ q.Forgets m := by
  constructor
  · rintro ⟨before, d, after, h, hm, hafter⟩
    -- the request is the last one, or it stands among the earlier ones
    obtain rfl | ⟨after', r, rfl⟩ := after.eq_nil_or_concat
    · obtain ⟨-, hq⟩ := List.append_inj' h rfl
      exact .inl ⟨d, (List.cons.inj hq).1, hm⟩
    · have hsnoc : qs ++ [q] = (before ++ .parameterTypes d :: after') ++ [r] := by
        simpa using h
      obtain ⟨rfl, hq⟩ := List.append_inj' hsnoc rfl
      obtain rfl := (List.cons.inj hq).1
      exact .inr ⟨⟨before, d, after', rfl, hm, fun p hp => hafter p (by simp [hp])⟩,
        hafter q (by simp)⟩
  · rintro (⟨d, rfl, hm⟩ | ⟨⟨before, d, after, rfl, hm, hafter⟩, hq⟩)
    · exact ⟨qs, d, [], rfl, hm, by simp⟩
    · refine ⟨before, d, after ++ [q], by simp, hm, fun p hp => ?_⟩
      obtain hp | hp := List.mem_append.mp hp
      · exact hafter p hp
      · rwa [List.mem_singleton.mp hp]

namespace Session

theorem reply_parameterTypes (s : Session) (d : Declaration MethodId) :
    (s.step (.parameterTypes d)).1 = .parameterTypes (s.parameters.typesOf d).1 :=
  rfl

theorem sound_step {s : Session} (hs : s.parameters.Sound) (q : Request) :
    (s.step q).2.parameters.Sound := by
  cases q with
  | parameterTypes d => exact hs.typesOf d
  | invalidateMethod m => exact hs.invalidate m
  | clearParameters => exact ParameterCache.sound_empty
  | _ => exact hs

theorem isSome_find?_step (s : Session) (q : Request) (m : MethodId) :
    ((s.step q).2.parameters.memo.find? m).isSome ↔
      (∃ d, q = .parameterTypes d ∧ d.member = m) ∨
        (s.parameters.memo.find? m).isSome ∧ ¬ q.Forgets m := by
  have hother (h : ∀ d, q ≠ .parameterTypes d) :
      (∃ d, q = .parameterTypes d ∧ d.member = m) ↔ False := by
    simp [h]
  cases q with
  | parameterTypes d =>
    have hkept : ¬ (Request.parameterTypes d).Forgets m := nofun
    refine (s.parameters.isSome_find?_typesOf d m).trans ?_
    simp [hkept]
  | invalidateMethod n =>
    rw [hother (by simp), false_or]
    change ((s.parameters.memo.invalidate n).2.find? m).isSome ↔ _
    rw [Memo.find?_invalidate]
    by_cases hn : n = m
    · have hdropped : (Request.invalidateMethod n).Forgets m := hn ▸ .method n
      simp [hn, hn ▸ hdropped]
    · have hkept : ¬ (Request.invalidateMethod n).Forgets m := by
        rintro ⟨⟩
        exact hn rfl
      simp [hn, hkept]
  | clearParameters =>
    rw [hother (by simp), false_or]
    change ((Memo.empty : Memo MethodId CachedParameters).find? m).isSome ↔ _
    rw [Memo.find?_empty]
    simp [Request.Forgets.all m]
  | _ =>
    rw [hother (by simp), false_or]
    exact ⟨fun h => ⟨h, nofun⟩, And.left⟩

/-- The parameter types at hand are right, and they are those of the methods that were asked
about and not dropped. -/
structure Recalls (s : Session) (done : List Request) : Prop where
  sound : s.parameters.Sound
  found (m : MethodId) : (s.parameters.memo.find? m).isSome ↔ Remembered done m

theorem recalls_start (table : AnnotationTable) (classes : ClassTable) (host : Host) :
    (start table classes host).Recalls [] where
  sound := ParameterCache.sound_empty
  found m := by
    change ((Memo.empty : Memo MethodId CachedParameters).find? m).isSome ↔ _
    rw [Memo.find?_empty]
    simp [not_remembered_nil m]

theorem Recalls.step {s : Session} {done : List Request} (hs : s.Recalls done) (q : Request) :
    (s.step q).2.Recalls (done ++ [q]) where
  sound := sound_step hs.sound q
  found m := by rw [isSome_find?_step, hs.found, remembered_snoc]

theorem Recalls.run {s : Session} {done : List Request} (hs : s.Recalls done)
    (qs : List Request) : (s.run qs).Recalls (done ++ qs) := by
  induction qs generalizing s done with
  | nil =>
    rw [List.append_nil]
    exact hs
  | cons q qs ih =>
    have hrest := ih (hs.step q)
    rw [List.append_assoc] at hrest
    exact hrest

end Session

/-- After every run the parameter types of a declaration are those that would be computed
without a cache, and there is one entry for each method that was asked about and has not been
dropped since. -/
theorem parameterTypes_transparent (table : AnnotationTable) (classes : ClassTable) (host : Host)
    (qs : List Request) :
    (∀ d, ∃ p, (((Session.start table classes host).run qs).step (.parameterTypes d)).1 =
        .parameterTypes p ∧ p.value = .ofDeclarationOrErased d) ∧
      ∃ ms : List MethodId, ms.Nodup ∧ (∀ m, m ∈ ms ↔ Remembered qs m) ∧
        ((Session.start table classes host).run qs).parameters.size = ms.length := by
  have hrun := (Session.recalls_start table classes host).run qs
  refine ⟨fun d => ⟨_, Session.reply_parameterTypes _ d, hrun.sound.eq_ofDeclarationOrErased d⟩, ?_⟩
  obtain ⟨ms, hnodup, hmem, hsize⟩ :=
    ((Session.start table classes host).run qs).parameters.memo.exists_keys
  exact ⟨ms, hnodup, fun m => (hmem m).trans (hrun.found m), hsize⟩

end NullSafety
