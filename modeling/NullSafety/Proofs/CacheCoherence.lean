import NullSafety.Session

namespace NullSafety

/-- What is resolved for a member is read off its class and its package only. -/
theorem Resolver.resolve_congr {r r' : Resolver} {d : Declaration MemberId}
    (ht : r.table = r'.table)
    (hc : r.source.classAnnotations d.owner = r'.source.classAnnotations d.owner)
    (hp : r.source.packageAnnotations d.owner.package =
      r'.source.packageAnnotations d.owner.package) :
    r.resolve d = r'.resolve d := by
  simp only [resolve, resolveAt, sites, ht, hc, hp]

theorem Host.source_congr (h : Host) {t t' : ClassTable} {c : ClassName}
    (hc : t.find c = t'.find c) :
    (h.source t).classAnnotations c = (h.source t').classAnnotations c := by
  cases h with
  | table => simp only [source, ClassTable.source, hc]
  | classFiles corrupted => simp only [source, ClassTable.source, hc]

theorem Host.packageAnnotations_eq (h : Host) (t : ClassTable) (p : PackageName) :
    (h.source t).packageAnnotations p = (h.source t).classAnnotations p.info := by
  cases h <;> rfl

namespace Request

def changes? : Request → Option ClassName
  | insertClass c _ | markEnum c | removeClass c => some c
  | insertPackage p _ => some p.info
  | _ => none

/-- How a change of a class is made known to the cache. The annotations of a package stand on a
class too. -/
def announcing (c : ClassName) : Request :=
  if c ≠ c.package.info then invalidateClass c else invalidatePackage c.package

def announcement? : Request → Option Request
  | insertClass c _ | markEnum c | removeClass c => some (announcing c)
  | insertPackage p _ => some (invalidatePackage p)
  | _ => none

inductive Drops : Request → MemberId → Prop
  | member (m : MemberId) : Drops (invalidateMember m) m
  | owner (m : MemberId) : Drops (invalidateClass m.owner) m
  | package (m : MemberId) : Drops (invalidatePackage m.owner.package) m
  | all (m : MemberId) : Drops clearResolutions m

/-- A class that carries the annotations of a package matters to all members in the package, any
other one to its own members. -/
theorem drops_announcing {c : ClassName} {m : MemberId}
    (h : m.owner = c ∨ m.owner.package.info = c) : (announcing c).Drops m := by
  unfold announcing
  split
  · rename_i hc
    obtain rfl | rfl := h
    · exact .owner m
    · rw [PackageName.package_info] at hc
      exact absurd rfl hc
  · obtain rfl | rfl := h
    · exact .package m
    · rw [PackageName.package_info]
      exact .package m

theorem announcing_info (p : PackageName) : announcing p.info = invalidatePackage p := by
  rw [announcing, PackageName.package_info, if_neg (by simp)]

theorem announcement?_eq (q : Request) : q.announcement? = q.changes?.map announcing := by
  cases q with
  | insertPackage p _ => exact congrArg some (announcing_info p).symm
  | _ => rfl

theorem announcement?_ne_resolveCached (q : Request) (d : Declaration MemberId) :
    q.announcement? ≠ some (resolveCached d) := by
  rw [announcement?_eq]
  intro h
  obtain ⟨c, -, hc⟩ := Option.map_eq_some_iff.mp h
  unfold announcing at hc
  split at hc <;> cases hc

end Request

namespace Session

theorem find_step {s : Session} {q : Request} {c : ClassName} (hq : q.changes? ≠ some c) :
    (s.step q).2.classes.find c = s.classes.find c := by
  cases q with
  | insertClass | markEnum | insertPackage =>
    refine (ClassTable.find_update ..).trans (if_neg ?_)
    rintro rfl
    exact hq rfl
  | removeClass d =>
    refine (ClassTable.find_removeClass ..).trans (if_neg ?_)
    rintro rfl
    exact hq rfl
  | _ => rfl

theorem reply_resolveCached (s : Session) (d : Declaration MemberId) :
    (s.step (.resolveCached d)).1 = .cachedResolution (s.resolutions.resolve s.resolver d).1 :=
  rfl

theorem host_step (s : Session) (q : Request) : (s.step q).2.host = s.host := by
  cases q <;> rfl

/-- A resolution stays as it is, or else the change has an announcement that drops it. -/
theorem resolve_step {s : Session} {q : Request} (ht : (s.step q).2.table = s.table)
    (d : Declaration MemberId) :
    (s.step q).2.resolver.resolve d = s.resolver.resolve d ∨
      ∃ a, q.announcement? = some a ∧ a.Drops d.member := by
  have hhost := s.host_step q
  by_cases hc : q.changes? = some d.owner
  · exact .inr ⟨_, by rw [q.announcement?_eq, hc]; rfl, Request.drops_announcing (.inl rfl)⟩
  by_cases hp : q.changes? = some d.owner.package.info
  · exact .inr ⟨_, by rw [q.announcement?_eq, hp]; rfl, Request.drops_announcing (.inr rfl)⟩
  · refine .inl (Resolver.resolve_congr ht ?_ ?_)
    · simp only [resolver, source, hhost]
      exact s.host.source_congr (find_step hc)
    · simp only [resolver, source, hhost, Host.packageAnnotations_eq]
      exact s.host.source_congr (find_step hp)

/-- What is in the cache after a step has just been computed, or it was there before and has not
been dropped. -/
theorem find?_step {s : Session} {q : Request} {m : MemberId} {e : CachedResolution}
    (h : (s.step q).2.resolutions.memo.find? m = some e) :
    (∃ d, q = .resolveCached d ∧ d.member = m ∧ ⟨d, s.resolver.resolve d⟩ = e) ∨
      (s.resolutions.memo.find? m = some e ∧ ¬ q.Drops m) := by
  cases q with
  | resolveCached d =>
    obtain h | ⟨hm, he⟩ := ResolutionCache.find?_resolve h
    · exact .inr ⟨h, nofun⟩
    · exact .inl ⟨d, rfl, hm, he⟩
  | invalidateMember n =>
    have hfind := (Memo.find?_invalidate s.resolutions.memo n m).symm.trans h
    split at hfind
    · cases hfind
    · rename_i hn
      refine .inr ⟨hfind, ?_⟩
      rintro ⟨⟩
      exact hn (beq_self_eq_true _)
  | invalidateClass | invalidatePackage =>
    have hfind := (Memo.find?_retain s.resolutions.memo _ m).symm.trans h
    obtain ⟨hfind, hkeep⟩ := Option.filter_eq_some_iff.mp hfind
    refine .inr ⟨hfind, ?_⟩
    rintro ⟨⟩
    simp at hkeep
  | clearResolutions => cases (Memo.find?_empty m).symm.trans h
  | _ => exact .inr ⟨h, nofun⟩

theorem table_step (s : Session) {q : Request} (hq : ∀ spelling n, q ≠ .recognize spelling n) :
    (s.step q).2.table = s.table := by
  cases q with
  | recognize spelling n => exact absurd rfl (hq spelling n)
  | _ => rfl

def run (s : Session) (qs : List Request) : Session := qs.foldl (fun s q => (s.step q).2) s

end Session

/-- Each change is announced before the next resolution is asked for. -/
def Announced (qs : List Request) : Prop :=
  ∀ before q between d after, qs = before ++ q :: (between ++ .resolveCached d :: after) →
    ∀ a, q.announcement? = some a → a ∈ between

def Outstanding (done : List Request) (a : Request) : Prop :=
  ∃ before q after, done = before ++ q :: after ∧ q.announcement? = some a ∧ a ∉ after

theorem Outstanding.snoc {done : List Request} {a q : Request} (h : Outstanding done a)
    (hq : a ≠ q) : Outstanding (done ++ [q]) a := by
  obtain ⟨before, p, after, rfl, ha, hafter⟩ := h
  exact ⟨before, p, after ++ [q], by simp, ha, by simp [hafter, hq]⟩

theorem outstanding_of_announcement {q a : Request} (h : q.announcement? = some a)
    (done : List Request) : Outstanding (done ++ [q]) a :=
  ⟨done, q, [], rfl, h, by simp⟩

/-- Each stored resolution is the one that would be computed now, unless a change that concerns
it has not been announced yet. -/
def Session.Coherent (s : Session) (done : List Request) : Prop :=
  ∀ m e, s.resolutions.memo.find? m = some e → e.declaration.member = m ∧
    (e.resolution = s.resolver.resolve e.declaration ∨ ∃ a, Outstanding done a ∧ a.Drops m)

namespace Session

theorem coherent_start (table : AnnotationTable) (classes : ClassTable) (host : Host)
    (done : List Request) : (start table classes host).Coherent done := by
  intro m e h
  cases (Memo.find?_empty m).symm.trans h

theorem Coherent.step {s : Session} {done : List Request} (hs : s.Coherent done) {q : Request}
    (ht : (s.step q).2.table = s.table) : (s.step q).2.Coherent (done ++ [q]) := by
  intro m e h
  obtain ⟨d, rfl, rfl, rfl⟩ | ⟨h, hkept⟩ := find?_step h
  · exact ⟨rfl, .inl rfl⟩
  · obtain ⟨hm, he⟩ := hs m e h
    refine ⟨hm, ?_⟩
    obtain he | ⟨a, ha, hdrops⟩ := he
    · obtain hsame | ⟨a, ha, hdrops⟩ := resolve_step ht e.declaration
      · exact .inl (he.trans hsame.symm)
      · exact .inr ⟨a, outstanding_of_announcement ha done, hm ▸ hdrops⟩
    -- the entry would be gone if this step were the announcement it waits for
    · refine .inr ⟨a, ha.snoc ?_, hdrops⟩
      rintro rfl
      exact hkept hdrops

theorem host_run (s : Session) (qs : List Request) : (s.run qs).host = s.host := by
  induction qs generalizing s with
  | nil => rfl
  | cons q qs ih => exact (ih (s.step q).2).trans (s.host_step q)

theorem table_run (s : Session) {qs : List Request}
    (hqs : ∀ q ∈ qs, ∀ spelling n, q ≠ .recognize spelling n) : (s.run qs).table = s.table := by
  induction qs generalizing s with
  | nil => rfl
  | cons q qs ih =>
    have hrest := ih (s.step q).2 fun p hp => hqs p (by simp [hp])
    exact hrest.trans (s.table_step (hqs q (by simp)))

theorem Coherent.run {s : Session} {done : List Request} (hs : s.Coherent done)
    {qs : List Request} (hqs : ∀ q ∈ qs, ∀ spelling n, q ≠ .recognize spelling n) :
    (s.run qs).Coherent (done ++ qs) := by
  induction qs generalizing s done with
  | nil =>
    rw [List.append_nil]
    exact hs
  | cons q qs ih =>
    have hstep := hs.step (s.table_step (hqs q (by simp)))
    have hrest := ih hstep fun p hp => hqs p (by simp [hp])
    rw [List.append_assoc] at hrest
    exact hrest

end Session

theorem announced_nil : Announced [] := by
  intro before q between d after h
  cases before <;> cases h

theorem Announced.cons {q : Request} {qs : List Request} (hqs : Announced qs)
    (hq : q.announcement? = none) : Announced (q :: qs) := by
  rintro before p between d after h a ha
  cases before with
  | nil =>
    cases h
    cases hq.symm.trans ha
  | cons r before => exact hqs before p between d after (List.cons.inj h).2 a ha

/-- A change may be announced at once. -/
theorem Announced.cons_change {q a : Request} {qs : List Request} (hqs : Announced (a :: qs))
    (hq : q.announcement? = some a) : Announced (q :: a :: qs) := by
  rintro before p between d after h b hb
  cases before with
  | nil =>
    obtain ⟨rfl, h⟩ := List.cons.inj h
    obtain rfl : a = b := Option.some.inj (hq.symm.trans hb)
    cases between with
    | nil =>
      cases h
      exact absurd hq (q.announcement?_ne_resolveCached d)
    | cons _ between =>
      cases h
      exact List.mem_cons_self
  | cons r before => exact hqs before p between d after (List.cons.inj h).2 b hb

theorem Announced.not_outstanding {before after : List Request} {d : Declaration MemberId}
    (h : Announced (before ++ .resolveCached d :: after)) (a : Request) :
    ¬ Outstanding before a := by
  rintro ⟨earlier, q, between, rfl, ha, hbetween⟩
  exact hbetween (h earlier q between d after (by simp) a ha)

/-- With nothing left to announce, a stored answer is as good as a computed one. -/
theorem Session.Coherent.value_resolve {s : Session} {done : List Request} (hs : s.Coherent done)
    (hdone : ∀ a, ¬ Outstanding done a) (d : Declaration MemberId) :
    (s.resolutions.resolve s.resolver d).1.value = s.resolver.resolve d := by
  obtain hvalue | ⟨e, he, rfl, hvalue⟩ := s.resolutions.value_resolve s.resolver d
  · exact hvalue
  · obtain ⟨-, hres | ⟨a, ha, -⟩⟩ := hs _ e he
    · exact hvalue.trans hres
    · exact absurd ha (hdone a)

theorem resolveCached_current (table : AnnotationTable) (classes : ClassTable) (host : Host)
    {qs : List Request} (hfixed : ∀ q ∈ qs, ∀ spelling n, q ≠ .recognize spelling n)
    (hqs : Announced qs) {before after : List Request} {d : Declaration MemberId}
    (h : qs = before ++ .resolveCached d :: after) :
    ∃ r, (((Session.start table classes host).run before).step (.resolveCached d)).1 =
        .cachedResolution r ∧
      r.value = Resolver.resolve
        ⟨host.source ((Session.start table classes host).run before).classes, table⟩ d := by
  subst h
  have hbefore : ∀ q ∈ before, ∀ spelling n, q ≠ .recognize spelling n :=
    fun q hq => hfixed q (List.mem_append_left _ hq)
  have hcoherent := (Session.coherent_start table classes host []).run hbefore
  have hresolver : ((Session.start table classes host).run before).resolver =
      ⟨host.source ((Session.start table classes host).run before).classes, table⟩ := by
    rw [Session.resolver, Session.source, Session.host_run, Session.table_run _ hbefore]
    rfl
  have hvalue := hcoherent.value_resolve hqs.not_outstanding d
  exact ⟨_, Session.reply_resolveCached _ d, hvalue.trans (by rw [hresolver])⟩

def packageTable : AnnotationTable := .insert .empty "a.NonNull" .nonNull

def packageField : Declaration MemberId :=
  ⟨.field ⟨⟨"p/C"⟩, "f", .object ⟨"p/D"⟩⟩, none, [], []⟩

def packageAnnotated : List Request :=
  [.insertPackage ⟨"p"⟩ ["a.NonNull"], .invalidatePackage ⟨"p"⟩]

def packageRemoved : List Request :=
  [.markEnum ⟨"p/C"⟩, .invalidateClass ⟨"p/C"⟩, .removeClass ⟨"p/package-info"⟩,
    .invalidatePackage ⟨"p"⟩]

def packageChanges : List Request :=
  packageAnnotated ++ .resolveCached packageField :: packageRemoved

theorem announced_packageChanges (d : Declaration MemberId) :
    Announced (packageChanges ++ [.resolveCached d]) := by
  have henum : (Request.markEnum ⟨"p/C"⟩).announcement? = some (.invalidateClass ⟨"p/C"⟩) :=
    congrArg some (if_pos (by decide))
  have hremove : (Request.removeClass ⟨"p/package-info"⟩).announcement? =
      some (.invalidatePackage ⟨"p"⟩) := congrArg some (Request.announcing_info ⟨"p"⟩)
  have hlast : Announced [.invalidatePackage ⟨"p"⟩, .resolveCached d] :=
    (announced_nil.cons rfl).cons rfl
  have hmid := ((hlast.cons_change hremove).cons rfl).cons_change henum
  exact ((hmid.cons rfl).cons rfl).cons_change rfl

theorem recognized_packageTable :
    packageTable.recognized ["a.NonNull"] = [("a.NonNull", .nonNull)] := by
  simp [AnnotationTable.recognized, AnnotationTable.firstSpellings, packageTable,
    AnnotationTable.nullnessOf?_insert, Nullness.isExplicit]

theorem resolve_packageField (classes : ClassTable) :
    Resolver.resolve ⟨Host.table.source classes, packageTable⟩ packageField =
      packageTable.resolve
        [⟨.owner, "p/C", ⟨"p/C"⟩, ClassFacts.annotations <$> classes.find ⟨"p/C"⟩⟩,
          ⟨.package, "p/package-info", ⟨"p/package-info"⟩,
            ClassFacts.annotations <$> classes.find ⟨"p/package-info"⟩⟩] := by
  have hinfo : packageField.owner.package.info = ⟨"p/package-info"⟩ := by decide +kernel
  have hmember : packageField.annotationsAt packageField.valueTarget [] = [] := rfl
  rw [Resolver.resolve, Resolver.resolveAt, if_neg (by decide), Resolver.sites, hmember,
    Host.packageAnnotations_eq, hinfo]
  rfl

theorem resolve_packageChanges :
    let annotated := ClassTable.empty.insertPackage ⟨"p"⟩ ["a.NonNull"]
    let removed := ((annotated.markEnum ⟨"p/C"⟩).removeClass ⟨"p/package-info"⟩).2
    Resolver.resolve ⟨Host.table.source annotated, packageTable⟩ packageField =
        ⟨.nonNull, .package, [], [⟨"p/C"⟩]⟩ ∧
      Resolver.resolve ⟨Host.table.source removed, packageTable⟩ packageField =
        ⟨.undeclared, .nowhere, [], [⟨"p/package-info"⟩]⟩ := by
  intro annotated removed
  have hinfo : PackageName.info ⟨"p"⟩ = ⟨"p/package-info"⟩ := by decide +kernel
  have hclass : annotated.find ⟨"p/C"⟩ = .error (.notFound ⟨"p/C"⟩) := by
    refine (ClassTable.find_update ..).trans ?_
    rw [hinfo, if_neg (by decide), ClassTable.find_empty]
  have hpackage : annotated.find ⟨"p/package-info"⟩ = .ok { annotations := ["a.NonNull"] } := by
    refine (ClassTable.find_update ..).trans ?_
    rw [hinfo, if_pos rfl, ClassTable.find_empty]
    rfl
  have henum : removed.find ⟨"p/C"⟩ = .ok { isEnum := true } := by
    rw [ClassTable.find_removeClass, if_neg (by decide)]
    refine (ClassTable.find_update ..).trans ?_
    rw [if_pos rfl, hclass]
    rfl
  have hgone : removed.find ⟨"p/package-info"⟩ = .error (.notFound ⟨"p/package-info"⟩) := by
    rw [ClassTable.find_removeClass, if_pos rfl]
  rw [resolve_packageField, resolve_packageField, hclass, hpackage, henum, hgone]
  constructor
  · simp only [AnnotationTable.resolve, Functor.map, Except.map, recognized_packageTable]
  · rfl

theorem resolveCached_current_package :
    let start := Session.start packageTable .empty .table
    let qs := packageChanges ++ [.resolveCached packageField]
    (∀ q ∈ qs, ∀ spelling n, q ≠ .recognize spelling n) ∧ Announced qs ∧
      (∃ r, ((start.run packageAnnotated).step (.resolveCached packageField)).1 =
          .cachedResolution r ∧
        r.value = ⟨.nonNull, .package, [], [⟨"p/C"⟩]⟩) ∧
      ∃ r, ((start.run packageChanges).step (.resolveCached packageField)).1 =
          .cachedResolution r ∧
        r.value = Resolver.resolve
          ⟨Host.table.source (start.run packageChanges).classes, packageTable⟩ packageField ∧
        r.value = ⟨.undeclared, .nowhere, [], [⟨"p/package-info"⟩]⟩ := by
  intro start qs
  have hfixed : ∀ q ∈ qs, ∀ spelling n, q ≠ .recognize spelling n := by
    simp [qs, packageChanges, packageAnnotated, packageRemoved]
  have hqs : Announced qs := announced_packageChanges packageField
  obtain ⟨hannotated, hremoved⟩ := resolve_packageChanges
  have hfirst : qs = packageAnnotated ++ .resolveCached packageField ::
      (packageRemoved ++ [.resolveCached packageField]) := rfl
  obtain ⟨r, hr, hvalue⟩ := resolveCached_current packageTable .empty .table hfixed hqs hfirst
  obtain ⟨r', hr', hvalue'⟩ := resolveCached_current packageTable .empty .table hfixed hqs rfl
  exact ⟨hfixed, hqs, ⟨r, hr, hvalue.trans hannotated⟩, r', hr', hvalue', hvalue'.trans hremoved⟩

end NullSafety
