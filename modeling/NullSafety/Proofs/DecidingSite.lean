import Mathlib.Data.List.Find
import NullSafety.Proofs.Recognized

namespace NullSafety

/-- The annotations at a site. One that cannot be looked up has none. -/
def Site.spellings (site : Site) : List String := site.annotations.toOption.getD []

def Site.missing (site : Site) : List ClassName :=
  if site.annotations.isOk = false then [site.carrier] else []

theorem Site.spellings_ok (scope : Scope) (label : String) (carrier : ClassName)
    (ss : List String) : Site.spellings ⟨scope, label, carrier, .ok ss⟩ = ss := rfl

theorem Site.missing_ok (scope : Scope) (label : String) (carrier : ClassName)
    (ss : List String) : Site.missing ⟨scope, label, carrier, .ok ss⟩ = [] := rfl

namespace AnnotationTable

theorem known_eq_nil_of_recognized {t : AnnotationTable} {ss : List String}
    (h : t.recognized ss = []) : t.known ss = [] := by
  have hmap := t.map_fst_recognized ss
  rw [h] at hmap
  exact distinctNames_eq_nil.mp hmap.symm

structure Decides (t : AnnotationTable) (site : Site) (res : Resolution) : Prop where
  scope : res.scope = site.scope
  nullness : (t.known site.spellings).head?.bind t.nullnessOf? = some res.nullness
  conflicts : res.conflicts =
    if 1 < (distinctNames (t.known site.spellings)).length then
      [⟨site.scope, site.label, distinctNames (t.known site.spellings), res.nullness⟩]
    else []

theorem resolve_of_known {t : AnnotationTable} {site : Site} {sites : List Site}
    (h : t.known site.spellings ≠ []) :
    t.Decides site (t.resolve (site :: sites)) ∧ (t.resolve (site :: sites)).missing = [] := by
  obtain ⟨scope, label, carrier, annotations⟩ := site
  cases annotations with
  | error e => exact absurd rfl h
  | ok ss =>
    have hnames := t.map_fst_recognized ss
    have hhead := t.head?_recognized ss
    rw [Site.spellings_ok] at h
    match hrec : t.recognized ss with
    | [] => exact absurd (known_eq_nil_of_recognized hrec) h
    | [(s, n)] =>
      rw [hrec] at hnames hhead
      have hres : t.resolve (⟨scope, label, carrier, .ok ss⟩ :: sites) = ⟨n, scope, [], []⟩ := by
        simp only [resolve, hrec]
      rw [hres]
      refine ⟨⟨rfl, by rw [Site.spellings_ok, ← hhead]; rfl, ?_⟩, rfl⟩
      rw [Site.spellings_ok, ← hnames]
      rfl
    | (s, n) :: b :: more =>
      rw [hrec] at hnames hhead
      have hres : t.resolve (⟨scope, label, carrier, .ok ss⟩ :: sites) =
          ⟨n, scope, [⟨scope, label, s :: (b :: more).map Prod.fst, n⟩], []⟩ := by
        simp only [resolve, hrec]
      rw [hres]
      refine ⟨⟨rfl, by rw [Site.spellings_ok, ← hhead]; rfl, ?_⟩, rfl⟩
      rw [Site.spellings_ok, ← hnames, if_pos (by simp)]
      rfl

theorem resolve_of_silent {t : AnnotationTable} {site : Site} {sites : List Site}
    (h : t.known site.spellings = []) :
    t.resolve (site :: sites) =
      { t.resolve sites with missing := site.missing ++ (t.resolve sites).missing } := by
  obtain ⟨scope, label, carrier, annotations⟩ := site
  cases annotations with
  | error e => rfl
  | ok ss =>
    have hrec : t.recognized ss = [] := by
      have hmap := t.map_fst_recognized ss
      rw [show t.known ss = [] from h] at hmap
      exact List.map_eq_nil_iff.mp hmap
    simp only [resolve, hrec]
    rfl

/-- Sites without a recognized annotation are passed over. -/
theorem decides_of_find? {t : AnnotationTable} {sites : List Site} {site : Site}
    (h : (sites.find? fun s => t.known s.spellings ≠ []) = some site) :
    t.Decides site (t.resolve sites) := by
  induction sites with
  | nil => cases h
  | cons s sites ih =>
    by_cases hs : t.known s.spellings = []
    · rw [List.find?_cons_of_neg (by simpa using hs)] at h
      obtain ⟨hscope, hnullness, hconflicts⟩ := ih h
      rw [resolve_of_silent hs]
      exact ⟨hscope, hnullness, hconflicts⟩
    · rw [List.find?_cons_of_pos (by simpa using hs)] at h
      cases h
      exact (resolve_of_known hs).1

theorem resolve_of_find?_eq_none {t : AnnotationTable} {sites : List Site}
    (h : (sites.find? fun s => t.known s.spellings ≠ []) = none) :
    t.resolve sites = { Resolution.none with missing := (t.resolve sites).missing } := by
  induction sites with
  | nil => rfl
  | cons s sites ih =>
    rw [List.find?_eq_none] at h
    have hs : t.known s.spellings = [] := by simpa using h s (by simp)
    have hrest := ih (List.find?_eq_none.mpr fun u hu => h u (by simp [hu]))
    rw [resolve_of_silent hs, hrest]

theorem scope_resolve (t : AnnotationTable) (sites : List Site) :
    (t.resolve sites).scope = .nowhere ∨ ∃ site ∈ sites, (t.resolve sites).scope = site.scope := by
  cases hfind : sites.find? fun s => t.known s.spellings ≠ [] with
  | none =>
    rw [resolve_of_find?_eq_none hfind]
    exact .inl rfl
  | some site =>
    exact .inr ⟨site, List.mem_of_find?_eq_some hfind, (decides_of_find? hfind).scope⟩

/-- The sites behind one that decides are not asked. -/
theorem missing_resolve_cons (t : AnnotationTable) (site : Site) (sites : List Site) :
    (t.resolve (site :: sites)).missing =
      site.missing ++ if t.known site.spellings = [] then (t.resolve sites).missing else [] := by
  split
  · rename_i h
    rw [resolve_of_silent h]
  · rename_i h
    rw [(resolve_of_known h).2]
    obtain ⟨scope, label, carrier, annotations⟩ := site
    cases annotations with
    | error e => exact absurd rfl h
    | ok ss => rw [Site.missing_ok, List.append_nil]

end AnnotationTable

namespace Declaration

/-- What stands on a declaration is about its value: the result of a method, the content of a
field. -/
def onDeclaration (d : Declaration MemberId) (target : Target) (path : List PathStep) :
    List String :=
  match d.member, target, path with
  | .method _, .result, [] | .field _, .field, [] => d.annotations
  | _, _, _ => []

def onType (d : Declaration MemberId) (target : Target) (path : List PathStep) : List String :=
  d.typeAnnotations.filterMap fun a =>
    if a.target = target ∧ a.path = path then some a.spelling else none

theorem onDeclaration_eq (d : Declaration MemberId) (target : Target) (path : List PathStep) :
    d.onDeclaration target path =
      if path = [] ∧ target = d.valueTarget then d.annotations else [] := by
  obtain ⟨member, signature, annotations, types⟩ := d
  cases member with
  | method m => cases target <;> cases path <;> rfl
  | field f => cases target <;> cases path <;> rfl

theorem annotationsAt_eq (d : Declaration MemberId) (target : Target) (path : List PathStep) :
    d.annotationsAt target path = d.onDeclaration target path ++ d.onType target path := by
  rw [annotationsAt, onDeclaration_eq, onType, ← List.filterMap_eq_map, List.filterMap_filter]
  simp

end Declaration

namespace AnnotationSource

/-- The annotations in a scope, in the order of declaration. A class or a package that cannot be
looked up has none. -/
def annotationsIn (source : AnnotationSource) (d : Declaration MemberId) (target : Target)
    (path : List PathStep) : Scope → List String
  | .member => d.onDeclaration target path ++ d.onType target path
  | .owner => (source.classAnnotations d.owner).toOption.getD []
  | .package => (source.packageAnnotations d.owner.package).toOption.getD []
  | .primitive | .nowhere => []

/-- The annotations in a scope that declare something after these insertions. -/
def recognizedIn (source : AnnotationSource) (pairs : List (String × Nullness))
    (d : Declaration MemberId) (target : Target) (path : List PathStep) (scope : Scope) :
    List String :=
  (source.annotationsIn d target path scope).filter fun s =>
    AnnotationTable.Kept pairs (annotationName s)

/-- The places that are asked in vain. The class is asked if the member says nothing, the package
if the class says nothing either. -/
def unavailable (source : AnnotationSource) (pairs : List (String × Nullness))
    (d : Declaration MemberId) (target : Target) (path : List PathStep) : List ClassName :=
  (if source.recognizedIn pairs d target path .member = [] ∧
      (source.classAnnotations d.owner).isOk = false then [d.owner] else []) ++
  (if source.recognizedIn pairs d target path .member = [] ∧
      source.recognizedIn pairs d target path .owner = [] ∧
      (source.packageAnnotations d.owner.package).isOk = false
    then [d.owner.package.info] else [])

section

variable {source : AnnotationSource} {pairs : List (String × Nullness)}
  {d : Declaration MemberId} {target : Target} {path : List PathStep}

theorem recognizedIn_member : source.recognizedIn pairs d target path .member =
    (AnnotationTable.ofList pairs).known (d.annotationsAt target path) := by
  rw [AnnotationTable.known_ofList, d.annotationsAt_eq]
  rfl

theorem recognizedIn_owner : source.recognizedIn pairs d target path .owner =
    (AnnotationTable.ofList pairs).known
      ((source.classAnnotations d.owner).toOption.getD []) :=
  (AnnotationTable.known_ofList ..).symm

theorem recognizedIn_scope {site : Site}
    (h : site ∈ Resolver.sites ⟨source, .ofList pairs⟩ d target path) :
    source.recognizedIn pairs d target path site.scope =
      (AnnotationTable.ofList pairs).known site.spellings := by
  simp only [Resolver.sites, List.mem_cons, List.not_mem_nil, or_false] at h
  obtain rfl | rfl | rfl := h
  · exact recognizedIn_member
  · exact recognizedIn_owner
  · exact (AnnotationTable.known_ofList ..).symm

theorem find?_scope (source : AnnotationSource) (pairs : List (String × Nullness))
    (d : Declaration MemberId) (target : Target) (path : List PathStep) :
    ([.member, .owner, .package].find?
        fun scope => source.recognizedIn pairs d target path scope ≠ []) =
      ((Resolver.sites ⟨source, .ofList pairs⟩ d target path).find?
        fun s => (AnnotationTable.ofList pairs).known s.spellings ≠ []).map Site.scope := by
  have hscopes : [.member, .owner, .package] =
      (Resolver.sites ⟨source, .ofList pairs⟩ d target path).map Site.scope := rfl
  rw [hscopes, List.find?_map]
  congr 1
  apply List.find?_congr
  intro site hsite
  rw [Function.comp_apply, recognizedIn_scope hsite]

theorem missing_sites (source : AnnotationSource) (pairs : List (String × Nullness))
    (d : Declaration MemberId) (target : Target) (path : List PathStep) :
    ((AnnotationTable.ofList pairs).resolve
        (Resolver.sites ⟨source, .ofList pairs⟩ d target path)).missing =
      source.unavailable pairs d target path := by
  -- a site is asked if those in front of it are silent, so there is one case for each silence
  have hend : ((AnnotationTable.ofList pairs).resolve []).missing = [] := rfl
  rw [unavailable, recognizedIn_member, recognizedIn_owner]
  simp only [Resolver.sites, AnnotationTable.missing_resolve_cons, Site.missing_ok,
    Site.spellings_ok, hend, ite_self, List.append_nil, List.nil_append]
  by_cases hm : (AnnotationTable.ofList pairs).known (d.annotationsAt target path) = []
  · simp only [hm, if_true, true_and]
    by_cases ho : (AnnotationTable.ofList pairs).known
        ((source.classAnnotations d.owner).toOption.getD []) = []
    · simp [ho, Site.missing, Site.spellings]
    · simp [ho, Site.missing, Site.spellings]
  · simp [hm]

end

end AnnotationSource

/-- What a resolution says agrees with the annotations on the declaration, its class and its
package, and with the insertions that made the table. -/
structure Resolution.Coherent (res : Resolution) (source : AnnotationSource)
    (pairs : List (String × Nullness)) (d : Declaration MemberId) (target : Target)
    (path : List PathStep) : Prop where
  /-- The nearest scope with a recognized annotation decides. -/
  scope : res.scope = ([.member, .owner, .package].find?
    fun scope => source.recognizedIn pairs d target path scope ≠ []).getD .nowhere
  /-- The first recognized annotation there says what is declared. -/
  nullness : ∀ s, (source.recognizedIn pairs d target path res.scope).head? = some s →
    AnnotationTable.LastInsertion pairs (annotationName s) res.nullness
  undeclared : res.scope = .nowhere ↔ res.nullness = .undeclared
  silent : res.scope = .nowhere ↔ ∀ scope, source.recognizedIn pairs d target path scope = []
  /-- Different names in the deciding scope make a conflict, and there is no other. -/
  conflicts_length : res.conflicts.length ≤ 1
  conflicting : res.conflicts ≠ [] ↔ ∃ a ∈ source.recognizedIn pairs d target path res.scope,
    ∃ b ∈ source.recognizedIn pairs d target path res.scope, annotationName a ≠ annotationName b
  conflict : ∀ c ∈ res.conflicts, c.scope = res.scope ∧ c.chosen = res.nullness ∧
    c.annotations = distinctNames (source.recognizedIn pairs d target path res.scope)
  missing_sublist : res.missing.Sublist [d.owner, d.owner.package.info]
  missing : res.missing = source.unavailable pairs d target path

theorem sublist_pair {α : Type} (p q : Prop) [Decidable p] [Decidable q] (a b : α) :
    ((if p then [a] else []) ++ if q then [b] else []).Sublist [a, b] := by
  have hone (p : Prop) [Decidable p] (a : α) : (if p then [a] else []).Sublist [a] := by
    split
    · exact List.Sublist.refl _
    · exact List.nil_sublist _
  exact (hone p a).append (hone q b)

section

variable {r : Resolver} {d : Declaration MemberId} {target : Target} {path : List PathStep}

theorem Resolver.resolveAt_of_ne (h : (r.resolveAt d target path).scope ≠ .primitive) :
    r.resolveAt d target path = r.table.resolve (r.sites d target path) := by
  unfold resolveAt at h ⊢
  split
  · rename_i hp
    rw [if_pos hp] at h
    exact absurd rfl h
  · rfl

theorem Resolver.scope_ne_primitive (h : d.isPrimitiveAt target path = false) :
    (r.resolveAt d target path).scope ≠ .primitive := by
  rw [resolveAt, if_neg (by simp [h])]
  obtain hscope | ⟨site, hsite, hscope⟩ := r.table.scope_resolve (r.sites d target path)
  · simp [hscope]
  · rw [hscope]
    simp only [sites, List.mem_cons, List.not_mem_nil, or_false] at hsite
    obtain rfl | rfl | rfl := hsite <;> simp

end

section

variable {source : AnnotationSource} {pairs : List (String × Nullness)}
  {d : Declaration MemberId} {target : Target} {path : List PathStep}

theorem Resolution.coherent_of_decides {res : Resolution} {site : Site}
    (hsite : source.recognizedIn pairs d target path site.scope =
      (AnnotationTable.ofList pairs).known site.spellings)
    (hfind : ([.member, .owner, .package].find?
      fun scope => source.recognizedIn pairs d target path scope ≠ []) = some site.scope)
    (hdecides : (AnnotationTable.ofList pairs).Decides site res)
    (hmissing : res.missing = source.unavailable pairs d target path) :
    res.Coherent source pairs d target path := by
  -- what the site says is first put in terms of the insertions and of the deciding scope
  obtain ⟨hscope, hnullness, hconflicts⟩ := hdecides
  rw [← hsite] at hnullness hconflicts
  rw [← hscope] at hfind hnullness hconflicts
  have hne : source.recognizedIn pairs d target path res.scope ≠ [] := by
    simpa using List.find?_some hfind
  obtain ⟨first, hfirst, hvalue⟩ := Option.bind_eq_some_iff.mp hnullness
  obtain ⟨hexplicit, hlast⟩ := AnnotationTable.entries_ofList_eq_some_iff.mp hvalue
  have hnowhere : res.scope ≠ .nowhere := by
    intro h
    rw [h] at hne
    exact hne rfl
  have hdeclared : res.nullness ≠ .undeclared := by
    intro h
    rw [h] at hexplicit
    cases hexplicit
  refine ⟨by rw [hfind]; rfl, ?_, ?_, ?_, ?_, ?_, ?_, ?_, hmissing⟩
  · intro s hs
    cases hfirst.symm.trans hs
    exact hlast
  · exact ⟨fun h => absurd h hnowhere, fun h => absurd h hdeclared⟩
  · exact ⟨fun h => absurd h hnowhere, fun h => absurd (h res.scope) hne⟩
  · rw [hconflicts]
    split <;> simp
  · rw [← one_lt_length_distinctNames, hconflicts]
    split <;> simp_all
  · intro c hc
    rw [hconflicts] at hc
    split at hc
    · rw [List.mem_singleton.mp hc]
      exact ⟨rfl, rfl, rfl⟩
    · cases hc
  · rw [hmissing]
    exact sublist_pair ..

theorem Resolution.coherent_of_silent {missing : List ClassName}
    (hfind : ([.member, .owner, .package].find?
      fun scope => source.recognizedIn pairs d target path scope ≠ []) = .none)
    (hmissing : missing = source.unavailable pairs d target path) :
    Resolution.Coherent { Resolution.none with missing } source pairs d target path := by
  have hsilent (scope : Scope) : source.recognizedIn pairs d target path scope = [] := by
    have h := List.find?_eq_none.mp hfind
    cases scope with
    | member => simpa using h .member (by simp)
    | owner => simpa using h .owner (by simp)
    | package => simpa using h .package (by simp)
    | primitive => rfl
    | nowhere => rfl
  refine ⟨by rw [hfind]; rfl, ?_, ?_, ?_, ?_, ?_, ?_, ?_, hmissing⟩
  · intro s hs
    cases hs
  · exact ⟨fun _ => rfl, fun _ => rfl⟩
  · exact ⟨fun _ => hsilent, fun _ => rfl⟩
  · exact Nat.zero_le 1
  · simp [Resolution.none, hsilent]
  · exact nofun
  · rw [hmissing]
    exact sublist_pair ..

end

theorem resolveAt_coherent {t : AnnotationTable} {pairs : List (String × Nullness)}
    (ht : t.MadeBy pairs) (source : AnnotationSource) (d : Declaration MemberId)
    (target : Target) (path : List PathStep)
    (hp : (Resolver.resolveAt ⟨source, t⟩ d target path).scope ≠ .primitive) :
    (Resolver.resolveAt ⟨source, t⟩ d target path).Coherent source pairs d target path := by
  have hscope := source.find?_scope pairs d target path
  have hmissing := source.missing_sites pairs d target path
  obtain rfl := ht.eq_ofList
  rw [Resolver.resolveAt_of_ne hp]
  cases hfind : (Resolver.sites ⟨source, .ofList pairs⟩ d target path).find?
      fun s => (AnnotationTable.ofList pairs).known s.spellings ≠ [] with
  | none =>
    rw [hfind] at hscope
    rw [AnnotationTable.resolve_of_find?_eq_none hfind]
    exact Resolution.coherent_of_silent hscope hmissing
  | some site =>
    rw [hfind] at hscope
    exact Resolution.coherent_of_decides
      (AnnotationSource.recognizedIn_scope (List.mem_of_find?_eq_some hfind)) hscope
      (AnnotationTable.decides_of_find? hfind) hmissing

/-- One of the annotations is taken back, in another spelling. -/
def sampleEntries : List (String × Nullness) :=
  [("a.Unknown", .nullable), ("a.Nullable", .nullable), ("La/NonNull;", .nonNull),
    ("La/Unknown;", .undeclared)]

/-- A package with two annotations, one of them in two spellings, and with one class that can be
looked up. -/
def samplePackage : Resolver where
  source :=
    { classAnnotations := fun c =>
        if c = ⟨"p/package-info"⟩ then .ok ["La/NonNull;", "a.Nullable", "a/NonNull"]
        else if c = ⟨"p/D"⟩ then .ok ["a.Unknown", "a.Nullable"]
        else .error (.notFound c) }
  table := .ofList sampleEntries

def fieldOf (c : ClassName) : Declaration MemberId :=
  ⟨.field ⟨c, "f", .array (.primitive .int)⟩, none, ["a.Unknown"], []⟩

def sampleField : Declaration MemberId := fieldOf ⟨"p/C"⟩

def sampleMethod : Declaration MemberId where
  member := .method ⟨⟨"p/C"⟩, "m", ⟨[.object ⟨"p/D"⟩], .value (.object ⟨"p/D"⟩)⟩⟩
  signature := none
  annotations := ["a.Unknown", "a.NonNull"]
  typeAnnotations := [⟨.parameter 0, [], "a/Nullable"⟩, ⟨.result, [], "La/Nullable;"⟩]

theorem annotationName_sample :
    annotationName "a.Unknown" = "a/Unknown" ∧ annotationName "La/Unknown;" = "a/Unknown" ∧
      annotationName "a.Nullable" = "a/Nullable" ∧ annotationName "La/Nullable;" = "a/Nullable" ∧
      annotationName "a/Nullable" = "a/Nullable" ∧ annotationName "a.NonNull" = "a/NonNull" ∧
      annotationName "La/NonNull;" = "a/NonNull" ∧ annotationName "a/NonNull" = "a/NonNull" := by
  refine ⟨?_, ?_, ?_, ?_, ?_, ?_, ?_, ?_⟩ <;> exact annotationName_of_toList (by decide)

theorem nullnessOf?_sample (s : String) :
    samplePackage.table.nullnessOf? s =
      if annotationName s = "a/Nullable" then some .nullable
      else if annotationName s = "a/NonNull" then some .nonNull else none := by
  refine (AnnotationTable.entries_ofList sampleEntries (annotationName s)).trans ?_
  simp only [sampleEntries, AnnotationTable.lastInserted?, List.findSomeRev?,
    AnnotationTable.insertedAs?, annotationName_sample, @eq_comm _ _ (annotationName s)]
  by_cases hunknown : annotationName s = "a/Unknown"
  · simp [hunknown, Nullness.isExplicit]
  · by_cases hnonNull : annotationName s = "a/NonNull"
    · simp [hnonNull, Nullness.isExplicit]
    · by_cases hnullable : annotationName s = "a/Nullable"
      · simp [hnullable, Nullness.isExplicit]
      · simp [hunknown, hnonNull, hnullable]

theorem sampleField_places :
    samplePackage.source.classAnnotations sampleField.owner = .error (.notFound ⟨"p/C"⟩) ∧
      sampleField.owner.package.info = ⟨"p/package-info"⟩ ∧
      samplePackage.source.packageAnnotations sampleField.owner.package =
        .ok ["La/NonNull;", "a.Nullable", "a/NonNull"] := by
  have hinfo : sampleField.owner.package.info = ⟨"p/package-info"⟩ := by decide +kernel
  refine ⟨by decide, hinfo, ?_⟩
  simp only [samplePackage, hinfo, if_true]

theorem resolveAt_sampleMethod :
    samplePackage.resolveAt sampleMethod .result [] =
        ⟨.nonNull, .member, [⟨.member, "p/C::m(Lp/D;)Lp/D;", ["a.NonNull", "La/Nullable;"],
          .nonNull⟩], []⟩ ∧
      samplePackage.resolveAt sampleMethod (.parameter 0) [] = ⟨.nullable, .member, [], []⟩ := by
  have hlabel : sampleMethod.member.label = "p/C::m(Lp/D;)Lp/D;" := by decide +kernel
  have hresult : sampleMethod.annotationsAt .result [] =
      ["a.Unknown", "a.NonNull", "La/Nullable;"] := by decide
  have hparameter : sampleMethod.annotationsAt (.parameter 0) [] = ["a/Nullable"] := by decide
  rw [Resolver.resolveAt, if_neg (by decide), Resolver.resolveAt, if_neg (by decide),
    Resolver.sites, Resolver.sites, hlabel, hresult, hparameter]
  simp [AnnotationTable.resolve, AnnotationTable.recognized, AnnotationTable.firstSpellings,
    nullnessOf?_sample, annotationName_sample]

theorem resolveAt_fieldOf :
    samplePackage.resolveAt (fieldOf ⟨"p/D"⟩) .field [] = ⟨.nullable, .owner, [], []⟩ ∧
      samplePackage.resolveAt sampleField .field [] =
        ⟨.nonNull, .package, [⟨.package, "p/package-info", ["La/NonNull;", "a.Nullable"],
          .nonNull⟩], [⟨"p/C"⟩]⟩ := by
  obtain ⟨hclass, hinfo, hpackage⟩ := sampleField_places
  have hfield (c : ClassName) : (fieldOf c).annotationsAt .field [] = ["a.Unknown"] := rfl
  have hfound : samplePackage.source.classAnnotations (fieldOf ⟨"p/D"⟩).owner =
      .ok ["a.Unknown", "a.Nullable"] := by decide
  have howner : sampleField.owner = ⟨"p/C"⟩ := rfl
  have hsample : sampleField.annotationsAt .field [] = ["a.Unknown"] := hfield _
  rw [Resolver.resolveAt, if_neg (by decide), Resolver.resolveAt, if_neg (by decide),
    Resolver.sites, Resolver.sites, hfield, hfound, hsample, hclass, hpackage, hinfo]
  simp [AnnotationTable.resolve, AnnotationTable.recognized, AnnotationTable.firstSpellings,
    nullnessOf?_sample, annotationName_sample, howner]

theorem resolveAt_coherent_sample :
    samplePackage.table.MadeBy sampleEntries ∧
    (samplePackage.resolveAt sampleMethod .result [] =
        ⟨.nonNull, .member, [⟨.member, "p/C::m(Lp/D;)Lp/D;", ["a.NonNull", "La/Nullable;"],
          .nonNull⟩], []⟩ ∧
      (samplePackage.resolveAt sampleMethod .result []).Coherent samplePackage.source
        sampleEntries sampleMethod .result []) ∧
    (samplePackage.resolveAt sampleMethod (.parameter 0) [] = ⟨.nullable, .member, [], []⟩ ∧
      (samplePackage.resolveAt sampleMethod (.parameter 0) []).Coherent samplePackage.source
        sampleEntries sampleMethod (.parameter 0) []) ∧
    (samplePackage.resolveAt (fieldOf ⟨"p/D"⟩) .field [] = ⟨.nullable, .owner, [], []⟩ ∧
      (samplePackage.resolveAt (fieldOf ⟨"p/D"⟩) .field []).Coherent samplePackage.source
        sampleEntries (fieldOf ⟨"p/D"⟩) .field []) ∧
    (samplePackage.resolveAt sampleField .field [] =
        ⟨.nonNull, .package, [⟨.package, "p/package-info", ["La/NonNull;", "a.Nullable"],
          .nonNull⟩], [⟨"p/C"⟩]⟩ ∧
      (samplePackage.resolveAt sampleField .field []).Coherent samplePackage.source
        sampleEntries sampleField .field []) := by
  have ht : samplePackage.table.MadeBy sampleEntries := .ofList _
  have hcoherent (d : Declaration MemberId) (target : Target) (path : List PathStep)
      (hd : d.isPrimitiveAt target path = false) :=
    resolveAt_coherent ht samplePackage.source d target path (Resolver.scope_ne_primitive hd)
  obtain ⟨hresult, hparameter⟩ := resolveAt_sampleMethod
  obtain ⟨hclass, hpackage⟩ := resolveAt_fieldOf
  refine ⟨ht, ⟨hresult, ?_⟩, ⟨hparameter, ?_⟩, ⟨hclass, ?_⟩, ⟨hpackage, ?_⟩⟩
  · exact hcoherent _ _ _ (by decide)
  · exact hcoherent _ _ _ (by decide)
  · exact hcoherent _ _ _ (by decide)
  · exact hcoherent _ _ _ (by decide)

end NullSafety
