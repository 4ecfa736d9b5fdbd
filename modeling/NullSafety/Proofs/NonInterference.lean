import NullSafety.Proofs.DecidingSite

namespace NullSafety

def AnnotationTable.names (t : AnnotationTable) (ss : List String) : List String :=
  ((t.known ss).map annotationName).eraseDups

inductive AnnotationTable.SameNames (t : AnnotationTable) :
    Except LookupError (List String) → Except LookupError (List String) → Prop
  | failed (e e' : LookupError) : t.SameNames (.error e) (.error e')
  | found {ss us : List String} (h : t.names ss = t.names us) : t.SameNames (.ok ss) (.ok us)

def Conflict.unspelled (c : Conflict) : Conflict :=
  { c with annotations := c.annotations.map annotationName }

/-- Resolutions that differ in how the annotations of a conflict are spelled, if at all. -/
structure Resolution.SameUpToSpelling (res res' : Resolution) : Prop where
  nullness : res.nullness = res'.nullness
  scope : res.scope = res'.scope
  missing : res.missing = res'.missing
  conflicts : res.conflicts.map Conflict.unspelled = res'.conflicts.map Conflict.unspelled

namespace AnnotationTable

variable {t : AnnotationTable}

theorem names_eq_nil_iff {ss : List String} : t.names ss = [] ↔ t.known ss = [] := by
  rw [names, ← map_distinctNames, List.map_eq_nil_iff, distinctNames_eq_nil]

theorem head?_names (t : AnnotationTable) (ss : List String) :
    (t.names ss).head? = (t.known ss).head?.map annotationName := by
  unfold names
  cases t.known ss with
  | nil => rfl
  | cons s ss =>
    rw [List.map_cons, List.eraseDups_cons]
    rfl

theorem head?_known_bind (t : AnnotationTable) (ss : List String) :
    (t.known ss).head?.bind t.nullnessOf? = (t.names ss).head?.bind (t.entries[·]?) := by
  rw [head?_names, Option.bind_map]
  rfl

theorem Decides.conflicts_unspelled {site : Site} {res : Resolution} (h : t.Decides site res) :
    res.conflicts.map Conflict.unspelled =
      if 1 < (t.names site.spellings).length then
        [⟨site.scope, site.label, t.names site.spellings, res.nullness⟩]
      else [] := by
  have hlength : (t.names site.spellings).length =
      (distinctNames (t.known site.spellings)).length := by
    rw [names, ← map_distinctNames, List.length_map]
  rw [h.conflicts, hlength]
  split
  · rw [List.map_singleton, Conflict.unspelled, map_distinctNames]
    rfl
  · rfl

theorem SameNames.refl (t : AnnotationTable) (a : Except LookupError (List String)) :
    t.SameNames a a := by
  cases a with
  | error e => exact .failed e e
  | ok ss => exact .found rfl

theorem SameNames.symm {a b : Except LookupError (List String)} (h : t.SameNames a b) :
    t.SameNames b a := by
  cases h with
  | failed e e' => exact .failed e' e
  | found h => exact .found h.symm

theorem SameNames.trans {a b c : Except LookupError (List String)} (h : t.SameNames a b)
    (h' : t.SameNames b c) : t.SameNames a c := by
  cases h with
  | failed e _ =>
    cases h' with
    | failed _ e' => exact .failed e e'
  | found h =>
    cases h' with
    | found h' => exact .found (h.trans h')

theorem SameNames.names_eq {a b : Except LookupError (List String)} (h : t.SameNames a b) :
    t.names (a.toOption.getD []) = t.names (b.toOption.getD []) := by
  cases h with
  | failed e e' => rfl
  | found h => exact h

theorem SameNames.isOk_eq {a b : Except LookupError (List String)} (h : t.SameNames a b) :
    a.isOk = b.isOk := by
  cases h <;> rfl

inductive AgreeUntilDecided (t : AnnotationTable) : List Site → List Site → Prop
  | nil : AgreeUntilDecided t [] []
  | cons {scope : Scope} {label : String} {carrier : ClassName}
      {a b : Except LookupError (List String)} {sites sites' : List Site}
      (names : t.SameNames a b)
      (rest : t.names (a.toOption.getD []) = [] → AgreeUntilDecided t sites sites') :
      AgreeUntilDecided t (⟨scope, label, carrier, a⟩ :: sites)
        (⟨scope, label, carrier, b⟩ :: sites')

theorem AgreeUntilDecided.resolve {sites sites' : List Site}
    (h : t.AgreeUntilDecided sites sites') :
    (t.resolve sites).SameUpToSpelling (t.resolve sites') := by
  induction h with
  | nil => exact ⟨rfl, rfl, rfl, rfl⟩
  | @cons scope label carrier a b sites sites' names _ ih =>
    have hnames := names.names_eq
    have hspellings (a : Except LookupError (List String)) :
        Site.spellings ⟨scope, label, carrier, a⟩ = a.toOption.getD [] := rfl
    by_cases hsilent : t.names (a.toOption.getD []) = []
    · obtain ⟨hnullness, hscope, hmissing, hconflicts⟩ := ih hsilent
      rw [resolve_of_silent (names_eq_nil_iff.mp hsilent),
        resolve_of_silent (names_eq_nil_iff.mp (hnames ▸ hsilent))]
      refine ⟨hnullness, hscope, ?_, hconflicts⟩
      simp only [Site.missing, names.isOk_eq, hmissing]
    · obtain ⟨hleft, hmissing⟩ := @resolve_of_known t ⟨scope, label, carrier, a⟩ sites
        (mt names_eq_nil_iff.mpr hsilent)
      obtain ⟨hright, hmissing'⟩ := @resolve_of_known t ⟨scope, label, carrier, b⟩ sites'
        (mt names_eq_nil_iff.mpr (hnames ▸ hsilent))
      have hnullness : (t.resolve (⟨scope, label, carrier, a⟩ :: sites)).nullness =
          (t.resolve (⟨scope, label, carrier, b⟩ :: sites')).nullness := by
        apply Option.some.inj
        rw [← hleft.nullness, ← hright.nullness, head?_known_bind, head?_known_bind, hspellings,
          hspellings, hnames]
      constructor
      · exact hnullness
      · rw [hleft.scope, hright.scope]
      · rw [hmissing, hmissing']
      · rw [hleft.conflicts_unspelled, hright.conflicts_unspelled, hspellings, hspellings, hnames,
          hnullness]

end AnnotationTable

/-- Two declarations of one member and two sources of annotations that show the same names, as
far as they are looked at. -/
structure SameView (t : AnnotationTable) (target : Target) (path : List PathStep)
    (source : AnnotationSource) (d : Declaration MemberId) (source' : AnnotationSource)
    (d' : Declaration MemberId) : Prop where
  member : d.member = d'.member
  names : t.names (d.annotationsAt target path) = t.names (d'.annotationsAt target path)
  owner : t.names (d.annotationsAt target path) = [] →
    t.SameNames (source.classAnnotations d.owner) (source'.classAnnotations d'.owner)
  package : t.names (d.annotationsAt target path) = [] →
    t.names ((source.classAnnotations d.owner).toOption.getD []) = [] →
    t.SameNames (source.packageAnnotations d.owner.package)
      (source'.packageAnnotations d'.owner.package)

theorem Declaration.isPrimitiveAt_congr {d d' : Declaration MemberId} (h : d.member = d'.member)
    (target : Target) (path : List PathStep) :
    d.isPrimitiveAt target path = d'.isPrimitiveAt target path := by
  obtain ⟨m, _, _, _⟩ := d
  obtain ⟨m', _, _, _⟩ := d'
  cases h
  rfl

namespace SameView

variable {t : AnnotationTable} {target : Target} {path : List PathStep}
  {source source' source'' : AnnotationSource} {d d' d'' : Declaration MemberId}

-- What one side does not look at, the other side does not look at either.
theorem symm (h : SameView t target path source d source' d') :
    SameView t target path source' d' source d where
  member := h.member.symm
  names := h.names.symm
  owner hmember := (h.owner (h.names.trans hmember)).symm
  package hmember hclass := by
    have hsilent := h.names.trans hmember
    exact (h.package hsilent ((h.owner hsilent).names_eq.trans hclass)).symm

theorem trans (h : SameView t target path source d source' d')
    (h' : SameView t target path source' d' source'' d'') :
    SameView t target path source d source'' d'' where
  member := h.member.trans h'.member
  names := h.names.trans h'.names
  owner hmember := (h.owner hmember).trans (h'.owner (h.names.symm.trans hmember))
  package hmember hclass := by
    have hsilent := h.names.symm.trans hmember
    have hclass' := (h.owner hmember).names_eq.symm.trans hclass
    exact (h.package hmember hclass).trans (h'.package hsilent hclass')

theorem resolveAt (h : SameView t target path source d source' d') :
    (Resolver.resolveAt ⟨source, t⟩ d target path).SameUpToSpelling
      (Resolver.resolveAt ⟨source', t⟩ d' target path) := by
  obtain ⟨hm, hnames, howner, hpackage⟩ := h
  have hprimitive := Declaration.isPrimitiveAt_congr hm target path
  obtain ⟨m, signature, annotations, types⟩ := d
  obtain ⟨m', signature', annotations', types'⟩ := d'
  obtain rfl : m = m' := hm
  unfold Resolver.resolveAt
  rw [hprimitive]
  split
  · exact ⟨rfl, rfl, rfl, rfl⟩
  · apply AnnotationTable.AgreeUntilDecided.resolve
    simp only [Resolver.sites, Declaration.owner] at howner hpackage ⊢
    refine .cons (.found hnames) fun hmember => ?_
    exact .cons (howner hmember) fun hclass => .cons (hpackage hmember hclass) fun _ => .nil

theorem of_annotationsAt (hm : d.member = d'.member)
    (h : t.names (d.annotationsAt target path) = t.names (d'.annotationsAt target path))
    (source : AnnotationSource) : SameView t target path source d source d' := by
  have howner : d.owner = d'.owner := congrArg MemberId.owner hm
  refine ⟨hm, h, fun _ => ?_, fun _ _ => ?_⟩
  · rw [howner]
    exact .refl t _
  · rw [howner]
    exact .refl t _

end SameView

inductive AnnotationTable.Edit (t : AnnotationTable) : List String → List String → Prop
  | unrecognized {s : String} (before after : List String) (h : t.nullnessOf? s = none) :
      t.Edit (before ++ s :: after) (before ++ after)
  | repeated {s u : String} (before after : List String) (hu : u ∈ before)
      (h : annotationName u = annotationName s) :
      t.Edit (before ++ s :: after) (before ++ after)
  | respelled {s u : String} (before after : List String)
      (h : annotationName s = annotationName u) :
      t.Edit (before ++ s :: after) (before ++ u :: after)

namespace AnnotationTable

variable {t : AnnotationTable}

theorem nullnessOf?_congr {s u : String} (h : annotationName s = annotationName u) :
    t.nullnessOf? s = t.nullnessOf? u := by
  rw [nullnessOf?, nullnessOf?, h]

theorem known_append (ss us : List String) : t.known (ss ++ us) = t.known ss ++ t.known us :=
  List.filter_append ..

theorem known_cons_of_none {s : String} (h : t.nullnessOf? s = none) (ss : List String) :
    t.known (s :: ss) = t.known ss := by
  simp [known, h]

theorem known_cons_of_some {s : String} {n : Nullness} (h : t.nullnessOf? s = some n)
    (ss : List String) : t.known (s :: ss) = s :: t.known ss := by
  simp [known, h]

/-- Of a name that was there before, no trace is left. -/
theorem eraseDups_append_cons_of_mem {n : String} {ns : List String} (h : n ∈ ns)
    (ms : List String) : (ns ++ n :: ms).eraseDups = (ns ++ ms).eraseDups := by
  rw [List.eraseDups_append, List.eraseDups_append]
  simp [List.removeAll, h]

theorem Edit.names_eq {ss us : List String} (h : t.Edit ss us) : t.names ss = t.names us := by
  cases h with
  | unrecognized before after h =>
    rw [names, names, known_append, known_cons_of_none h, known_append]
  | @repeated s u before after hu h =>
    cases hs : t.nullnessOf? s with
    | none => rw [names, names, known_append, known_cons_of_none hs, known_append]
    | some n =>
      have hknown : u ∈ t.known before := by
        rw [known, List.mem_filter, nullnessOf?_congr h, hs]
        exact ⟨hu, rfl⟩
      have hmem : annotationName s ∈ (t.known before).map annotationName := by
        rw [← h]
        exact List.mem_map_of_mem hknown
      rw [names, names, known_append, known_cons_of_some hs, known_append, List.map_append,
        List.map_append, List.map_cons, eraseDups_append_cons_of_mem hmem]
  | @respelled s u before after h =>
    rw [names, names, known_append, known_append]
    cases hs : t.nullnessOf? s with
    | none => rw [known_cons_of_none hs, known_cons_of_none (nullnessOf?_congr h ▸ hs)]
    | some n =>
      rw [known_cons_of_some hs, known_cons_of_some (nullnessOf?_congr h ▸ hs), List.map_append,
        List.map_append, List.map_cons, List.map_cons, h]

end AnnotationTable

/-- Changes to a declaration and to what is found about its class and its package that have no
say in the nullness of a type. -/
inductive Immaterial (t : AnnotationTable) (target : Target) (path : List PathStep) :
    AnnotationSource → Declaration MemberId → AnnotationSource → Declaration MemberId → Prop
  | signature (source : AnnotationSource) (d : Declaration MemberId) (text : Option String) :
      Immaterial t target path source d source { d with signature := text }
  | elsewhere (source : AnnotationSource) (d : Declaration MemberId) {a : AnnotatedType}
      {before after : List AnnotatedType} (away : ¬ (a.target = target ∧ a.path = path))
      (types : d.typeAnnotations = before ++ a :: after) :
      Immaterial t target path source d source { d with typeAnnotations := before ++ after }
  | declared (source : AnnotationSource) (d : Declaration MemberId) (annotations : List String)
      (inside : ¬ (path = [] ∧ target = d.valueTarget)) :
      Immaterial t target path source d source { d with annotations := annotations }
  | memberEdit (source : AnnotationSource) {d d' : Declaration MemberId}
      (member : d.member = d'.member)
      (edit : t.Edit (d.annotationsAt target path) (d'.annotationsAt target path)) :
      Immaterial t target path source d source d'
  | ownerEdit {source source' : AnnotationSource} (d : Declaration MemberId) {ss us : List String}
      (found : source.classAnnotations d.owner = .ok ss)
      (found' : source'.classAnnotations d.owner = .ok us) (edit : t.Edit ss us)
      (package : source.packageAnnotations d.owner.package =
        source'.packageAnnotations d.owner.package) :
      Immaterial t target path source d source' d
  | packageEdit {source source' : AnnotationSource} (d : Declaration MemberId)
      {ss us : List String}
      (owner : source.classAnnotations d.owner = source'.classAnnotations d.owner)
      (found : source.packageAnnotations d.owner.package = .ok ss)
      (found' : source'.packageAnnotations d.owner.package = .ok us) (edit : t.Edit ss us) :
      Immaterial t target path source d source' d
  | behindMember (source source' : AnnotationSource) {d : Declaration MemberId}
      (known : t.known (d.annotationsAt target path) ≠ []) :
      Immaterial t target path source d source' d
  | behindOwner {source source' : AnnotationSource} (d : Declaration MemberId)
      {ss : List String} (owner : source.classAnnotations d.owner = .ok ss)
      (owner' : source'.classAnnotations d.owner = .ok ss) (known : t.known ss ≠ []) :
      Immaterial t target path source d source' d
  | symm {source source' : AnnotationSource} {d d' : Declaration MemberId}
      (h : Immaterial t target path source d source' d') :
      Immaterial t target path source' d' source d
  | trans {source source' source'' : AnnotationSource} {d d' d'' : Declaration MemberId}
      (h : Immaterial t target path source d source' d')
      (h' : Immaterial t target path source' d' source'' d'') :
      Immaterial t target path source d source'' d''

theorem Declaration.annotationsAt_elsewhere {d : Declaration MemberId} {target : Target}
    {path : List PathStep} {a : AnnotatedType} {before after : List AnnotatedType}
    (away : ¬ (a.target = target ∧ a.path = path))
    (types : d.typeAnnotations = before ++ a :: after) :
    d.annotationsAt target path =
      { d with typeAnnotations := before ++ after }.annotationsAt target path := by
  unfold annotationsAt
  rw [types, List.filter_append, List.filter_append, List.filter_cons_of_neg (by simpa using away)]
  rfl

theorem Declaration.annotationsAt_inside {d : Declaration MemberId} {target : Target}
    {path : List PathStep} (inside : ¬ (path = [] ∧ target = d.valueTarget))
    (annotations : List String) :
    d.annotationsAt target path = { d with annotations }.annotationsAt target path := by
  have hsame : ¬ (path = [] ∧ target = { d with annotations }.valueTarget) := inside
  rw [annotationsAt, annotationsAt, if_neg inside, if_neg hsame]

/-- Each change leaves the view as it is, and so does any number of them. -/
theorem Immaterial.sameView {t : AnnotationTable} {target : Target} {path : List PathStep}
    {source source' : AnnotationSource} {d d' : Declaration MemberId}
    (h : Immaterial t target path source d source' d') :
    SameView t target path source d source' d' := by
  induction h with
  | signature source d text =>
    apply SameView.of_annotationsAt
    · rfl
    · rfl
  | elsewhere source d away types =>
    apply SameView.of_annotationsAt
    · rfl
    · rw [d.annotationsAt_elsewhere away types]
  | declared source d annotations inside =>
    apply SameView.of_annotationsAt
    · rfl
    · rw [d.annotationsAt_inside inside annotations]
  | memberEdit source member edit => exact .of_annotationsAt member edit.names_eq source
  | ownerEdit d found found' edit package =>
    refine ⟨rfl, rfl, fun _ => ?_, fun _ _ => ?_⟩
    · rw [found, found']
      exact .found edit.names_eq
    · rw [package]
      exact .refl t _
  | packageEdit d owner found found' edit =>
    refine ⟨rfl, rfl, fun _ => ?_, fun _ _ => ?_⟩
    · rw [owner]
      exact .refl t _
    · rw [found, found']
      exact .found edit.names_eq
  | behindMember source source' known =>
    have hnames := mt AnnotationTable.names_eq_nil_iff.mp known
    exact ⟨rfl, rfl, fun h => absurd h hnames, fun h => absurd h hnames⟩
  | behindOwner d owner owner' known =>
    refine ⟨rfl, rfl, fun _ => ?_, fun _ hsilent => ?_⟩
    · rw [owner, owner']
      exact .refl t _
    · rw [owner] at hsilent
      exact absurd (AnnotationTable.names_eq_nil_iff.mp hsilent) known
  | symm _ ih => exact ih.symm
  | trans _ _ ih ih' => exact ih.trans ih'

/-- What is resolved depends on the recognized names in view. Other annotations, repetitions and
spellings make no difference, and nothing does that is behind a scope that decides. -/
theorem resolveAt_noninterference (t : AnnotationTable) (target : Target) (path : List PathStep)
    (source source' : AnnotationSource) (d d' : Declaration MemberId) :
    (SameView t target path source d source' d' →
      (Resolver.resolveAt ⟨source, t⟩ d target path).SameUpToSpelling
        (Resolver.resolveAt ⟨source', t⟩ d' target path)) ∧
    (Immaterial t target path source d source' d' →
      (Resolver.resolveAt ⟨source, t⟩ d target path).SameUpToSpelling
        (Resolver.resolveAt ⟨source', t⟩ d' target path)) :=
  ⟨SameView.resolveAt, fun h => h.sameView.resolveAt⟩

def respelledSource : AnnotationSource where
  classAnnotations c :=
    if c = ⟨"p/package-info"⟩ then .ok ["a/NonNull", "a.Nullable"]
    else .error (.other "unreadable")

def respelledField : Declaration MemberId :=
  { sampleField with signature := some "TT;", annotations := ["a.Unknown", "a.Unknown"] }

theorem respelledField_owner : respelledField.owner = sampleField.owner := rfl

theorem sameView_respelled :
    SameView samplePackage.table .field [] samplePackage.source sampleField respelledSource
      respelledField := by
  obtain ⟨hclass, hinfo, hpackage⟩ := sampleField_places
  have hclass' : respelledSource.classAnnotations respelledField.owner =
      .error (.other "unreadable") := by decide
  have hpackage' : respelledSource.packageAnnotations respelledField.owner.package =
      .ok ["a/NonNull", "a.Nullable"] := by
    simp only [respelledSource, respelledField_owner, hinfo, if_true]
  have hname : annotationName "La/NonNull;" = annotationName "a/NonNull" := by
    simp only [annotationName_sample]
  have hunknown : samplePackage.table.Edit ["a.Unknown", "a.Unknown"] ["a.Unknown"] :=
    .repeated ["a.Unknown"] [] List.mem_cons_self rfl
  have hrepeated : samplePackage.table.Edit ["La/NonNull;", "a.Nullable", "a/NonNull"]
      ["La/NonNull;", "a.Nullable"] :=
    .repeated ["La/NonNull;", "a.Nullable"] [] List.mem_cons_self hname
  have hrespelled : samplePackage.table.Edit ["La/NonNull;", "a.Nullable"]
      ["a/NonNull", "a.Nullable"] := .respelled [] ["a.Nullable"] hname
  refine ⟨rfl, hunknown.names_eq.symm, fun _ => ?_, fun _ _ => ?_⟩
  · rw [hclass, hclass']
    exact .failed _ _
  · rw [hpackage, hpackage']
    exact .found (hrepeated.names_eq.trans hrespelled.names_eq)

theorem resolveAt_noninterference_respelled :
    (SameView samplePackage.table .field [] samplePackage.source sampleField respelledSource
        respelledField ∧
      (samplePackage.resolveAt sampleField .field []).SameUpToSpelling
        (Resolver.resolveAt ⟨respelledSource, samplePackage.table⟩ respelledField .field [])) ∧
    (Immaterial samplePackage.table .field [.component] samplePackage.source sampleField
        samplePackage.source { sampleField with annotations := ["a.Nullable"] } ∧
      (samplePackage.resolveAt sampleField .field [.component]).SameUpToSpelling
        (samplePackage.resolveAt { sampleField with annotations := ["a.Nullable"] } .field
          [.component])) := by
  have hinside : Immaterial samplePackage.table .field [.component] samplePackage.source
      sampleField samplePackage.source { sampleField with annotations := ["a.Nullable"] } :=
    .declared _ _ _ (by simp)
  refine ⟨⟨sameView_respelled, ?_⟩, ⟨hinside, ?_⟩⟩
  · exact (resolveAt_noninterference _ _ _ _ _ _ _).1 sameView_respelled
  · exact (resolveAt_noninterference _ _ _ _ _ _ _).2 hinside

end NullSafety
