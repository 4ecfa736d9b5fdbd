import NullSafety.AnnotationTable
import NullSafety.ClassTable
import NullSafety.Declaration

namespace NullSafety

inductive Scope
  | primitive
  | member
  | owner
  | package
  | nowhere
  deriving DecidableEq

def Scope.description : Scope → String
  | primitive => "primitive type"
  | member => "member"
  | owner => "class"
  | package => "package"
  | nowhere => "none"

structure Conflict where
  scope : Scope
  site : String
  annotations : List String
  chosen : Nullness
  deriving DecidableEq

def Conflict.message (c : Conflict) : String :=
  let listed := ", ".intercalate c.annotations
  s!"The {c.scope.description} {c.site} has conflicting nullness annotations [{listed}], " ++
    s!"{c.chosen.description} is used"

structure Resolution where
  nullness : Nullness
  scope : Scope
  conflicts : List Conflict
  missing : List ClassName
  deriving DecidableEq

namespace Resolution

def ofPrimitive : Resolution := ⟨.nonNull, .primitive, [], []⟩

def none : Resolution := ⟨.undeclared, .nowhere, [], []⟩

def isConflicting (r : Resolution) : Bool := !r.conflicts.isEmpty

def isComplete (r : Resolution) : Bool := r.missing.isEmpty

end Resolution

/-- A place that may carry nullness annotations, with the class in which they are looked up. -/
structure Site where
  scope : Scope
  label : String
  carrier : ClassName
  annotations : Except LookupError (List String)

/-- The first site with a recognized annotation decides, and in it the first such annotation.
A site that cannot be looked up is passed over and reported. -/
def AnnotationTable.resolve (t : AnnotationTable) : List Site → Resolution
  | [] => .none
  | site :: sites =>
    match site.annotations with
    | .error _ =>
      let r := t.resolve sites
      { r with missing := site.carrier :: r.missing }
    | .ok spellings =>
      match t.recognized spellings with
      | [] => t.resolve sites
      | [(_, n)] => ⟨n, site.scope, [], []⟩
      | (s, n) :: more =>
        ⟨n, site.scope, [⟨site.scope, site.label, s :: more.map (·.1), n⟩], []⟩

structure Resolver where
  source : AnnotationSource
  table : AnnotationTable

namespace Resolver

/-- The places that matter for a type in a declaration, the nearest first. -/
def sites (r : Resolver) (d : Declaration MemberId) (target : Target) (path : List PathStep) :
    List Site :=
  let package := d.owner.package
  [⟨.member, d.member.label, d.owner, .ok (d.annotationsAt target path)⟩,
   ⟨.owner, d.owner.binaryName, d.owner, r.source.classAnnotations d.owner⟩,
   ⟨.package, package.info.binaryName, package.info, r.source.packageAnnotations package⟩]

def resolveAt (r : Resolver) (d : Declaration MemberId) (target : Target)
    (path : List PathStep) : Resolution :=
  if d.isPrimitiveAt target path then .ofPrimitive else r.table.resolve (r.sites d target path)

def resolve (r : Resolver) (d : Declaration MemberId) : Resolution :=
  r.resolveAt d d.valueTarget []

/-- A class that cannot be looked up is not taken for an enum. -/
def isEnum (r : Resolver) : ErasedType → Bool
  | .object c =>
    match r.source.isEnum c with
    | .ok b => b
    | .error _ => false
  | .primitive _ | .array _ => false

/-- The annotations that allow null on a value that is never null, as they are spelled. -/
def needless (r : Resolver) (d : Declaration MemberId) : List (String × Nullness) :=
  match d.valueType with
  | .void => []
  | .value t =>
    (d.annotationsAt d.valueTarget []).filterMap fun s =>
      (r.table.needless? t s (r.isEnum t)).map (s, ·)

end Resolver

end NullSafety
