import NullSafety.ClassTable
import NullSafety.ParameterCache
import NullSafety.ResolutionCache

namespace NullSafety

/-- How a session looks up annotations: in its class table, or through a reader of class files
that knows annotations only and fails on corrupted files. -/
inductive Host
  | table
  | classFiles (corrupted : List ClassName)

def Host.source (h : Host) (t : ClassTable) : AnnotationSource :=
  match h with
  | table => t.source
  | classFiles corrupted =>
    { classAnnotations := fun c =>
        if c ∈ corrupted then .error (.other s!"corrupted class file: {c.binaryName}")
        else t.source.classAnnotations c }

structure Session where
  table : AnnotationTable
  classes : ClassTable
  host : Host
  resolutions : ResolutionCache
  parameters : ParameterCache

inductive Request
  | resolve (d : Declaration MemberId)
  | resolveAt (d : Declaration MemberId) (target : Target) (path : List PathStep)
  | resolveCached (d : Declaration MemberId)
  | needless (d : Declaration MemberId)
  | classAnnotations (c : ClassName)
  | packageAnnotations (p : PackageName)
  | isEnum (c : ClassName)
  | nullnessOf (spelling : String)
  | isNeedless (type : ErasedType) (spelling : String) (isEnum : Bool)
  | annotationTable
  | insertClass (c : ClassName) (annotations : List String)
  | insertPackage (p : PackageName) (annotations : List String)
  | markEnum (c : ClassName)
  | removeClass (c : ClassName)
  | recognize (spelling : String) (n : Nullness)
  | invalidateMember (m : MemberId)
  | invalidateClass (c : ClassName)
  | invalidatePackage (p : PackageName)
  | clearResolutions
  | parameterTypes (d : Declaration MethodId)
  | invalidateMethod (m : MethodId)
  | clearParameters

inductive Reply
  | done
  | flag (b : Bool)
  | resolution (r : Resolution)
  | cachedResolution (r : Fetched Resolution)
  | needless (found : List (String × Nullness))
  | annotations (found : Except LookupError (List String))
  | enum (found : Except LookupError Bool)
  | declared (n : Option Nullness)
  | needlessly (n : Option Nullness)
  | annotationTable (t : AnnotationTable)
  | parameterTypes (p : Fetched ParameterTypes)

namespace Session

def start (table : AnnotationTable) (classes : ClassTable) (host : Host) : Session :=
  ⟨table, classes, host, .empty, .empty⟩

def source (s : Session) : AnnotationSource := s.host.source s.classes

def resolver (s : Session) : Resolver := ⟨s.source, s.table⟩

def step (s : Session) : Request → Reply × Session
  | .resolve d => (.resolution (s.resolver.resolve d), s)
  | .resolveAt d target path => (.resolution (s.resolver.resolveAt d target path), s)
  | .resolveCached d =>
    let (r, resolutions) := s.resolutions.resolve s.resolver d
    (.cachedResolution r, { s with resolutions })
  | .needless d => (.needless (s.resolver.needless d), s)
  | .classAnnotations c => (.annotations (s.source.classAnnotations c), s)
  | .packageAnnotations p => (.annotations (s.source.packageAnnotations p), s)
  | .isEnum c => (.enum (s.source.isEnum c), s)
  | .nullnessOf spelling => (.declared (s.table.nullnessOf? spelling), s)
  | .isNeedless type spelling isEnum =>
    (.needlessly (s.table.needless? type spelling isEnum), s)
  | .annotationTable => (.annotationTable s.table, s)
  | .insertClass c annotations =>
    (.done, { s with classes := s.classes.insertClass c annotations })
  | .insertPackage p annotations =>
    (.done, { s with classes := s.classes.insertPackage p annotations })
  | .markEnum c => (.done, { s with classes := s.classes.markEnum c })
  | .removeClass c =>
    let (found, classes) := s.classes.removeClass c
    (.flag found, { s with classes })
  | .recognize spelling n => (.done, { s with table := s.table.insert spelling n })
  | .invalidateMember m =>
    let (found, resolutions) := s.resolutions.invalidate m
    (.flag found, { s with resolutions })
  | .invalidateClass c =>
    (.done, { s with resolutions := s.resolutions.invalidateClass c })
  | .invalidatePackage p =>
    (.done, { s with resolutions := s.resolutions.invalidatePackage p })
  | .clearResolutions => (.done, { s with resolutions := .empty })
  | .parameterTypes d =>
    let (p, parameters) := s.parameters.typesOf d
    (.parameterTypes p, { s with parameters })
  | .invalidateMethod m =>
    let (found, parameters) := s.parameters.invalidate m
    (.flag found, { s with parameters })
  | .clearParameters => (.done, { s with parameters := .empty })

end Session

end NullSafety
