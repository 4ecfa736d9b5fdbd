import NullSafety.Member

namespace NullSafety

inductive Target
  | result
  | field
  | receiver
  | parameter (index : Nat)
  | bound (typeParameter bound : Nat)
  deriving DecidableEq

inductive PathStep
  | component
  | nested
  | wildcardBound
  | argument (index : Nat)
  deriving DecidableEq

structure AnnotatedType where
  target : Target
  path : List PathStep
  spelling : String
  deriving DecidableEq

/-- A member with what its class file says about it: the text of its generic signature, the
annotations on the declaration and those on the types in it. -/
structure Declaration (ι : Type) where
  member : ι
  signature : Option String
  annotations : List String
  typeAnnotations : List AnnotatedType
  deriving DecidableEq

/-- The type at the end of a path that leads through array components only. -/
def ErasedType.componentAt? : ErasedType → List PathStep → Option ErasedType
  | t, [] => some t
  | .array t, .component :: path => t.componentAt? path
  | _, _ => none

namespace Declaration

def owner (d : Declaration MemberId) : ClassName := d.member.owner

def valueType (d : Declaration MemberId) : Return ErasedType := d.member.valueType

def valueTarget (d : Declaration MemberId) : Target :=
  match d.member with
  | .method _ => .result
  | .field _ => .field

/-- The annotations on one type of a declaration. Those on the declaration itself are about the
type of its value. -/
def annotationsAt (d : Declaration MemberId) (target : Target) (path : List PathStep) :
    List String :=
  (if path = [] ∧ target = d.valueTarget then d.annotations else []) ++
    (d.typeAnnotations.filter fun a => a.target = target ∧ a.path = path).map
      AnnotatedType.spelling

def erasedAt? (d : Declaration MemberId) (target : Target) : Option (Return ErasedType) :=
  if target = d.valueTarget then some d.valueType
  else
    match target, d.member with
    | .parameter i, .method m => m.type.parameters[i]?.map .value
    | _, _ => none

/-- Whether a type is known to have no null among its values. Type arguments and bounds are
never primitive. -/
def isPrimitiveAt (d : Declaration MemberId) (target : Target) (path : List PathStep) : Bool :=
  match d.erasedAt? target with
  | none => false
  | some .void => path.isEmpty
  | some (.value t) => (t.componentAt? path).any ErasedType.isPrimitive

end Declaration

end NullSafety
