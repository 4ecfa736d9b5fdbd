import NullSafety.MethodType

namespace NullSafety

structure MethodId where
  owner : ClassName
  name : String
  type : MethodType
  deriving DecidableEq, Ord, Hashable

structure FieldId where
  owner : ClassName
  name : String
  type : ErasedType
  deriving DecidableEq, Ord, Hashable

inductive MemberId
  | method (m : MethodId)
  | field (f : FieldId)
  deriving DecidableEq, Ord, Hashable

namespace MemberId

def owner : MemberId → ClassName
  | method m => m.owner
  | field f => f.owner

def valueType : MemberId → Return ErasedType
  | method m => m.type.result
  | field f => .value f.type

def label : MemberId → String
  | method m => s!"{m.owner.binaryName}::{m.name}{m.type.descriptor}"
  | field f => s!"{f.owner.binaryName}.{f.name}"

end MemberId

end NullSafety
