import NullSafety.MethodType
import NullSafety.Signature.GenericType

namespace NullSafety

structure TypeParameter where
  name : String
  classBound : Option GenericType
  interfaceBounds : List GenericType
  deriving DecidableEq

def TypeParameter.bounds (p : TypeParameter) : List GenericType :=
  p.classBound.toList ++ p.interfaceBounds

structure MethodSignature where
  typeParameters : List TypeParameter
  parameters : List GenericType
  result : Return GenericType
  thrown : List GenericType
  deriving DecidableEq

structure FieldSignature where
  type : GenericType
  deriving DecidableEq

structure ClassSignature where
  typeParameters : List TypeParameter
  superclass : ClassType
  interfaces : List ClassType
  deriving DecidableEq

end NullSafety
