import NullSafety.Declaration
import NullSafety.Signature.Erasure
import NullSafety.Signature.Parser

namespace NullSafety

/-- The type of a parameter: erased, with the arguments that erasure dropped. -/
structure ParameterType where
  base : ErasedType
  arguments : List GenericType
  deriving DecidableEq

inductive ParameterTypes
  | generic (signature : MethodSignature)
  | erased (types : List ErasedType)
  deriving DecidableEq

namespace ParameterTypes

inductive Error
  | indexOutOfRange (index count : Nat)
  | noSuchBound (typeParameter bound : Nat)
  | malformed (m : Malformed)
  | invalidDescriptor (e : DescriptorError)
  | countMismatch (signature descriptor : Nat)
  deriving DecidableEq

def Error.message : Error → String
  | indexOutOfRange index count =>
    s!"The method has only {count} parameters but the parameter #{index} is requested"
  | noSuchBound typeParameter bound =>
    s!"The method has no bound #{bound} on the type parameter #{typeParameter}"
  | malformed m => m.message
  | invalidDescriptor e => s!"Fail to parse descriptor: {e.message}"
  | countMismatch signature descriptor =>
    s!"The signature declares {signature} parameters but the descriptor declares {descriptor}"

/-- Take the signature if there is one. It has to have as many parameters as the erased type. -/
def ofSignature (m : MethodType) : Option String → Except Error ParameterTypes
  | none => .ok (erased m.parameters)
  | some text => do
    let s ← (MethodSignature.parse text).mapError .malformed
    if s.parameters.length = m.parameters.length then .ok (generic s)
    else .error (.countMismatch s.parameters.length m.parameters.length)

def ofTexts (descriptor : String) (signature : Option String) : Except Error ParameterTypes := do
  let m ← (MethodType.ofDescriptor descriptor).mapError .invalidDescriptor
  ofSignature m signature

def ofDeclaration (d : Declaration MethodId) : Except Error ParameterTypes :=
  ofSignature d.member.type d.signature

def ofDeclarationOrErased (d : Declaration MethodId) : ParameterTypes :=
  match ofDeclaration d with
  | .ok p => p
  | .error _ => erased d.member.type.parameters

def signature? : ParameterTypes → Option MethodSignature
  | generic s => some s
  | erased _ => none

def count : ParameterTypes → Nat
  | generic s => s.parameters.length
  | erased types => types.length

def get? : ParameterTypes → Nat → Option ParameterType
  | generic s, i => s.parameters[i]?.map fun t => ⟨s.erase t, t.arguments⟩
  | erased types, i => types[i]?.map fun t => ⟨t, []⟩

def get (p : ParameterTypes) (i : Nat) : Except Error ParameterType :=
  match p.get? i with
  | some t => .ok t
  | none => .error (.indexOutOfRange i p.count)

def bound? (p : ParameterTypes) (typeParameter bound : Nat) : Option GenericType := do
  let s ← p.signature?
  let t ← s.typeParameters[typeParameter]?
  t.bounds[bound]?

def bound (p : ParameterTypes) (typeParameter bound : Nat) : Except Error GenericType :=
  match p.bound? typeParameter bound with
  | some t => .ok t
  | none => .error (.noSuchBound typeParameter bound)

end ParameterTypes

end NullSafety
