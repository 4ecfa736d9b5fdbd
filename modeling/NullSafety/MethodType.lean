import NullSafety.ErasedType

namespace NullSafety

/-- What a method gives back: a value of some type, or nothing. -/
inductive Return (α : Type)
  | value (a : α)
  | void
  deriving DecidableEq, Ord, Hashable

namespace Return

def descriptorChars : Return ErasedType → List Char
  | value t => t.descriptorChars
  | void => ['V']

def descriptor (t : Return ErasedType) : String := String.ofList t.descriptorChars

def sourceName : Return ErasedType → String
  | value t => t.sourceName
  | void => "void"

def isReference : Return ErasedType → Bool
  | value t => t.isReference
  | void => false

def ofChars (s : List Char) : Except DescriptorError (Return ErasedType) :=
  if s = ['V'] then .ok void else value <$> ErasedType.ofChars s

def ofDescriptor (s : String) : Except DescriptorError (Return ErasedType) := ofChars s.toList

end Return

structure MethodType where
  parameters : List ErasedType
  result : Return ErasedType
  deriving DecidableEq, Ord, Hashable

namespace MethodType

def descriptorChars (m : MethodType) : List Char :=
  '(' :: m.parameters.flatMap ErasedType.descriptorChars ++ ')' :: m.result.descriptorChars

def descriptor (m : MethodType) : String := String.ofList m.descriptorChars

def ofChars (s : List Char) : Except DescriptorError MethodType :=
  if s.head? = some '(' then do
    let (parameters, r) ← ErasedType.reader.upTo ')' s.tail
    let result ← Return.ofChars r
    return ⟨parameters, result⟩
  else .error .invalid

def ofDescriptor (s : String) : Except DescriptorError MethodType := ofChars s.toList

end MethodType

end NullSafety
