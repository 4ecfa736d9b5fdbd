import NullSafety.Signature.Basic

namespace NullSafety

mutual

def GenericType.chars : GenericType → List Char
  | ⟨v, n, e⟩ =>
    if v = .unbounded then ['*']
    else v.mark?.toList ++ List.replicate n '[' ++ e.chars

def Element.chars : Element → List Char
  | .primitive p => [p.letter]
  | .classType c => c.chars
  | .variable name => 'T' :: name.toList ++ [';']

def ClassType.chars : ClassType → List Char
  | ⟨[]⟩ => ['L', ';']
  | ⟨s :: ss⟩ => 'L' :: s.chars ++ Segment.innerChars ss ++ [';']

def Segment.innerChars : List Segment → List Char
  | [] => []
  | s :: ss => '.' :: s.chars ++ Segment.innerChars ss

def Segment.chars : Segment → List Char
  | ⟨name, as⟩ =>
    if as.isEmpty then name.toList
    else name.toList ++ '<' :: GenericType.listChars as ++ ['>']

def GenericType.listChars : List GenericType → List Char
  | [] => []
  | a :: as => a.chars ++ GenericType.listChars as

end

namespace TypeParameter

def chars (p : TypeParameter) : List Char :=
  p.name.toList ++ ':' :: (p.classBound.map GenericType.chars).getD [] ++
    p.interfaceBounds.flatMap (':' :: ·.chars)

def listChars (ps : List TypeParameter) : List Char :=
  if ps.isEmpty then [] else '<' :: ps.flatMap chars ++ ['>']

end TypeParameter

def Return.chars : Return GenericType → List Char
  | value t => t.chars
  | void => ['V']

def MethodSignature.chars (m : MethodSignature) : List Char :=
  TypeParameter.listChars m.typeParameters ++
    '(' :: m.parameters.flatMap GenericType.chars ++
    ')' :: m.result.chars ++
    m.thrown.flatMap ('^' :: ·.chars)

def FieldSignature.chars (f : FieldSignature) : List Char := f.type.chars

def ClassSignature.chars (c : ClassSignature) : List Char :=
  TypeParameter.listChars c.typeParameters ++ c.superclass.chars ++
    c.interfaces.flatMap ClassType.chars

instance : ToString GenericType := ⟨fun t => String.ofList t.chars⟩
instance : ToString ClassType := ⟨fun c => String.ofList c.chars⟩
instance : ToString TypeParameter := ⟨fun p => String.ofList p.chars⟩
instance : ToString (Return GenericType) := ⟨fun t => String.ofList t.chars⟩
instance : ToString MethodSignature := ⟨fun m => String.ofList m.chars⟩
instance : ToString FieldSignature := ⟨fun f => String.ofList f.chars⟩
instance : ToString ClassSignature := ⟨fun c => String.ofList c.chars⟩

end NullSafety
