import NullSafety.Signature.Basic

namespace NullSafety

def firstBound? (ps : List TypeParameter) (name : String) : Option GenericType :=
  (ps.find? (·.name = name)).bind (·.bounds.head?)

def GenericType.bareVariable? (t : GenericType) : Option String :=
  if t.dimensions.val = 0 then t.variableName? else none

/-- Go from variable to first bound, for so many steps at most, until a bound says what the
variable erases to. It is the root class if none does. -/
def eraseVariable (ps : List TypeParameter) : Nat → String → ErasedType
  | 0, _ => .root
  | steps + 1, name =>
    match firstBound? ps name with
    | none => .root
    | some bound =>
      match bound.bareVariable? with
      | some next => eraseVariable ps steps next
      | none => bound.erased?.getD .root

namespace MethodSignature

def maxErasureSteps : Nat := 64

/-- The erased type of a type variable. Variables that the method does not declare erase to the
root class. -/
def erasureOf (m : MethodSignature) (name : String) : ErasedType :=
  eraseVariable m.typeParameters maxErasureSteps name

def erase (m : MethodSignature) (t : GenericType) : ErasedType :=
  match t.variableName? with
  | some name => (m.erasureOf name).inArrays t.dimensions
  | none => t.erased?.getD .root

end MethodSignature

end NullSafety
