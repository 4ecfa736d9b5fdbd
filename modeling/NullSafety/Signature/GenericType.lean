import NullSafety.ErasedType

namespace NullSafety

/-- How a type argument stands for the types it admits. Types outside of argument lists are
invariant. -/
inductive Variance
  | invariant
  | covariant
  | contravariant
  | unbounded
  deriving DecidableEq, Ord

namespace Variance

def mark? : Variance → Option Char
  | invariant => none
  | covariant => some '+'
  | contravariant => some '-'
  | unbounded => some '*'

def symbol (v : Variance) : Char := v.mark?.getD '='

end Variance

mutual

/-- A type in a signature: an element under some array dimensions, with a variance. -/
structure GenericType where
  variance : Variance
  dimensions : Fin 256
  element : Element

inductive Element
  | primitive (p : Primitive)
  | classType (c : ClassType)
  | variable (name : String)

structure ClassType where
  segments : List Segment

/-- One class on the way from the outermost to the innermost. The name of the outermost one
holds the package too. -/
structure Segment where
  name : String
  arguments : List GenericType

end

mutual

def GenericType.decEq : (a b : GenericType) → Decidable (a = b)
  | ⟨v, n, e⟩, ⟨v', n', e'⟩ =>
    letI := e.decEq e'
    decidable_of_iff (v = v' ∧ n = n' ∧ e = e') (by simp)

def Element.decEq : (a b : Element) → Decidable (a = b)
  | .primitive p, .primitive q => decidable_of_iff (p = q) (by simp)
  | .classType c, .classType d =>
    letI := c.decEq d
    decidable_of_iff (c = d) (by simp)
  | .variable x, .variable y => decidable_of_iff (x = y) (by simp)
  | .primitive _, .classType _ => isFalse (by simp)
  | .primitive _, .variable _ => isFalse (by simp)
  | .classType _, .primitive _ => isFalse (by simp)
  | .classType _, .variable _ => isFalse (by simp)
  | .variable _, .primitive _ => isFalse (by simp)
  | .variable _, .classType _ => isFalse (by simp)

def ClassType.decEq : (a b : ClassType) → Decidable (a = b)
  | ⟨ss⟩, ⟨ts⟩ =>
    letI := Segment.decEqList ss ts
    decidable_of_iff (ss = ts) (by simp)

def Segment.decEqList : (a b : List Segment) → Decidable (a = b)
  | [], [] => isTrue rfl
  | [], _ :: _ => isFalse (by simp)
  | _ :: _, [] => isFalse (by simp)
  | s :: ss, t :: ts =>
    letI := s.decEq t
    letI := Segment.decEqList ss ts
    decidable_of_iff (s = t ∧ ss = ts) (by simp)

def Segment.decEq : (a b : Segment) → Decidable (a = b)
  | ⟨x, as⟩, ⟨y, bs⟩ =>
    letI := GenericType.decEqList as bs
    decidable_of_iff (x = y ∧ as = bs) (by simp)

def GenericType.decEqList : (a b : List GenericType) → Decidable (a = b)
  | [], [] => isTrue rfl
  | [], _ :: _ => isFalse (by simp)
  | _ :: _, [] => isFalse (by simp)
  | s :: ss, t :: ts =>
    letI := s.decEq t
    letI := GenericType.decEqList ss ts
    decidable_of_iff (s = t ∧ ss = ts) (by simp)

end

instance : DecidableEq GenericType := GenericType.decEq
instance : DecidableEq Element := Element.decEq
instance : DecidableEq ClassType := ClassType.decEq
instance : DecidableEq Segment := Segment.decEq

namespace ClassType

def raw (binaryName : String) : ClassType := ⟨[⟨binaryName, []⟩]⟩

/-- The class that is left when the arguments are dropped. Inner classes are joined with a
dollar sign. -/
def erased (c : ClassType) : ClassName :=
  ⟨String.ofList (['$'].intercalate (c.segments.map (·.name.toList)))⟩

def arguments (c : ClassType) : List GenericType :=
  (c.segments.getLast?.map Segment.arguments).getD []

end ClassType

namespace GenericType

def exactly (e : Element) : GenericType := ⟨.invariant, 0, e⟩

/-- The argument that admits every type. It holds the root class, so that there is always a
type to look at. -/
def anything : GenericType :=
  ⟨.unbounded, 0, .classType (.raw ClassName.root.binaryName)⟩

def withVariance (v : Variance) (t : GenericType) : GenericType := { t with variance := v }

def inArray? (t : GenericType) : Option GenericType :=
  if h : t.dimensions.val + 1 < 256 then some { t with dimensions := ⟨_, h⟩ } else none

def inArrays? (t : GenericType) : Nat → Option GenericType
  | 0 => some t
  | n + 1 => t.inArray?.bind (·.inArrays? n)

def arguments (t : GenericType) : List GenericType :=
  match t.element with
  | .classType c => c.arguments
  | .primitive _ | .variable _ => []

def classType? (t : GenericType) : Option ClassType :=
  match t.element with
  | .classType c => if t.dimensions.val = 0 then some c else none
  | .primitive _ | .variable _ => none

def variableName? (t : GenericType) : Option String :=
  match t.element with
  | .variable name => some name
  | .primitive _ | .classType _ => none

/-- The erased type. What a type variable erases to is not a matter of the variable alone. -/
def erased? (t : GenericType) : Option ErasedType :=
  match t.element with
  | .primitive p => some (.inArrays (.primitive p) t.dimensions)
  | .classType c => some (.inArrays (.object c.erased) t.dimensions)
  | .variable _ => none

end GenericType

end NullSafety
