namespace NullSafety

inductive Primitive
  | boolean
  | char
  | float
  | double
  | byte
  | short
  | int
  | long
  deriving DecidableEq, Ord, Hashable

namespace Primitive

def letter : Primitive → Char
  | boolean => 'Z'
  | char => 'C'
  | float => 'F'
  | double => 'D'
  | byte => 'B'
  | short => 'S'
  | int => 'I'
  | long => 'J'

def ofLetter? : Char → Option Primitive
  | 'Z' => some boolean
  | 'C' => some char
  | 'F' => some float
  | 'D' => some double
  | 'B' => some byte
  | 'S' => some short
  | 'I' => some int
  | 'J' => some long
  | _ => none

def keyword : Primitive → String
  | boolean => "boolean"
  | char => "char"
  | float => "float"
  | double => "double"
  | byte => "byte"
  | short => "short"
  | int => "int"
  | long => "long"

@[simp] theorem ofLetter?_letter (p : Primitive) : ofLetter? p.letter = some p := by
  cases p <;> rfl

end Primitive

end NullSafety
