namespace NullSafety

/-- What is declared about null among the values of a type. -/
inductive Nullness
  | undeclared
  | unspecified
  | nullable
  | nonNull
  deriving DecidableEq, Ord

namespace Nullness

instance : Inhabited Nullness := ⟨undeclared⟩

def canBeNull (n : Nullness) : Bool := n ≠ nonNull

def isExplicit (n : Nullness) : Bool := n ≠ undeclared

def name : Nullness → String
  | undeclared => "no_explicit_config"
  | unspecified => "unknown"
  | nullable => "nullable"
  | nonNull => "not_null"

def ofName? : String → Option Nullness
  | "no_explicit_config" => some undeclared
  | "unknown" => some unspecified
  | "nullable" => some nullable
  | "not_null" => some nonNull
  | _ => none

def description : Nullness → String
  | undeclared => "no explicit config"
  | unspecified => "unknown"
  | nullable => "nullable"
  | nonNull => "not null"

end Nullness

end NullSafety
