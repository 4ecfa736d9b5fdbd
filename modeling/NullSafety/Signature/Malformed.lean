import NullSafety.Text

namespace NullSafety

inductive Reason
  | prematureEnd
  | unexpected (c : Char)
  | trailingData
  | tooManyDimensions
  | tooDeeplyNested
  deriving DecidableEq

def Reason.message : Reason → String
  | prematureEnd => "unexpected end of signature"
  | unexpected c => s!"unexpected character `{c}`"
  | trailingData => "unexpected data after the end of signature"
  | tooManyDimensions => "too many array dimensions"
  | tooDeeplyNested => "type arguments nested too deeply"

structure Fault where
  reason : Reason
  rest : List Char
  deriving DecidableEq

/-- A signature that cannot be read. The position is a byte offset into its text. -/
structure Malformed where
  text : String
  position : Nat
  reason : Reason
  deriving DecidableEq

def Fault.locate (text : String) (f : Fault) : Malformed :=
  ⟨text, utf8Length text.toList - utf8Length f.rest, f.reason⟩

def Malformed.message (m : Malformed) : String :=
  s!"Malformed signature `{m.text}` at {m.position}: {m.reason.message}"

end NullSafety
