import NullSafety.Primitive
import NullSafety.Name
import NullSafety.Reader

namespace NullSafety

/-- A type as the virtual machine sees it, with nothing generic left. -/
inductive ErasedType
  | primitive (p : Primitive)
  | object (c : ClassName)
  | array (component : ErasedType)
  deriving DecidableEq, Ord, Hashable

inductive DescriptorError
  | invalid
  deriving DecidableEq

def DescriptorError.message : DescriptorError → String
  | invalid => "Invalid descriptor"

namespace ErasedType

def root : ErasedType := .object .root

def descriptorChars : ErasedType → List Char
  | primitive p => [p.letter]
  | object c => 'L' :: c.binaryName.toList ++ [';']
  | array t => '[' :: t.descriptorChars

def descriptor (t : ErasedType) : String := String.ofList t.descriptorChars

def sourceName : ErasedType → String
  | primitive p => p.keyword
  | object c => replaceChar '/' '.' c.binaryName
  | array t => t.sourceName ++ "[]"

def isReference : ErasedType → Bool
  | primitive _ => false
  | object _ | array _ => true

def isPrimitive (t : ErasedType) : Bool := !t.isReference

def dimensions : ErasedType → Nat
  | primitive _ | object _ => 0
  | array t => t.dimensions + 1

def innermost : ErasedType → ErasedType
  | array t => t.innermost
  | t => t

def component? : ErasedType → Option ErasedType
  | array t => some t
  | primitive _ | object _ => none

def inArrays (t : ErasedType) : Nat → ErasedType
  | 0 => t
  | n + 1 => array (t.inArrays n)

/-- Read a type that is no array. A class name is whatever stands before the next semicolon. -/
def readInnermost : List Char → Except DescriptorError (ErasedType × List Char)
  | 'L' :: s =>
    let name := s.takeWhile (· ≠ ';')
    match s.dropWhile (· ≠ ';') with
    | [] => .error .invalid
    | _ :: r => if name = [] then .error .invalid else .ok (object ⟨String.ofList name⟩, r)
  | c :: s =>
    match Primitive.ofLetter? c with
    | some p => .ok (primitive p, s)
    | none => .error .invalid
  | [] => .error .invalid

theorem readInnermost_shorter {s r : List Char} {t : ErasedType}
    (h : readInnermost s = .ok (t, r)) : r.length < s.length := by
  unfold readInnermost at h
  split at h
  · rename_i s
    dsimp only at h
    split at h
    · cases h
    · rename_i d r' hd
      split at h
      · cases h
      · cases h
        have hl : (s.dropWhile (· ≠ ';')).length ≤ s.length :=
          (List.dropWhile_suffix _).length_le
        rw [hd, List.length_cons] at hl
        rw [List.length_cons]
        omega
  · split at h
    · cases h; simp
    · cases h
  · cases h

/-- A descriptor begins with at most 255 brackets, one for each dimension. -/
def reader : Reader DescriptorError ErasedType where
  read s :=
    let n := leadingBrackets s
    if 255 < n then .error .invalid
    else do
      let (t, r) ← readInnermost (s.drop n)
      return (t.inArrays n, r)
  shorter {s r a} h := by
    dsimp only at h
    split at h
    · cases h
    · obtain ⟨⟨t, u⟩, hu, h⟩ := exists_of_bind_eq_ok h
      cases h
      exact Nat.lt_of_lt_of_le (readInnermost_shorter hu) (drop_leadingBrackets_length s)

def ofChars (s : List Char) : Except DescriptorError ErasedType :=
  match reader.read s with
  | .ok (t, []) => .ok t
  | _ => .error .invalid

def ofDescriptor (s : String) : Except DescriptorError ErasedType := ofChars s.toList

end ErasedType

end NullSafety
