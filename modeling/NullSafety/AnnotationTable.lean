import Std.Data.HashMap
import NullSafety.ErasedType
import NullSafety.Nullness

namespace NullSafety

def undelimited (s : List Char) : List Char :=
  if s.head? = some 'L' ∧ s.tail.getLast? = some ';' then s.tail.dropLast else s

/-- The binary name that an annotation has in all of its spellings: as a descriptor, with dots
or with slashes. -/
def annotationName (spelling : String) : String :=
  replaceChar '.' '/' (String.ofList (undelimited spelling.toList))

structure AnnotationTable where
  entries : Std.HashMap String Nullness
  deriving BEq

namespace AnnotationTable

def empty : AnnotationTable := ⟨∅⟩

/-- An annotation that declares nothing is not kept. -/
def insert (t : AnnotationTable) (spelling : String) (n : Nullness) : AnnotationTable :=
  if n.isExplicit then ⟨t.entries.insert (annotationName spelling) n⟩
  else ⟨t.entries.erase (annotationName spelling)⟩

def ofList (pairs : List (String × Nullness)) : AnnotationTable :=
  pairs.foldl (fun t p => t.insert p.1 p.2) empty

def toList (t : AnnotationTable) : List (String × Nullness) := t.entries.toList

def size (t : AnnotationTable) : Nat := t.entries.size

def isEmpty (t : AnnotationTable) : Bool := t.entries.isEmpty

def nullnessOf? (t : AnnotationTable) (spelling : String) : Option Nullness :=
  t.entries[annotationName spelling]?

theorem nullnessOf?_empty (spelling : String) : empty.nullnessOf? spelling = none := by
  simp [nullnessOf?, empty]

theorem entries_insert (t : AnnotationTable) (s name : String) (n : Nullness) :
    (t.insert s n).entries[name]? =
      if annotationName s = name then if n.isExplicit then some n else none
      else t.entries[name]? := by
  unfold insert
  split
  · rw [Std.HashMap.getElem?_insert]
    simp
  · rw [Std.HashMap.getElem?_erase]
    simp

/-- The last insertion under a name counts, however the name is spelled. -/
theorem nullnessOf?_insert (t : AnnotationTable) (s q : String) (n : Nullness) :
    (t.insert s n).nullnessOf? q =
      if annotationName s = annotationName q then if n.isExplicit then some n else none
      else t.nullnessOf? q :=
  t.entries_insert s (annotationName q) n

def needless? (t : AnnotationTable) (type : ErasedType) (spelling : String) (isEnum : Bool) :
    Option Nullness :=
  (t.nullnessOf? spelling).filter fun n => (type.isPrimitive || isEnum) && n.canBeNull

def firstSpellings : List (String × Nullness) → List (String × Nullness)
  | [] => []
  | a :: as =>
    a :: (firstSpellings as).filter fun b => annotationName b.1 ≠ annotationName a.1

/-- The annotations that the table knows, each name once, with what they declare. -/
def recognized (t : AnnotationTable) (spellings : List String) : List (String × Nullness) :=
  firstSpellings (spellings.filterMap fun s => (t.nullnessOf? s).map (s, ·))

def standard : AnnotationTable :=
  ofList [
    ("org/jspecify/annotations/Nullable", .nullable),
    ("org/jspecify/annotations/NonNull", .nonNull),
    ("org/jspecify/annotations/NullMarked", .nonNull),
    ("org/jspecify/annotations/NullUnmarked", .unspecified),
    ("org/jspecify/annotations/NullnessUnspecified", .unspecified),
    ("org/jspecify/annotations/DefaultNonNull", .nonNull),
    ("org/jspecify/nullness/Nullable", .nullable),
    ("org/jspecify/nullness/NullMarked", .nonNull),
    ("org/jspecify/nullness/NullnessUnspecified", .unspecified),
    ("codeanalysis/experimental/annotations/NullnessUnknown", .unspecified),
    ("codeanalysis/experimental/annotations/Nullable", .nullable),
    ("codeanalysis/experimental/annotations/NotNull", .nonNull)]

end AnnotationTable

end NullSafety
