import NullSafety.Reader
import NullSafety.Signature.Basic
import NullSafety.Signature.Malformed

namespace NullSafety

namespace Signature

def maxNesting : Nat := 64

def isTerminator (c : Char) : Bool :=
  match c with
  | '.' | ';' | '[' | '/' | '<' | '>' | ':' => true
  | _ => false

def unexpected : List Char → Fault
  | [] => ⟨.prematureEnd, []⟩
  | c :: s => ⟨.unexpected c, c :: s⟩

def expect (c : Char) (s : List Char) : Except Fault (List Char) :=
  if s.head? = some c then .ok s.tail else .error (unexpected s)

def finish (s : List Char) : Except Fault Unit :=
  if s = [] then .ok () else .error ⟨.trailingData, s⟩

theorem length_lt_of_expect {c : Char} {s r : List Char} (h : expect c s = .ok r) :
    r.length < s.length := by
  unfold expect at h
  split at h
  · rename_i hs
    cases h
    cases s with
    | nil => simp at hs
    | cons d s => simp
  · cases h

def identifier : Reader Fault String where
  read s :=
    let name := s.takeWhile (!isTerminator ·)
    if name = [] then .error (unexpected s)
    else .ok (String.ofList name, s.dropWhile (!isTerminator ·))
  shorter {s r a} h := by
    dsimp only at h
    split at h
    · cases h
    · rename_i hn
      cases h
      have hl := congrArg List.length (List.takeWhile_append_dropWhile
        (p := (!isTerminator ·)) (l := s))
      have hp := List.length_pos_iff.mpr hn
      rw [List.length_append] at hl
      omega

def classPath : Reader Fault String where
  read s := do
    let (first, s) ← identifier.read s
    let (more, s) ← identifier.eachAfter '/' s
    return (String.ofList (['/'].intercalate ((first :: more).map String.toList)), s)
  shorter h := by
    obtain ⟨⟨a, t⟩, ht, h⟩ := exists_of_bind_eq_ok h
    obtain ⟨⟨as, u⟩, hu, h⟩ := exists_of_bind_eq_ok h
    cases h
    exact Nat.lt_of_le_of_lt (Reader.eachAfter_length_le _ _ hu) (identifier.shorter ht)

/-- Read the brackets in front of a type. The first one too many is where reading stops. -/
def dimensions (s : List Char) : Except Fault (Fin 256 × List Char) :=
  if h : leadingBrackets s < 256 then .ok (⟨_, h⟩, s.drop (leadingBrackets s))
  else .error ⟨.tooManyDimensions, s.drop 255⟩

theorem length_le_of_dimensions {s r : List Char} {n : Fin 256}
    (h : dimensions s = .ok (n, r)) : r.length ≤ s.length := by
  unfold dimensions at h
  split at h
  · cases h
    exact drop_leadingBrackets_length s
  · cases h

section

variable (arguments : Reader Fault (List GenericType))

def innerSegment : Reader Fault Segment where
  read s := do
    let (name, s) ← identifier.read s
    let (as, s) ← arguments.ifAt '<' s
    return (⟨name, as⟩, s)
  shorter h := by
    obtain ⟨⟨a, t⟩, ht, h⟩ := exists_of_bind_eq_ok h
    obtain ⟨⟨as, u⟩, hu, h⟩ := exists_of_bind_eq_ok h
    cases h
    exact Nat.lt_of_le_of_lt (Reader.ifAt_length_le _ _ hu) (identifier.shorter ht)

def classType : Reader Fault ClassType where
  read s := do
    let s ← expect 'L' s
    let (name, s) ← classPath.read s
    let (as, s) ← arguments.ifAt '<' s
    let (inner, s) ← (innerSegment arguments).eachAfter '.' s
    let s ← expect ';' s
    return (⟨⟨name, as⟩ :: inner⟩, s)
  shorter h := by
    obtain ⟨t, ht, h⟩ := exists_of_bind_eq_ok h
    obtain ⟨⟨name, u⟩, hu, h⟩ := exists_of_bind_eq_ok h
    obtain ⟨⟨as, v⟩, hv, h⟩ := exists_of_bind_eq_ok h
    obtain ⟨⟨inner, w⟩, hw, h⟩ := exists_of_bind_eq_ok h
    obtain ⟨x, hx, h⟩ := exists_of_bind_eq_ok h
    cases h
    have h₁ := length_lt_of_expect ht
    have h₂ := classPath.shorter hu
    have h₃ := Reader.ifAt_length_le _ _ hv
    have h₄ := Reader.eachAfter_length_le _ _ hw
    have h₅ := length_lt_of_expect hx
    omega

def typeVariable : Reader Fault String where
  read s := do
    let s ← expect 'T' s
    let (name, s) ← identifier.read s
    let s ← expect ';' s
    return (name, s)
  shorter h := by
    obtain ⟨t, ht, h⟩ := exists_of_bind_eq_ok h
    obtain ⟨⟨name, u⟩, hu, h⟩ := exists_of_bind_eq_ok h
    obtain ⟨v, hv, h⟩ := exists_of_bind_eq_ok h
    cases h
    have h₁ := length_lt_of_expect ht
    have h₂ := identifier.shorter hu
    have h₃ := length_lt_of_expect hv
    omega

def referenceElement : Reader Fault Element where
  read s :=
    match s.head? with
    | some 'L' => do
      let (c, s) ← (classType arguments).read s
      return (.classType c, s)
    | some 'T' => do
      let (name, s) ← typeVariable.read s
      return (.variable name, s)
    | _ => .error (unexpected s)
  shorter h := by
    dsimp only at h
    split at h
    · obtain ⟨⟨c, t⟩, ht, h⟩ := exists_of_bind_eq_ok h
      cases h
      exact (classType arguments).shorter ht
    · obtain ⟨⟨name, t⟩, ht, h⟩ := exists_of_bind_eq_ok h
      cases h
      exact typeVariable.shorter ht
    · cases h

def element : Reader Fault Element where
  read s :=
    match s.head?.bind Primitive.ofLetter? with
    | some p => .ok (.primitive p, s.tail)
    | none => (referenceElement arguments).read s
  shorter {s r a} h := by
    split at h
    · rename_i p hp
      cases h
      cases s with
      | nil => simp at hp
      | cons c s => simp
    · exact (referenceElement arguments).shorter h

def type : Reader Fault GenericType where
  read s := do
    let (n, s) ← dimensions s
    let (e, s) ← (element arguments).read s
    match (GenericType.exactly e).inArrays? n with
    | some t => .ok (t, s)
    | none => .error ⟨.tooManyDimensions, s⟩
  shorter h := by
    obtain ⟨⟨n, t⟩, ht, h⟩ := exists_of_bind_eq_ok h
    obtain ⟨⟨e, u⟩, hu, h⟩ := exists_of_bind_eq_ok h
    dsimp only at h
    split at h
    · cases h
      exact Nat.lt_of_lt_of_le ((element arguments).shorter hu) (length_le_of_dimensions ht)
    · cases h

def reference : Reader Fault GenericType where
  read s :=
    if s.head? = some '[' then (type arguments).read s
    else do
      let (e, s) ← (referenceElement arguments).read s
      return (.exactly e, s)
  shorter h := by
    dsimp only at h
    split at h
    · exact (type arguments).shorter h
    · obtain ⟨⟨e, t⟩, ht, h⟩ := exists_of_bind_eq_ok h
      cases h
      exact (referenceElement arguments).shorter ht

def marked (v : Variance) (s : List Char) : Except Fault (GenericType × List Char) := do
  let (t, s) ← (reference arguments).read s.tail
  return (t.withVariance v, s)

theorem marked_shorter {v : Variance} {s r : List Char} {t : GenericType}
    (h : marked arguments v s = .ok (t, r)) : r.length < s.length := by
  obtain ⟨⟨a, u⟩, hu, h⟩ := exists_of_bind_eq_ok h
  cases h
  have hl := (reference arguments).shorter hu
  rw [List.length_tail] at hl
  omega

def argument : Reader Fault GenericType where
  read s :=
    match s.head? with
    | some '*' => .ok (.anything, s.tail)
    | some '+' => marked arguments .covariant s
    | some '-' => marked arguments .contravariant s
    | _ => (reference arguments).read s
  shorter {s r a} h := by
    split at h
    · rename_i hs
      cases h
      cases s with
      | nil => simp at hs
      | cons c s => simp
    · exact marked_shorter arguments h
    · exact marked_shorter arguments h
    · exact (reference arguments).shorter h

end

/-- A list of type arguments, in which lists may stand inside each other as often as there is
room. -/
def argumentList : Nat → Reader Fault (List GenericType)
  | 0 => { read := fun s => .error ⟨.tooDeeplyNested, s⟩, shorter := fun h => nomatch h }
  | room + 1 =>
    { read := fun s => do
        let s ← expect '<' s
        (argument (argumentList room)).someUpTo '>' s
      shorter := fun h => by
        obtain ⟨t, ht, h⟩ := exists_of_bind_eq_ok h
        exact Nat.lt_trans (Reader.someUpTo_shorter _ _ h) (length_lt_of_expect ht) }

def anyType : Reader Fault GenericType := type (argumentList maxNesting)

def anyReference : Reader Fault GenericType := reference (argumentList maxNesting)

def anyClass : Reader Fault ClassType := classType (argumentList maxNesting)

/-- A class bound is left out if interface bounds follow at once. -/
def classBound (s : List Char) : Except Fault (Option GenericType × List Char) :=
  if s = [] ∨ s.head? = some ':' then .ok (none, s)
  else do
    let (t, s) ← anyReference.read s
    return (some t, s)

theorem length_le_of_classBound {s r : List Char} {b : Option GenericType}
    (h : classBound s = .ok (b, r)) : r.length ≤ s.length := by
  unfold classBound at h
  split at h
  · cases h
    exact Nat.le_refl _
  · obtain ⟨⟨t, u⟩, hu, h⟩ := exists_of_bind_eq_ok h
    cases h
    exact Nat.le_of_lt (anyReference.shorter hu)

def typeParameter : Reader Fault TypeParameter where
  read s := do
    let (name, s) ← identifier.read s
    let s ← expect ':' s
    let (bound, s) ← classBound s
    let (bounds, s) ← anyReference.eachAfter ':' s
    return (⟨name, bound, bounds⟩, s)
  shorter h := by
    obtain ⟨⟨name, t⟩, ht, h⟩ := exists_of_bind_eq_ok h
    obtain ⟨u, hu, h⟩ := exists_of_bind_eq_ok h
    obtain ⟨⟨b, v⟩, hv, h⟩ := exists_of_bind_eq_ok h
    obtain ⟨⟨bs, w⟩, hw, h⟩ := exists_of_bind_eq_ok h
    cases h
    have h₁ := identifier.shorter ht
    have h₂ := length_lt_of_expect hu
    have h₃ := length_le_of_classBound hv
    have h₄ := Reader.eachAfter_length_le _ _ hw
    omega

def typeParameterList : Reader Fault (List TypeParameter) where
  read s := do
    let s ← expect '<' s
    typeParameter.someUpTo '>' s
  shorter h := by
    obtain ⟨t, ht, h⟩ := exists_of_bind_eq_ok h
    exact Nat.lt_trans (Reader.someUpTo_shorter _ _ h) (length_lt_of_expect ht)

def result (s : List Char) : Except Fault (Return GenericType × List Char) :=
  if s.head? = some 'V' then .ok (.void, s.tail)
  else do
    let (t, s) ← anyType.read s
    return (.value t, s)

def methodSignature (s : List Char) : Except Fault MethodSignature := do
  let (typeParameters, s) ← typeParameterList.ifAt '<' s
  let s ← expect '(' s
  let (parameters, s) ← anyType.upTo ')' s
  let (result, s) ← result s
  let (thrown, s) ← anyReference.eachAfter '^' s
  finish s
  return ⟨typeParameters, parameters, result, thrown⟩

def fieldSignature (s : List Char) : Except Fault FieldSignature := do
  let (type, s) ← anyReference.read s
  finish s
  return ⟨type⟩

def classSignature (s : List Char) : Except Fault ClassSignature := do
  let (typeParameters, s) ← typeParameterList.ifAt '<' s
  let (superclass, s) ← anyClass.read s
  let interfaces ← anyClass.toEnd s
  return ⟨typeParameters, superclass, interfaces⟩

def parse {α : Type} (read : List Char → Except Fault α) (text : String) : Except Malformed α :=
  (read text.toList).mapError (Fault.locate text)

end Signature

def MethodSignature.parse : String → Except Malformed MethodSignature :=
  Signature.parse Signature.methodSignature

def FieldSignature.parse : String → Except Malformed FieldSignature :=
  Signature.parse Signature.fieldSignature

def ClassSignature.parse : String → Except Malformed ClassSignature :=
  Signature.parse Signature.classSignature

end NullSafety
