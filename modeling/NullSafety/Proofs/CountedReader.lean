import NullSafety.Signature.Parser

namespace NullSafety.Signature.Counted

structure Cursor where
  rest : List Char
  depth : Nat

/-- What a reader must never run into: no call is left, the number of open lists passes its limit
or falls below zero, an element does not fit into its array, or a loop reads nothing. -/
inductive Trap
  | outOfCalls
  | depthOverflow
  | depthUnderflow
  | wrapRefused
  | stalled

inductive Stop
  | fault (e : Fault)
  | trap (t : Trap)

abbrev Run (α : Type) : Type := EStateM Stop Cursor α

variable {α β : Type}

def answer (depth : Nat) : Except Fault (α × List Char) → EStateM.Result Stop Cursor α
  | .ok (a, r) => .ok a ⟨r, depth⟩
  | .error e => .error (.fault e) ⟨e.rest, depth⟩

def plain (read : List Char → Except Fault (α × List Char)) : Run α :=
  fun c => answer c.depth (read c.rest)

def peek : Run (Option Char) := fun c => .ok c.rest.head? c

def advance : Run Unit := fun c => .ok () { c with rest := c.rest.tail }

def fail (reason : Reason) : Run α := fun c => .error (.fault ⟨reason, c.rest⟩) c

def expect (next : Char) : Run Unit :=
  plain fun s => Signature.expect next s >>= fun r => .ok ((), r)

def unexpected : Run α := plain fun s => .error (Signature.unexpected s)

def finish : Run Unit := plain fun s => Signature.finish s >>= fun _ => .ok ((), s)

def prepend (a : α) : EStateM.Result Stop Cursor (List α) → EStateM.Result Stop Cursor (List α)
  | .ok as c => .ok (a :: as) c
  | .error e c => .error e c

def loop (goOn : Option Char → Bool) (item : Run α) (c : Cursor) :
    EStateM.Result Stop Cursor (List α) :=
  if goOn c.rest.head? then
    match item c with
    | .error e c' => .error e c'
    | .ok a c' =>
      if _h : c'.rest.length < c.rest.length then prepend a (loop goOn item c')
      else .error (.trap .stalled) c'
  else .ok [] c
termination_by c.rest.length

def eachAfter (mark : Char) (item : Run α) : Run (List α) :=
  loop (· = some mark) do
    advance
    item

def upTo (close : Char) (item : Run α) : Run (List α) := do
  let as ← loop (· ≠ some close) item
  advance
  return as

def someUpTo (close : Char) (item : Run α) : Run (List α) := do
  let a ← item
  let as ← upTo close item
  return a :: as

def toEnd (item : Run α) : Run (List α) := loop Option.isSome item

/-- Read inside one list more. The list is closed again whether or not reading succeeds. -/
def nested (run : Run α) : Run α := fun c =>
  if c.depth < maxNesting then
    match run { c with depth := c.depth + 1 } with
    | .ok a c' =>
      if c'.depth = 0 then .error (.trap .depthUnderflow) c'
      else .ok a { c' with depth := c'.depth - 1 }
    | .error e c' =>
      if c'.depth = 0 then .error (.trap .depthUnderflow) c'
      else .error e { c' with depth := c'.depth - 1 }
  else .error (.trap .depthOverflow) c

def wrap (n : Nat) (t : GenericType) : Run GenericType :=
  match t.inArrays? n with
  | some t => return t
  | none => throw (.trap .wrapRefused)

def wrapped (n : Nat) (reference : Run GenericType) : Run GenericType := do
  match ← peek with
  | some 'L' | some 'T' =>
    let t ← reference
    wrap n t
  | next =>
    match next.bind Primitive.ofLetter? with
    | some p =>
      advance
      wrap n (.exactly (.primitive p))
    | none => unexpected

-- Each of the five functions has one call less to give than it was called with.
mutual

def reference : Nat → Run GenericType
  | 0 => throw (.trap .outOfCalls)
  | calls + 1 => do
    match ← peek with
    | some 'L' =>
      let c ← classType calls
      return .exactly (.classType c)
    | some 'T' =>
      let name ← plain typeVariable.read
      return .exactly (.variable name)
    | some '[' => type calls
    | _ => unexpected

def type : Nat → Run GenericType
  | 0 => throw (.trap .outOfCalls)
  | calls + 1 => do
    let n ← plain dimensions
    wrapped n (reference calls)

def classType : Nat → Run ClassType
  | 0 => throw (.trap .outOfCalls)
  | calls + 1 => do
    expect 'L'
    let name ← plain classPath.read
    let as ← arguments calls
    let inner ← eachAfter '.' do
      let name ← plain identifier.read
      let as ← arguments calls
      return Segment.mk name as
    expect ';'
    return ⟨⟨name, as⟩ :: inner⟩

def arguments : Nat → Run (List GenericType)
  | 0 => throw (.trap .outOfCalls)
  | calls + 1 => do
    match ← peek with
    | some '<' =>
      let c ← get
      if maxNesting ≤ c.depth then fail .tooDeeplyNested
      else
        advance
        nested (someUpTo '>' (argument calls))
    | _ => return []

def argument : Nat → Run GenericType
  | 0 => throw (.trap .outOfCalls)
  | calls + 1 => do
    match ← peek with
    | some '*' =>
      advance
      return .anything
    | some '+' =>
      advance
      let t ← reference calls
      return t.withVariance .covariant
    | some '-' =>
      advance
      let t ← reference calls
      return t.withVariance .contravariant
    | _ => reference calls

end

def classBound (calls : Nat) : Run (Option GenericType) := do
  match ← peek with
  | none | some ':' => return none
  | some _ =>
    let t ← reference calls
    return some t

def typeParameter (calls : Nat) : Run TypeParameter := do
  let name ← plain identifier.read
  expect ':'
  let bound ← classBound calls
  let bounds ← eachAfter ':' (reference calls)
  return ⟨name, bound, bounds⟩

def typeParameterList (calls : Nat) : Run (List TypeParameter) := do
  match ← peek with
  | some '<' =>
    advance
    someUpTo '>' (typeParameter calls)
  | _ => return []

def result (calls : Nat) : Run (Return GenericType) := do
  match ← peek with
  | some 'V' =>
    advance
    return .void
  | _ =>
    let t ← type calls
    return .value t

def methodSignature (calls : Nat) : Run MethodSignature := do
  let ps ← typeParameterList calls
  expect '('
  let parameters ← upTo ')' (type calls)
  let result ← result calls
  let thrown ← eachAfter '^' (reference calls)
  finish
  return ⟨ps, parameters, result, thrown⟩

def fieldSignature (calls : Nat) : Run FieldSignature := do
  let t ← reference calls
  finish
  return ⟨t⟩

def classSignature (calls : Nat) : Run ClassSignature := do
  let ps ← typeParameterList calls
  let superclass ← classType calls
  let interfaces ← toEnd (classType calls)
  return ⟨ps, superclass, interfaces⟩

def parse (run : Run α) (text : String) : Except Trap (Except Malformed α) :=
  match run ⟨text.toList, 0⟩ with
  | .ok a _ => .ok (.ok a)
  | .error (.fault e) _ => .ok (.error (e.locate text))
  | .error (.trap t) _ => .error t

def stopped : EStateM.Result Stop Cursor α → Cursor
  | .ok _ c => c
  | .error _ c => c

theorem stopped_prepend (a : α) (x : EStateM.Result Stop Cursor (List α)) :
    stopped (prepend a x) = stopped x := by
  cases x <;> rfl

/-- As many lists are open behind the reader as in front of it, also if it fails. -/
def KeepsDepth (run : Run α) : Prop := ∀ c, (stopped (run c)).depth = c.depth

namespace KeepsDepth

theorem plain (read : List Char → Except Fault (α × List Char)) : KeepsDepth (plain read) := by
  intro c
  unfold Counted.plain
  cases read c.rest <;> rfl

theorem pure (a : α) : KeepsDepth (pure a : Run α) := fun _ => rfl

theorem throw (e : Stop) : KeepsDepth (throw e : Run α) := fun _ => rfl

theorem peek : KeepsDepth peek := fun _ => rfl

theorem advance : KeepsDepth advance := fun _ => rfl

theorem fail (reason : Reason) : KeepsDepth (fail reason : Run α) := fun _ => rfl

theorem bind {m : Run α} {k : α → Run β} (hm : KeepsDepth m) (hk : ∀ a, KeepsDepth (k a)) :
    KeepsDepth (m >>= k) := by
  intro c
  have hc := hm c
  change (stopped (EStateM.bind m k c)).depth = c.depth
  unfold EStateM.bind
  cases h : m c with
  | error e c' =>
    rw [h] at hc
    exact hc
  | ok a c' =>
    rw [h] at hc
    exact (hk a c').trans hc

theorem loop {goOn : Option Char → Bool} {item : Run α} (hitem : KeepsDepth item) :
    KeepsDepth (loop goOn item) := by
  intro c
  induction hn : c.rest.length using Nat.strongRecOn generalizing c with
  | ind n ih =>
    have hc := hitem c
    unfold Counted.loop
    split
    · split
      · rename_i h
        rw [h] at hc
        exact hc
      · rename_i a c' h
        rw [h] at hc
        split
        · rename_i hl
          rw [stopped_prepend, ih _ (hn ▸ hl) c' rfl]
          exact hc
        · exact hc
    · rfl

variable {item : Run α}

theorem eachAfter (hitem : KeepsDepth item) (mark : Char) : KeepsDepth (eachAfter mark item) :=
  loop (advance.bind fun _ => hitem)

theorem someUpTo (hitem : KeepsDepth item) (close : Char) :
    KeepsDepth (someUpTo close item) := by
  have hupTo : KeepsDepth (upTo close item) :=
    (loop hitem).bind fun as => advance.bind fun _ => pure as
  exact hitem.bind fun a => hupTo.bind fun as => pure (a :: as)

/-- The counter goes up and comes down again, so that it cannot underflow. -/
theorem nested {run : Run α} (hrun : KeepsDepth run) : KeepsDepth (nested run) := by
  intro c
  have hc := hrun { c with depth := c.depth + 1 }
  unfold Counted.nested
  split
  · split
    all_goals
      rename_i h
      rw [h] at hc
      dsimp only [stopped] at hc
      rw [if_neg (by omega)]
      dsimp only [stopped]
      omega
  · rfl

theorem wrap (n : Nat) (t : GenericType) : KeepsDepth (wrap n t) := by
  unfold Counted.wrap
  split
  · exact pure _
  · exact throw _

theorem wrapped (n : Nat) {reference : Run GenericType} (hreference : KeepsDepth reference) :
    KeepsDepth (wrapped n reference) := by
  refine peek.bind fun o => ?_
  split
  · exact hreference.bind fun t => wrap n t
  · exact hreference.bind fun t => wrap n t
  · split
    · exact advance.bind fun _ => wrap n _
    · exact plain _

end KeepsDepth

/-- By induction on the calls that are left: each function only calls those with one call less. -/
theorem keepsDepth (calls : Nat) :
    KeepsDepth (reference calls) ∧ KeepsDepth (type calls) ∧ KeepsDepth (classType calls) ∧
      KeepsDepth (arguments calls) ∧ KeepsDepth (argument calls) := by
  induction calls with
  | zero =>
    rw [reference, type, classType, arguments, argument]
    exact ⟨.throw _, .throw _, .throw _, .throw _, .throw _⟩
  | succ calls ih =>
    obtain ⟨href, htype, hclass, hargs, harg⟩ := ih
    refine ⟨?_, ?_, ?_, ?_, ?_⟩
    · rw [reference]
      refine KeepsDepth.peek.bind fun o => ?_
      split
      · exact hclass.bind fun c => .pure _
      · exact (KeepsDepth.plain _).bind fun name => .pure _
      · exact htype
      · exact .plain _
    · rw [type]
      exact (KeepsDepth.plain _).bind fun n => href.wrapped n
    · have hinner : KeepsDepth (do
          let name ← plain identifier.read
          let as ← arguments calls
          return Segment.mk name as) :=
        (KeepsDepth.plain _).bind fun name => hargs.bind fun as => .pure _
      rw [classType]
      refine (KeepsDepth.plain _).bind fun _ => (KeepsDepth.plain _).bind fun name => ?_
      refine hargs.bind fun as => (hinner.eachAfter '.').bind fun inner => ?_
      exact (KeepsDepth.plain _).bind fun _ => .pure _
    · rw [arguments]
      refine KeepsDepth.peek.bind fun o => ?_
      split
      · refine KeepsDepth.bind (fun _ => rfl) fun c => ?_
        split
        · exact .fail _
        · exact KeepsDepth.advance.bind fun _ => (harg.someUpTo '>').nested
      · exact .pure _
    · rw [argument]
      refine KeepsDepth.peek.bind fun o => ?_
      split
      · exact KeepsDepth.advance.bind fun _ => .pure _
      · exact KeepsDepth.advance.bind fun _ => href.bind fun t => .pure _
      · exact KeepsDepth.advance.bind fun _ => href.bind fun t => .pure _
      · exact href

end NullSafety.Signature.Counted
