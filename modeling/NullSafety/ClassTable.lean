import Std.Data.HashMap
import NullSafety.Name

namespace NullSafety

inductive LookupError
  | notFound (c : ClassName)
  | other (text : String)
  deriving DecidableEq

def LookupError.message : LookupError → String
  | notFound c => s!"Class not found: {c.binaryName}"
  | other text => s!"Failed to look up annotations: {text}"

/-- Where the annotations of classes come from. A package is asked for through the class that
carries its annotations, and no class is taken for an enum, unless the source knows better. -/
structure AnnotationSource where
  classAnnotations : ClassName → Except LookupError (List String)
  packageAnnotations : PackageName → Except LookupError (List String) :=
    fun p => classAnnotations p.info
  isEnum : ClassName → Except LookupError Bool := fun _ => .ok false

structure ClassFacts where
  annotations : List String := []
  isEnum : Bool := false
  deriving DecidableEq

structure ClassTable where
  classes : Std.HashMap ClassName ClassFacts

namespace ClassTable

def empty : ClassTable := ⟨∅⟩

def update (t : ClassTable) (c : ClassName) (f : ClassFacts → ClassFacts) : ClassTable :=
  ⟨t.classes.alter c fun facts => some (f (facts.getD {}))⟩

/-- Set the annotations of a class. An enum stays one. -/
def insertClass (t : ClassTable) (c : ClassName) (annotations : List String) : ClassTable :=
  t.update c fun facts => { facts with annotations }

def insertPackage (t : ClassTable) (p : PackageName) (annotations : List String) : ClassTable :=
  t.insertClass p.info annotations

def markEnum (t : ClassTable) (c : ClassName) : ClassTable :=
  t.update c fun facts => { facts with isEnum := true }

def removeClass (t : ClassTable) (c : ClassName) : Bool × ClassTable :=
  (t.classes.contains c, ⟨t.classes.erase c⟩)

def find (t : ClassTable) (c : ClassName) : Except LookupError ClassFacts :=
  match t.classes[c]? with
  | some facts => .ok facts
  | none => .error (.notFound c)

theorem find_empty (c : ClassName) : empty.find c = .error (.notFound c) := by
  simp [find, empty]

theorem find_update (t : ClassTable) (c d : ClassName) (f : ClassFacts → ClassFacts) :
    (t.update c f).find d =
      if c = d then .ok (f ((t.find c).toOption.getD {})) else t.find d := by
  unfold update find
  rw [Std.HashMap.getElem?_alter]
  by_cases h : c = d
  · subst d
    cases t.classes[c]? <;> simp [Except.toOption]
  · simp [h]

theorem find_removeClass (t : ClassTable) (c d : ClassName) :
    (t.removeClass c).2.find d = if c = d then .error (.notFound d) else t.find d := by
  unfold removeClass find
  rw [Std.HashMap.getElem?_erase]
  by_cases h : c = d
  · simp [h]
  · simp [h]

def source (t : ClassTable) : AnnotationSource where
  classAnnotations c := ClassFacts.annotations <$> t.find c
  isEnum c := ClassFacts.isEnum <$> t.find c

end ClassTable

end NullSafety
