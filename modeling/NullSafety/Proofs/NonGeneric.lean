import NullSafety.ParameterTypes
import NullSafety.Proofs.Descriptors
import NullSafety.Proofs.RoundTrip

namespace NullSafety

def Return.types : Return ErasedType → List ErasedType
  | value t => [t]
  | void => []

def MethodType.types (m : MethodType) : List ErasedType := m.parameters ++ m.result.types

theorem Return.valid_iff (t : Return ErasedType) : t.Valid ↔ ∀ u ∈ t.types, u.Valid := by
  cases t with
  | value u => simp [Valid, types]
  | void => simp [Valid, types]

theorem MethodType.valid_iff (m : MethodType) : m.Valid ↔ ∀ t ∈ m.types, t.Valid := by
  rw [types, List.forall_mem_append, ← Return.valid_iff]
  exact ⟨fun h => ⟨h.parameters, h.result⟩, fun h => ⟨h.1, h.2⟩⟩

/-- One or more components with slashes between them, none of which is empty or holds a
character that has a meaning in signatures. -/
def ClassName.IsPath (c : ClassName) : Prop :=
  ∃ parts : List String, parts ≠ [] ∧
    (∀ part ∈ parts, part ≠ "" ∧ ∀ d ∈ part.toList, d ∉ ['/', '.', '[', '<', '>', ':']) ∧
    c.binaryName = "/".intercalate parts

theorem mem_intercalate {parts : List String} {part : String} {d : Char} (hp : part ∈ parts)
    (hd : d ∈ part.toList) : d ∈ ("/".intercalate parts).toList := by
  cases parts with
  | nil => cases hp
  | cons first more =>
    rw [Signature.toList_intercalate_slash, List.mem_append, List.mem_flatMap]
    obtain rfl | hmore := List.mem_cons.mp hp
    · exact .inl hd
    · exact .inr ⟨part, hmore, List.mem_cons_of_mem _ hd⟩

/-- A name that a descriptor can hold has no semicolon, which is the one character that a
signature reserves besides. -/
theorem ClassName.IsPath.isClassPath {c : ClassName} (hc : c.IsPath) (hw : c.IsWritable) :
    IsClassPath c.binaryName := by
  obtain ⟨parts, hne, hparts, hname⟩ := hc
  refine ⟨parts, hne, fun part hpart => ?_, hname⟩
  obtain ⟨hempty, hchars⟩ := hparts part hpart
  refine ⟨mt String.toList_eq_nil_iff.mp hempty, fun d hd hr => ?_⟩
  have hsemi : d ≠ ';' := by
    rintro rfl
    exact hw.2 (hname ▸ mem_intercalate hpart hd)
  have hrest := hchars d hd
  simp only [reserved, List.mem_cons, List.not_mem_nil, or_false, not_or] at hr hrest
  grind

namespace ErasedType

def element : ErasedType → Element
  | primitive p => .primitive p
  | object c => .classType (.raw c.binaryName)
  | array t => t.element

/-- The type in a signature that has the same text. -/
def generic (t : ErasedType) : GenericType :=
  ⟨.invariant, ⟨t.dimensions % 256, Nat.mod_lt _ (by decide)⟩, t.element⟩

theorem generic_dimensions {t : ErasedType} (ht : t.Valid) :
    t.generic.dimensions.val = t.dimensions :=
  Nat.mod_eq_of_lt (Nat.lt_succ_of_le ht.1)

theorem element_chars (t : ErasedType) : t.element.chars = t.innermost.descriptorChars := by
  induction t with
  | primitive p => simp [element, Element.chars, innermost, descriptorChars]
  | object c =>
    simp [element, Element.chars, ClassType.raw, ClassType.chars_eq, Segment.chars_eq,
      GenericType.argumentsChars, innermost, descriptorChars]
  | array t ih => exact ih

theorem generic_chars {t : ErasedType} (ht : t.Valid) : t.generic.chars = t.descriptorChars := by
  rw [GenericType.chars_of_invariant rfl, generic_dimensions ht, descriptorChars_eq,
    ← element_chars]
  rfl

theorem element_fits {t : ErasedType} (limit : Nat)
    (ht : ∀ c, t.innermost = .object c → IsClassPath c.binaryName) : t.element.Fits limit := by
  induction t with
  | primitive p => exact Element.fits_primitive limit p
  | object c =>
    refine Element.fits_classType.mpr (ClassType.fits_iff.mpr ⟨ht c rfl, ?_, by simp⟩)
    exact GenericType.allFit_nil limit
  | array t ih => exact ih ht

theorem generic_plain {t : ErasedType}
    (ht : ∀ c, t.innermost = .object c → IsClassPath c.binaryName) : t.generic.IsPlain 64 :=
  GenericType.isPlain_iff.mpr ⟨rfl, element_fits 64 ht⟩

/-- The element is that of the innermost type, which is no array. -/
theorem element_cases (t : ErasedType) :
    (∃ p, t.innermost = .primitive p ∧ t.generic.element = .primitive p) ∨
      ∃ c, t.innermost = .object c ∧ t.generic.element = .classType (.raw c.binaryName) := by
  induction t with
  | primitive p => exact .inl ⟨p, rfl, rfl⟩
  | object c => exact .inr ⟨c, rfl, rfl⟩
  | array t ih => exact ih

theorem erased?_generic {t : ErasedType} (ht : t.Valid) : t.generic.erased? = some t := by
  have hdims := generic_dimensions ht
  have hself := t.innermost_inArrays_dimensions
  obtain ⟨p, hp, he⟩ | ⟨c, hc, he⟩ := t.element_cases
  · rw [hp] at hself
    simp only [GenericType.erased?, he, hdims, hself]
  · have hraw : (ClassType.raw c.binaryName).erased = c := by
      simp [ClassType.raw, ClassType.erased]
    rw [hc] at hself
    simp only [GenericType.erased?, he, hraw, hdims, hself]

theorem arguments_generic (t : ErasedType) : t.generic.arguments = [] := by
  obtain ⟨p, -, he⟩ | ⟨c, -, he⟩ := t.element_cases
  · simp only [GenericType.arguments, he]
  · simp only [GenericType.arguments, he]
    rfl

theorem variableName?_generic (t : ErasedType) : t.generic.variableName? = none := by
  obtain ⟨p, -, he⟩ | ⟨c, -, he⟩ := t.element_cases
  · simp only [GenericType.variableName?, he]
  · simp only [GenericType.variableName?, he]

end ErasedType

namespace Return

def generic : Return ErasedType → Return GenericType
  | value t => value t.generic
  | void => void

def erased? : Return GenericType → Option (Return ErasedType)
  | value t => t.erased?.map value
  | void => some void

theorem generic_chars {t : Return ErasedType} (ht : t.Valid) :
    t.generic.chars = t.descriptorChars := by
  cases t with
  | value t => exact ErasedType.generic_chars ht
  | void => rfl

theorem erased?_generic {t : Return ErasedType} (ht : t.Valid) : t.generic.erased? = some t := by
  cases t with
  | value t =>
    rw [generic, erased?, ErasedType.erased?_generic ht]
    rfl
  | void => rfl

end Return

namespace MethodType

def signature (m : MethodType) : MethodSignature :=
  ⟨[], m.parameters.map ErasedType.generic, m.result.generic, []⟩

theorem signature_chars {m : MethodType} (hm : m.Valid) :
    m.signature.chars = m.descriptorChars := by
  have hlist : (m.parameters.map ErasedType.generic).flatMap GenericType.chars =
      m.parameters.flatMap ErasedType.descriptorChars := by
    rw [List.flatMap_map, List.flatMap_def, List.flatMap_def,
      List.map_congr_left fun t ht => ErasedType.generic_chars (hm.parameters t ht)]
  have hresult := Return.generic_chars hm.result
  simp [signature, MethodSignature.chars, TypeParameter.listChars, hlist, hresult,
    descriptorChars]

theorem signature_wellFormed {m : MethodType}
    (hm : ∀ t ∈ m.types, ∀ c, t.innermost = .object c → IsClassPath c.binaryName) :
    m.signature.WellFormed where
  typeParameters := nofun
  parameters := by
    rintro g hg
    obtain ⟨t, ht, rfl⟩ := List.mem_map.mp hg
    exact ErasedType.generic_plain (hm t (List.mem_append_left _ ht))
  result := by
    intro g hg
    cases hres : m.result with
    | value t =>
      rw [signature, hres] at hg
      cases hg
      exact ErasedType.generic_plain (hm t (by simp [types, hres, Return.types]))
    | void =>
      rw [signature, hres] at hg
      cases hg
  thrown := nofun

theorem erase_generic (s : MethodSignature) {t : ErasedType} (ht : t.Valid) :
    s.erase t.generic = t := by
  simp only [MethodSignature.erase, ErasedType.variableName?_generic,
    ErasedType.erased?_generic ht]
  rfl

theorem get_signature {m : MethodType} (hm : m.Valid) (i : Nat) :
    (ParameterTypes.generic m.signature).get i = (ParameterTypes.erased m.parameters).get i := by
  have hget : (ParameterTypes.generic m.signature).get? i =
      (ParameterTypes.erased m.parameters).get? i := by
    simp only [ParameterTypes.get?, signature, List.getElem?_map, Option.map_map]
    cases hi : m.parameters[i]? with
    | none => rfl
    | some t =>
      have ht := hm.parameters t (List.mem_of_getElem? hi)
      simp [erase_generic _ ht, ErasedType.arguments_generic]
  have hcount : (ParameterTypes.generic m.signature).count =
      (ParameterTypes.erased m.parameters).count := by
    simp [ParameterTypes.count, signature]
  rw [ParameterTypes.get, ParameterTypes.get, hget, hcount]

/-- A descriptor is the signature of its method, unless a class name reads otherwise there. -/
theorem parse_descriptor {m : MethodType} (hm : m.Valid)
    (hnames : ∀ t ∈ m.types, ∀ c, t.innermost = .object c → c.IsPath) :
    MethodSignature.parse m.descriptor = .ok m.signature := by
  have hpaths : ∀ t ∈ m.types, ∀ c, t.innermost = .object c → IsClassPath c.binaryName :=
    fun t ht c hc => (hnames t ht c hc).isClassPath ((m.valid_iff.mp hm t ht).2 c hc)
  have hread := Signature.methodSignature_chars (signature_wellFormed hpaths)
  exact Signature.parse_of_chars (by rw [descriptor, signature_chars hm]) hread

end MethodType

theorem ParameterTypes.arguments_of_erased {ts : List ErasedType} {i : Nat} {t : ParameterType}
    (h : (erased ts).get i = .ok t) : t.arguments = [] := by
  simp only [get, get?] at h
  cases hi : ts[i]? with
  | none =>
    rw [hi] at h
    cases h
  | some u =>
    rw [hi] at h
    cases h
    rfl

theorem ofSignature_descriptor {text : String} {m : MethodType}
    (h : MethodType.ofDescriptor text = .ok m)
    (hnames : ∀ t ∈ m.types, ∀ c, t.innermost = .object c → c.IsPath) :
    ∃ sig, MethodSignature.parse m.descriptor = .ok sig ∧ sig.typeParameters = [] ∧
      sig.thrown = [] ∧ sig.result.erased? = some m.result ∧
      ∃ p q, ParameterTypes.ofSignature m (some m.descriptor) = .ok p ∧
        ParameterTypes.ofSignature m none = .ok q ∧
        ∀ i, p.get i = q.get i ∧ ∀ t, p.get i = .ok t → t.arguments = [] := by
  have hm : m.Valid := (MethodType.ofChars_eq_ok.mp h).1
  have hparse := MethodType.parse_descriptor hm hnames
  have hcount : m.signature.parameters.length = m.parameters.length := List.length_map ..
  have hgeneric : ParameterTypes.ofSignature m (some m.descriptor) = .ok (.generic m.signature) := by
    rw [ParameterTypes.ofSignature, hparse]
    exact if_pos hcount
  refine ⟨m.signature, hparse, rfl, rfl, Return.erased?_generic hm.result, _, _, hgeneric, rfl,
    fun i => ?_⟩
  have hget := MethodType.get_signature hm i
  exact ⟨hget, fun t ht => ParameterTypes.arguments_of_erased (hget ▸ ht)⟩

def nestedMethod : MethodType :=
  ⟨[.primitive .int, .object ⟨"V"⟩, .array (.array (.object ⟨"p/q$r"⟩))], .value (.object ⟨"V"⟩)⟩

theorem nestedMethod_names :
    ∀ t ∈ nestedMethod.types, ∀ c, t.innermost = .object c → c.IsPath ∧ c.IsWritable := by
  have hV : ClassName.IsPath ⟨"V"⟩ ∧ ClassName.IsWritable ⟨"V"⟩ :=
    ⟨⟨["V"], by decide, by simp, by decide⟩, by decide, by decide⟩
  have hr : ClassName.IsPath ⟨"p/q$r"⟩ ∧ ClassName.IsWritable ⟨"p/q$r"⟩ :=
    ⟨⟨["p", "q$r"], by decide, by simp, by decide⟩, by decide, by decide⟩
  simp [nestedMethod, MethodType.types, Return.types, ErasedType.innermost, hV, hr]

theorem ofSignature_descriptor_nested :
    MethodType.ofDescriptor "(ILV;[[Lp/q$r;)LV;" = .ok nestedMethod ∧
    ∃ sig, MethodSignature.parse nestedMethod.descriptor = .ok sig ∧ sig.typeParameters = [] ∧
      sig.thrown = [] ∧ sig.result.erased? = some nestedMethod.result ∧
      ∃ p q, ParameterTypes.ofSignature nestedMethod (some nestedMethod.descriptor) = .ok p ∧
        ParameterTypes.ofSignature nestedMethod none = .ok q ∧
        (∀ i, p.get i = q.get i ∧ ∀ t, p.get i = .ok t → t.arguments = []) ∧
        p.get 2 = .ok ⟨.array (.array (.object ⟨"p/q$r"⟩)), []⟩ ∧
        p.get 3 = .error (.indexOutOfRange 3 3) := by
  have hnames := nestedMethod_names
  have htext : MethodType.ofDescriptor "(ILV;[[Lp/q$r;)LV;" = .ok nestedMethod := by
    have hdims : ∀ t ∈ nestedMethod.types, t.dimensions ≤ 255 := by decide
    have hvalid := nestedMethod.valid_iff.mpr fun t ht =>
      ⟨hdims t ht, fun c hc => (hnames t ht c hc).2⟩
    exact MethodType.ofChars_eq_ok.mpr ⟨hvalid, by decide⟩
  obtain ⟨sig, hsig, hparameters, hthrown, hresult, p, q, hp, hq, hget⟩ :=
    ofSignature_descriptor htext fun t ht c hc => (hnames t ht c hc).1
  refine ⟨htext, sig, hsig, hparameters, hthrown, hresult, p, q, hp, hq, hget, ?_, ?_⟩
  · rw [(hget 2).1, ← Except.ok.inj hq]
    rfl
  · rw [(hget 3).1, ← Except.ok.inj hq]
    rfl

end NullSafety
