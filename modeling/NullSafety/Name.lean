import NullSafety.Text

namespace NullSafety

/-- A class by its binary name, such as `java/util/Map$Entry`. -/
structure ClassName where
  binaryName : String
  deriving DecidableEq, Ord, Hashable

/-- A package by its binary name, such as `java/util`; the unnamed package has the empty name. -/
structure PackageName where
  binaryName : String
  deriving DecidableEq, Ord, Hashable

def ClassName.root : ClassName := ⟨"java/lang/Object"⟩

def ClassName.package (c : ClassName) : PackageName :=
  ⟨String.ofList (beforeLast '/' c.binaryName.toList)⟩

def PackageName.info (p : PackageName) : ClassName :=
  if p.binaryName.isEmpty then ⟨"package-info"⟩ else ⟨p.binaryName ++ "/package-info"⟩

theorem PackageName.package_info (p : PackageName) : p.info.package = p := by
  obtain ⟨name⟩ := p
  by_cases h : name.isEmpty
  · have hname : name = "" := String.isEmpty_iff.mp h
    have hnone : beforeLast '/' "package-info".toList = [] := beforeLast_of_notMem (by decide)
    subst hname
    rw [info, if_pos h, ClassName.package, hnone]
  · have htext : (name ++ "/package-info").toList = name.toList ++ '/' :: "package-info".toList := by
      simp
    rw [info, if_neg h, ClassName.package, htext, beforeLast_append (by decide),
      String.ofList_toList]

end NullSafety
