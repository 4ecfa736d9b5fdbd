import NullSafety.Proofs.ReadsBack
import NullSafety.Proofs.RepeatedReads
import NullSafety.Proofs.WellFormed

namespace NullSafety.Signature

theorem isTerminator_iff {c : Char} : isTerminator c = true ↔ c ∈ reserved := by
  unfold isTerminator
  split <;> simp_all [reserved]

/-- A name in front of this text is not part of a longer one. -/
def EndsName (r : List Char) : Prop := ∀ c, r.head? = some c → c ∈ reserved

theorem endsName_cons {c : Char} {r : List Char} : EndsName (c :: r) ↔ c ∈ reserved := by
  simp [EndsName]

theorem endsName_dropWhile (s : List Char) : EndsName (s.dropWhile (!isTerminator ·)) := by
  intro c hc
  have h := List.head?_dropWhile_not (!isTerminator ·) s
  rw [hc] at h
  exact isTerminator_iff.mp (by simpa using h)

theorem takeWhile_of_endsName {r : List Char} (hr : EndsName r) :
    r.takeWhile (!isTerminator ·) = [] := by
  cases r with
  | nil => rfl
  | cons c r => simp [isTerminator_iff.mpr (hr c rfl)]

theorem identifier_readsBack :
    ReadsBack identifier.read IsIdentifier String.toList EndsName := by
  intro name hn r hr
  have hname : ∀ c ∈ name.toList, (!isTerminator c) = true := by
    intro c hc
    simpa using mt isTerminator_iff.mp (hn.2 c hc)
  have htake := takeWhile_of_endsName hr
  have hdrop : r.dropWhile (!isTerminator ·) = r := by
    have h := List.takeWhile_append_dropWhile (p := (!isTerminator ·)) (l := r)
    rwa [htake] at h
  simp only [identifier, List.takeWhile_append_of_pos hname, List.dropWhile_append_of_pos hname,
    htake, hdrop, List.append_nil, if_neg hn.1, String.ofList_toList]

theorem identifier_of_endsName {s : List Char} (hs : EndsName s) :
    identifier.read s = .error (unexpected s) := by
  simp only [identifier, takeWhile_of_endsName hs, ↓reduceIte]

theorem identifier_eq_ok {s r : List Char} {name : String} (h : identifier.read s = .ok (name, r)) :
    IsIdentifier name ∧ s = name.toList ++ r ∧ EndsName r := by
  simp only [identifier] at h
  split at h
  · cases h
  · rename_i hn
    cases h
    rw [IsIdentifier, String.toList_ofList, List.takeWhile_append_dropWhile]
    refine ⟨⟨hn, fun c hc => ?_⟩, rfl, endsName_dropWhile s⟩
    have ht := List.all_takeWhile (p := (!isTerminator ·)) (l := s)
    have hc := List.all_eq_true.mp ht c hc
    exact mt isTerminator_iff.mpr (by simpa using hc)

theorem endsName_of_identifier_error {s : List Char} {e : Fault}
    (h : identifier.read s = .error e) : EndsName s := by
  simp only [identifier] at h
  split at h
  · rename_i hn
    have hs := List.takeWhile_append_dropWhile (p := (!isTerminator ·)) (l := s)
    rw [hn, List.nil_append] at hs
    exact hs ▸ endsName_dropWhile s
  · cases h

theorem identifier_reads : Reads identifier.read (Written IsIdentifier String.toList) where
  spelled := ⟨"T", ['T'], by decide, by decide⟩
  reads s := by
    refine ⟨fun {name r} h => ?_, fun {e} h => ?_⟩
    · obtain ⟨hn, hr, he⟩ := identifier_eq_ok h
      refine ⟨name.toList, hr, ⟨hn, rfl⟩, fun t ht => identifier_readsBack name hn t ?_⟩
      rwa [EndsName, ht]
    · have hs := endsName_of_identifier_error h
      have hfail := Reads.fail_unexpected (L := Written IsIdentifier String.toList)
        ⟨"T", ['T'], by decide, by decide⟩
      refine ((hfail.reads s).congr fun t ht => ?_).error h
      exact identifier_of_endsName (by rwa [EndsName, ht])

theorem intercalate_slash (first : String) (more : List String) :
    ['/'].intercalate ((first :: more).map String.toList) =
      first.toList ++ more.flatMap ('/' :: ·.toList) := by
  rw [List.map_cons, intercalate_cons, List.flatMap_map]

theorem toList_intercalate_slash (first : String) (more : List String) :
    ("/".intercalate (first :: more)).toList = first.toList ++ more.flatMap ('/' :: ·.toList) := by
  rw [String.toList_intercalate]
  exact intercalate_slash first more

theorem classPath_reads : Reads classPath.read (Written IsClassPath String.toList) := by
  refine identifier_reads.bind ?_
  rintro first u ⟨hf, rfl⟩
  refine (identifier_reads.eachAfter '/').bind ?_
  rintro more v ⟨hm, rfl⟩
  refine Reads.pure ⟨⟨first :: more, by simp, by simpa using ⟨hf, hm⟩, ?_⟩, ?_⟩
  · apply String.toList_injective
    simp
  · rw [String.toList_ofList, intercalate_slash, List.append_nil]

theorem classPath_readsBack :
    ReadsBack classPath.read IsClassPath String.toList
      (fun r => EndsName r ∧ r.head? ≠ some '/') := by
  rintro name ⟨parts, hne, hparts, rfl⟩ r hr
  cases parts with
  | nil => exact absurd rfl hne
  | cons first more =>
    have hslash (t : List Char) : EndsName ('/' :: t) := endsName_cons.mpr (by decide)
    have hmore := identifier_readsBack.eachAfter '/' hslash more
      (fun n hn => hparts n (by simp [hn])) r hr
    have hends : EndsName (more.flatMap ('/' :: ·.toList) ++ r) := by
      cases more with
      | nil => exact hr.1
      | cons next more => exact hslash _
    have hfirst := identifier_readsBack first (hparts first (by simp)) _ hends
    have htext := toList_intercalate_slash first more
    rw [htext, List.append_assoc]
    refine (ok_bind hfirst).trans ((ok_bind hmore).trans ?_)
    dsimp only
    rw [intercalate_slash, ← htext, String.ofList_toList]
    rfl

end NullSafety.Signature
