import RunCache.Proofs.Bucket.Name
import RunCache.Proofs.Text.Occurs

/-! # How descriptors and test results are called

    What an object is, is read off the segments of its name, from behind
    for descriptors and from the front for test results.  Here the names of
    both are told as texts, and reading finds exactly these.

    * **`ObjectKind.IsDescriptorName`**, **`ObjectKind.IsResultName`**: the
      names of the descriptors and of the test results of a run.
    * **`ObjectKind.ofName_descriptor_iff`**,
      **`ObjectKind.ofName_result_iff`**: what reading finds.
    * **`ObjectKind.ofName_follows_names`**: a name is of one of the two
      kinds just where it is such a name, and the names that the objects of
      a run have are among them. -/

namespace RunCache

open Text (joined segments)

/-- The name of a test result ends as it must and holds its marker. -/
theorem ObjectName.isTestResult_iff {name : String} : isTestResult name = true ↔
    (∃ start, name = start ++ resultEnding) ∧
      ∃ before behind, name = before ++ resultMarker ++ behind := by
  rw [isTestResult, Bool.and_eq_true, Text.endsWith, List.isSuffixOf_iff_suffix, Text.holds_iff]
  refine and_congr ⟨?_, ?_⟩ ⟨?_, ?_⟩
  · rintro ⟨start, hstart⟩
    exact ⟨String.ofList start, String.toList_injective (by simp [← hstart])⟩
  · rintro ⟨start, rfl⟩
    exact ⟨start.toList, by simp⟩
  · rintro ⟨before, behind, hparts⟩
    exact ⟨String.ofList before, String.ofList behind, String.toList_injective (by simp [← hparts])⟩
  · rintro ⟨before, behind, rfl⟩
    exact ⟨before.toList, behind.toList, by simp⟩

namespace ObjectKind

variable {name id : String}

/-! ## Names by kind -/

/-- The names of the descriptors of a run: the file of descriptors in a directory of the run's id,
    wherever that directory lies. -/
structure IsDescriptorName (id name : String) : Prop where
  some_id : id ≠ ""
  one_segment : '/' ∉ id.toList
  spelled : name = id ++ "/" ++ ObjectName.descriptorFile ∨
    ∃ dir, name = dir ++ "/" ++ id ++ "/" ++ ObjectName.descriptorFile

/-- The names of the test results of a run: the run's id is the third of four segments or more. -/
structure IsResultName (id name : String) : Prop where
  some_id : id ≠ ""
  test : ObjectName.isTestResult name = true
  third : ∃ root job file more, segments name = root :: job :: id :: file :: more

/-! ## Reading names -/

/-- Segments that end with an id and the file of descriptors are those of the two spellings. -/
theorem segments_eq_iff (hslash : '/' ∉ id.toList) :
    (∃ init, segments name = init ++ [id, ObjectName.descriptorFile]) ↔
      name = id ++ "/" ++ ObjectName.descriptorFile ∨
        ∃ dir, name = dir ++ "/" ++ id ++ "/" ++ ObjectName.descriptorFile := by
  have hpair : segments (id ++ "/" ++ ObjectName.descriptorFile) =
      [id, ObjectName.descriptorFile] := by
    rw [Text.segments_append_slash, Text.segments_of_no_slash hslash]
    rfl
  have hjoined : joined [id, ObjectName.descriptorFile] =
      id ++ "/" ++ ObjectName.descriptorFile := by
    rw [← hpair, Text.joined_segments]
  constructor
  · rintro ⟨init, hsegs⟩
    have hname : name = joined (init ++ [id, ObjectName.descriptorFile]) := by
      rw [← hsegs, Text.joined_segments]
    -- With nothing before the id the name is spelled without a directory.
    by_cases hnil : init = []
    · left
      rw [hname, hnil, List.nil_append, hjoined]
    · right
      refine ⟨joined init, ?_⟩
      rw [hname, joined, String.intercalate_append_of_ne_nil hnil (by simp), ← joined, ← joined,
        hjoined]
      simp only [String.append_assoc]
  · rintro (rfl | ⟨dir, rfl⟩)
    · exact ⟨[], by rw [hpair, List.nil_append]⟩
    · refine ⟨segments dir, ?_⟩
      rw [← hpair, ← Text.segments_append_slash]
      simp only [String.append_assoc]

theorem ofName_descriptor_iff : ofName name = .descriptor id ↔ IsDescriptorName id name := by
  constructor
  · intro h
    obtain ⟨hid, init, hsegs⟩ := ofName_eq_descriptor h
    have hslash : '/' ∉ id.toList :=
      Text.no_slash_of_mem_segments (s := name) (by rw [hsegs]; simp)
    exact ⟨hid, hslash, (segments_eq_iff hslash).mp ⟨init, hsegs⟩⟩
  · rintro ⟨hid, hslash, hspelled⟩
    obtain ⟨init, hsegs⟩ := (segments_eq_iff hslash).mpr hspelled
    exact ofName_of_segments hsegs hid

/-- The name of a test result is not that of a descriptor. -/
theorem ofDescriptor_of_isTestResult (h : ObjectName.isTestResult name = true) :
    ofDescriptor? (segments name) = none := by
  obtain ⟨init, last, hsegs, _, hend⟩ := ObjectName.segments_of_isTestResult h
  refine ofDescriptor_of_last hsegs ?_
  rintro rfl
  exact absurd hend (by decide)

theorem ofName_result_iff : ofName name = .result id ↔ IsResultName id name := by
  constructor
  · intro h
    obtain ⟨htest, hid, hsegs⟩ := ofName_eq_result h
    exact ⟨hid, htest, hsegs⟩
  · rintro ⟨hid, htest, root, job, file, more, hsegs⟩
    rw [ofName, ofDescriptor_of_isTestResult htest, hsegs]
    simp [htest, ofResult, hid]

/-! ## Objects of a run -/

/-- Whatever lies in the directory of a run has its id as the third segment. -/
theorem segments_below_ofRun {job : String} (hjob : '/' ∉ job.toList) (hid : '/' ∉ id.toList)
    (tail : String) :
    segments (ObjectName.ofRun job id ++ "/" ++ tail) =
      ObjectName.logsRoot :: job :: id :: segments tail := by
  rw [ObjectName.ofRun, Text.segments_append_slash, Text.segments_append_slash,
    Text.segments_append_slash, Text.segments_of_no_slash hjob, Text.segments_of_no_slash hid]
  rfl

theorem isResultName_below {job : String} (hjob : '/' ∉ job.toList) (hid : id ≠ "")
    (hslash : '/' ∉ id.toList) {tail : String}
    (htest : ObjectName.isTestResult (ObjectName.ofRun job id ++ "/" ++ tail) = true) :
    IsResultName id (ObjectName.ofRun job id ++ "/" ++ tail) := by
  obtain ⟨file, more, htail⟩ := List.exists_cons_of_ne_nil (Text.segments_ne_nil tail)
  refine ⟨hid, htest, ObjectName.logsRoot, job, file, more, ?_⟩
  rw [segments_below_ofRun hjob hslash, htail]

/-- **Names tell exactly what objects are.** An object is the descriptor of a run just where its
    name is spelled as that of one, a test result of a run just where it is called so, and nothing
    else otherwise; being called so is a matter of how the name ends and of what it holds.  So the
    own descriptor of a run is one of the run, and whatever in the directory of a run is called as
    test results are is one of the run. -/
theorem ofName_follows_names :
    (∀ name id, ofName name = .descriptor id ↔ IsDescriptorName id name) ∧
    (∀ name id, ofName name = .result id ↔ IsResultName id name) ∧
    (∀ name, ofName name = .other ↔
      ∀ id, ¬ IsDescriptorName id name ∧ ¬ IsResultName id name) ∧
    (∀ name, ObjectName.isTestResult name = true ↔
      (∃ start, name = start ++ ObjectName.resultEnding) ∧
        ∃ before behind, name = before ++ ObjectName.resultMarker ++ behind) ∧
    (∀ job id, id ≠ "" → '/' ∉ id.toList →
      ofName (ObjectName.ofDescriptor job id) = .descriptor id) ∧
    ∀ job id tail, '/' ∉ job.toList → id ≠ "" → '/' ∉ id.toList →
      ObjectName.isTestResult (ObjectName.ofRun job id ++ "/" ++ tail) = true →
        ofName (ObjectName.ofRun job id ++ "/" ++ tail) = .result id := by
  refine ⟨fun name id => ofName_descriptor_iff, fun name id => ofName_result_iff, ?_,
    fun name => ObjectName.isTestResult_iff, ?_, ?_⟩
  · intro name
    constructor
    · intro hother id
      rw [← ofName_descriptor_iff, ← ofName_result_iff, hother]
      exact ⟨nofun, nofun⟩
    · intro hnone
      cases hkind : ofName name with
      | descriptor id => exact absurd (ofName_descriptor_iff.mp hkind) (hnone id).1
      | result id => exact absurd (ofName_result_iff.mp hkind) (hnone id).2
      | other => rfl
  · intro job id hid hslash
    exact ofName_ofDescriptor hid hslash
  · intro job id tail hjob hid hslash htest
    exact ofName_result_iff.mpr (isResultName_below hjob hid hslash htest)

/-- A descriptor deeper in the directory of a run belongs to another one, and a descriptor needs no
    directory above that of its run. -/
theorem ofName_follows_names_nested :
    ofName "logs/job/42/artifacts/nested/prowjob.json" = .descriptor "nested" ∧
      ofName "42/prowjob.json" = .descriptor "42" ∧
      ofName (ObjectName.ofDescriptor "job" "42") = .descriptor "42" ∧
      ofName (ObjectName.ofRun "job" "42" ++ "/" ++ "junit.xml") = .result "42" := by
  obtain ⟨hdescriptor, _, _, _, hown, hbelow⟩ := ofName_follows_names
  refine ⟨(hdescriptor _ _).mpr ⟨by decide, by decide, .inr ⟨"logs/job/42/artifacts", by decide⟩⟩,
    (hdescriptor _ _).mpr ⟨by decide, by decide, .inl (by decide)⟩,
    hown "job" "42" (by decide) (by decide), ?_⟩
  exact hbelow "job" "42" "junit.xml" (by decide) (by decide) (by decide) (by decide)

end ObjectKind

end RunCache
