import RunCache.Bucket.Name
import RunCache.Bucket.Query
import RunCache.Proofs.Disk.Path

/-! # Names of objects of a job

    * **`IsName.of_mem_steps`**: the segments of a name that stays inside
      are plain names.
    * **`ObjectName.segments_of_admits`**: an object inside the query for a
      job lies below the job.
    * **`ObjectKind.ofName_eq_result`**: what the name of a test result is.
    * **`ObjectKind.ofName_ofDescriptor`**: the name of a run's own
      descriptor.
    * **`ObjectKind.exists_steps_below`**: an object of a run lies deeper than
      the job. -/

namespace RunCache

open Text (segments joined)

/-- The segments of a name that are not empty. -/
def ObjectName.steps (name : String) : List String := (segments name).filter (!·.isEmpty)

theorem IsName.of_mem_steps {name s : String} (h : ObjectName.staysInside name = true)
    (hs : s ∈ ObjectName.steps name) : IsName s := by
  obtain ⟨hmem, hne⟩ := List.mem_filter.mp hs
  simp only [ObjectName.staysInside, Bool.and_eq_true, Bool.not_eq_true', List.any_eq_false,
    Bool.or_eq_true, decide_eq_true_eq, not_or] at h
  exact ⟨by simpa using hne, (h.2 s hmem).1, (h.2 s hmem).2, Text.no_slash_of_mem_segments hmem⟩

namespace ObjectName

theorem steps_eq_segments {name : String} (h : "" ∉ segments name) :
    steps name = segments name := by
  refine List.filter_eq_self.mpr fun s hs => ?_
  have hne : s ≠ "" := fun heq => h (heq ▸ hs)
  simpa using hne

/-- The name of an object inside the query for a job goes on from the directory of the job. -/
theorem eq_of_admits {job name : String} {offset : Option String}
    (h : Query.admits ⟨ofJob job, offset⟩ name = true) :
    ∃ tail, name = logsRoot ++ "/" ++ (job ++ "/" ++ tail) := by
  simp only [Query.admits, Bool.and_eq_true, Text.startsWith, List.isPrefixOf_iff_prefix] at h
  obtain ⟨cs, hcs⟩ := h.1
  refine ⟨String.ofList cs, ?_⟩
  apply String.toList_injective
  rw [← hcs, ofJob]
  simp

/-- An object inside the query for a job has the job as its second segment. -/
theorem segments_of_admits {job name : String} {offset : Option String}
    (hjob : '/' ∉ job.toList) (h : Query.admits ⟨ofJob job, offset⟩ name = true) :
    ∃ tail, segments name = logsRoot :: job :: segments tail := by
  obtain ⟨tail, rfl⟩ := eq_of_admits h
  refine ⟨tail, ?_⟩
  rw [Text.segments_append_slash, Text.segments_append_slash, Text.segments_of_no_slash hjob]
  rfl

/-- An object inside the query for a job lies below the job, however many segments that has. -/
theorem steps_of_admits {job name : String} {offset : Option String}
    (h : Query.admits ⟨ofJob job, offset⟩ name = true) :
    ∃ tail, steps name = logsRoot :: (steps job ++ tail) := by
  obtain ⟨tail, rfl⟩ := eq_of_admits h
  refine ⟨steps tail, ?_⟩
  rw [steps, Text.segments_append_slash, Text.segments_append_slash, List.filter_append,
    List.filter_append]
  rfl

theorem segments_ofDescriptor {job id : String} (hjob : '/' ∉ job.toList)
    (hid : '/' ∉ id.toList) : segments (ofDescriptor job id) = [logsRoot, job, id, descriptorFile] := by
  rw [ofDescriptor, ofRun, Text.segments_append_slash, Text.segments_append_slash,
    Text.segments_append_slash, Text.segments_of_no_slash hjob, Text.segments_of_no_slash hid]
  rfl

/-- The last segment of the name of a test result ends as the name does. -/
theorem segments_of_isTestResult {name : String} (h : isTestResult name = true) :
    ∃ init last, segments name = init ++ [last] ∧ last ≠ "" ∧
      Text.endsWith last resultEnding = true := by
  simp only [isTestResult, Bool.and_eq_true, Text.endsWith, List.isSuffixOf_iff_suffix] at h
  obtain ⟨start, hstart⟩ := h.1
  have hname : name = String.ofList start ++ resultEnding := by
    apply String.toList_injective
    rw [← hstart]
    simp
  -- The ending holds no slash, so it is the end of the last segment too.
  obtain ⟨init, last, _, hsegs⟩ :=
    Text.segments_append_of_no_slash (String.ofList start) (t := resultEnding) (by decide)
  refine ⟨init, last ++ resultEnding, by rw [hname, hsegs], fun hempty => ?_, ?_⟩
  · have hlist := congrArg String.toList hempty
    simp [resultEnding] at hlist
  · rw [Text.endsWith, List.isSuffixOf_iff_suffix, String.toList_append]
    exact List.suffix_append _ _

/-- The last step of the name of a test result ends as the name does. -/
theorem endsWith_of_isTestResult {name last : String} {init : List String}
    (h : isTestResult name = true) (hsteps : steps name = init ++ [last]) :
    Text.endsWith last resultEnding = true := by
  obtain ⟨init', last', hsegs, hne, hend⟩ := segments_of_isTestResult h
  have hone : [last'].filter (!·.isEmpty) = [last'] := by simp [hne]
  rw [steps, hsegs, List.filter_append, hone] at hsteps
  rw [← List.singleton_inj.mp (List.append_inj' hsteps rfl).2]
  exact hend

/-- A name whose last segment does not end as those of test results do is none of a test result. -/
theorem isTestResult_of_segments {name last : String} {init : List String}
    (h : segments name = init ++ [last]) (hne : last ≠ "")
    (hlast : Text.endsWith last resultEnding = false) : isTestResult name = false := by
  have hsteps : steps name = init.filter (!·.isEmpty) ++ [last] := by
    rw [steps, h, List.filter_append]
    simp [hne]
  cases htest : isTestResult name with
  | false => rfl
  | true =>
    rw [endsWith_of_isTestResult htest hsteps] at hlast
    cases hlast

end ObjectName

namespace ObjectKind

theorem ofDescriptor_ne_result {segs : List String} {id : String} :
    ofDescriptor? segs ≠ some (.result id) := by
  unfold ofDescriptor?
  split
  · split
    · split <;> simp
    · simp
  · simp

theorem ofName_eq_result {name id : String} (h : ofName name = .result id) :
    ObjectName.isTestResult name = true ∧ id ≠ "" ∧
      ∃ a b file more, segments name = a :: b :: id :: file :: more := by
  unfold ofName at h
  split at h
  · next kind hkind =>
    rw [h] at hkind
    exact absurd hkind ofDescriptor_ne_result
  · split at h
    · next htest =>
      refine ⟨htest, ?_⟩
      unfold ofResult at h
      split at h
      · next a b id' file more hsegs =>
        split at h
        · cases h
        · next hid =>
          cases h
          exact ⟨by simpa using hid, a, b, file, more, hsegs⟩
      · cases h
    · cases h

/-- The name of a descriptor ends with the id of its run and the file of descriptors. -/
theorem ofName_eq_descriptor {name id : String} (h : ofName name = .descriptor id) :
    id ≠ "" ∧ ∃ init, segments name = init ++ [id, ObjectName.descriptorFile] := by
  have hdesc : ∀ segs, ofDescriptor? segs = some (.descriptor id) →
      id ≠ "" ∧ ∃ init, segs = init ++ [id, ObjectName.descriptorFile] := by
    intro segs hsegs
    unfold ofDescriptor? at hsegs
    split at hsegs
    · next file id' more hrev =>
      split at hsegs
      · next hfile =>
        split at hsegs
        · cases hsegs
        · next hid =>
          cases hsegs
          refine ⟨by simpa using hid, more.reverse, ?_⟩
          -- The segments are read from the end.
          rw [← hfile, ← List.reverse_reverse segs, hrev]
          simp
      · cases hsegs
    · cases hsegs
  unfold ofName at h
  split at h
  · next kind hkind =>
    rw [h] at hkind
    exact hdesc _ hkind
  · split at h
    · unfold ofResult at h
      split at h
      · split at h <;> cases h
      · cases h
    · cases h

theorem ofName_of_segments {name id : String} {init : List String}
    (h : segments name = init ++ [id, ObjectName.descriptorFile]) (hid : id ≠ "") :
    ofName name = .descriptor id := by
  have hdesc : ofDescriptor? (segments name) = some (.descriptor id) := by
    rw [h, ofDescriptor?, List.reverse_append]
    simp [hid]
  rw [ofName, hdesc]

/-- The name of a run's own descriptor is that of a descriptor of the run. -/
theorem ofName_ofDescriptor {job id : String} (hid : id ≠ "") (hslash : '/' ∉ id.toList) :
    ofName (ObjectName.ofDescriptor job id) = .descriptor id := by
  have hsegs : segments (ObjectName.ofDescriptor job id) =
      segments (ObjectName.logsRoot ++ "/" ++ job) ++ [id, ObjectName.descriptorFile] := by
    rw [ObjectName.ofDescriptor, ObjectName.ofRun, Text.segments_append_slash,
      Text.segments_append_slash, Text.segments_of_no_slash hslash, List.append_assoc]
    rfl
  exact ofName_of_segments hsegs hid

/-- The name of an object that belongs to a run does not end in a slash. -/
theorem exists_last {name id : String} (h : (ofName name).runId? = some id) :
    ∃ init last, segments name = init ++ [last] ∧ last ≠ "" := by
  cases hkind : ofName name with
  | descriptor found =>
    obtain ⟨_, init, hsegs⟩ := ofName_eq_descriptor hkind
    exact ⟨init ++ [found], ObjectName.descriptorFile, by rw [hsegs, List.append_assoc]; rfl,
      by decide⟩
  | result found =>
    obtain ⟨init, last, hsegs, hne, _⟩ :=
      ObjectName.segments_of_isTestResult (ofName_eq_result hkind).1
    exact ⟨init, last, hsegs, hne⟩
  | other =>
    rw [hkind] at h
    cases h

/-- An object of a run that is listed for a job has steps behind that of the job. -/
theorem exists_steps_below {job name id : String} {offset : Option String} (hjob : IsName job)
    (hadmits : Query.admits ⟨ObjectName.ofJob job, offset⟩ name = true)
    (h : (ofName name).runId? = some id) :
    ∃ tail, tail ≠ [] ∧ ObjectName.steps name = ObjectName.logsRoot :: job :: tail := by
  obtain ⟨tail, hsegs⟩ := ObjectName.segments_of_admits hjob.2.2.2 hadmits
  obtain ⟨init, last, hlast, hne⟩ := exists_last h
  have hjobStep : job.isEmpty = false := by simpa using hjob.1
  refine ⟨(segments tail).filter (!·.isEmpty), ?_, ?_⟩
  · -- The last segment lies behind the job and is not empty.
    have hmem : last ∈ segments tail := by
      have hget := congrArg List.getLast? (hsegs.symm.trans hlast)
      rw [List.getLast?_cons_cons, List.getLast?_cons_of_ne_nil (Text.segments_ne_nil tail),
        List.getLast?_concat] at hget
      exact List.mem_of_getLast? hget
    exact List.ne_nil_of_mem (List.mem_filter.mpr ⟨hmem, by simpa using hne⟩)
  · have hroot : ObjectName.logsRoot.isEmpty = false := by decide
    rw [ObjectName.steps, hsegs]
    simp [hroot, hjobStep]

/-- An object whose last segment is not that of descriptors is none. -/
theorem ofDescriptor_of_last {segs init : List String} {last : String}
    (h : segs = init ++ [last]) (hfile : last ≠ ObjectName.descriptorFile) :
    ofDescriptor? segs = none := by
  rw [h, ofDescriptor?, List.reverse_append, List.reverse_singleton, List.singleton_append]
  cases init.reverse with
  | nil => rfl
  | cons id more => exact if_neg hfile

/-- An object that is called neither as descriptors nor as test results are belongs to no run. -/
theorem ofName_of_last {name last : String} {init : List String}
    (h : segments name = init ++ [last]) (hne : last ≠ "") (hfile : last ≠ ObjectName.descriptorFile)
    (hlast : Text.endsWith last ObjectName.resultEnding = false) : ofName name = .other := by
  rw [ofName, ofDescriptor_of_last h hfile, ObjectName.isTestResult_of_segments h hne hlast]
  rfl

end ObjectKind

end RunCache
