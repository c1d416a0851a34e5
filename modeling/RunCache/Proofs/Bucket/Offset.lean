import RunCache.Proofs.Bucket.Name

/-! # Listing from a run on

    A listing may start at the directory of a run.  Names are compared
    character by character, and the slash behind an id is one of them, so
    an id may be the beginning of another one, or go on with a character
    that sorts before the slash.

    * **`Text.lt_iff_of_slash`**: what stands behind a slash does not decide
      how a text compares with one that holds none.
    * **`Query.admits_fromRun`**: which runs a listing has, told by their ids
      alone.
    * **`offset_keeps_runs_whole`**: it has all objects of a run or none. -/

namespace RunCache

namespace Text

/-! ## Order of texts -/

theorem append_lt_append_iff (start : List Char) {a b : List Char} :
    start ++ a < start ++ b ↔ a < b := by
  induction start with
  | nil => rfl
  | cons c start ih =>
    have hc : ¬ c < c := Char.lt_irrefl c
    simp only [List.cons_append, List.cons_lt_cons_iff, hc, false_or, true_and, ih]

/-- Against a text without slashes a longer one is compared up to its first slash. -/
theorem lt_iff_of_slash {s : List Char} (hs : '/' ∉ s) (r tail : List Char) :
    r ++ '/' :: tail < s ↔ r ++ ['/'] < s := by
  induction r generalizing s with
  | nil =>
    cases s with
    | nil => simp only [List.not_lt_nil]
    | cons c s =>
      have hc : '/' ≠ c := fun heq => hs (heq ▸ List.mem_cons_self)
      simp only [List.nil_append, List.cons_lt_cons_iff, hc, false_and, or_false]
  | cons x r ih =>
    cases s with
    | nil => simp only [List.not_lt_nil]
    | cons c s =>
      have hrest : '/' ∉ s := fun hmem => hs (List.mem_cons_of_mem c hmem)
      simp only [List.cons_append, List.cons_lt_cons_iff, ih hrest]

/-- A text does not sort before its own beginning. -/
theorem not_append_lt (s tail : List Char) : ¬ s ++ tail < s := by
  have hnil : ¬ tail < [] := List.not_lt_nil tail
  rwa [← append_lt_append_iff s, List.append_nil] at hnil

end Text

/-! ## Runs of a listing -/

theorem ObjectName.toList_ofRun (job id : String) :
    (ofRun job id).toList = (ofJob job).toList ++ id.toList := by
  simp [ofRun, ofJob]

/-- The query for the objects of a job from the directory of a run on. -/
def Query.fromRun (job id : String) : Query :=
  { under := ObjectName.ofJob job, offset := some (ObjectName.ofRun job id) }

/-- A listing from a run on has what is in the directory of another run just where the id of that
    one, with the slash behind it, does not sort before the id of the first. -/
theorem Query.admits_fromRun {job r s name : String} (hs : '/' ∉ s.toList)
    (hname : Text.startsWith name (ObjectName.ofRun job r ++ "/") = true) :
    (Query.fromRun job s).admits name = true ↔ ¬ r ++ "/" < s := by
  rw [Text.startsWith, List.isPrefixOf_iff_prefix] at hname
  obtain ⟨tail, htail⟩ := hname
  have htext : name.toList = (ObjectName.ofJob job).toList ++ (r.toList ++ '/' :: tail) := by
    rw [← htail, String.toList_append, ObjectName.toList_ofRun, List.append_assoc,
      List.append_assoc]
    rfl
  have hunder : Text.startsWith name (ObjectName.ofJob job) = true := by
    rw [Text.startsWith, List.isPrefixOf_iff_prefix, htext]
    exact List.prefix_append _ _
  -- Both names begin with the directory of the job, and the id is followed by a slash.
  have horder : name < ObjectName.ofRun job s ↔ r ++ "/" < s := by
    rw [String.lt_iff, String.lt_iff, htext, ObjectName.toList_ofRun, Text.append_lt_append_iff,
      Text.lt_iff_of_slash hs, String.toList_append]
    rfl
  rw [admits, fromRun, hunder, Bool.true_and, Option.all_some, Bool.not_eq_true',
    decide_eq_false_iff_not, horder]

/-- **A listing that starts at a run splits no run.** Of two objects in the directory of one run it
    has both or neither, and it has both in that of the run it starts at. Of the other runs it has
    those whose id, with the slash behind it, does not sort before the id of that one. -/
theorem offset_keeps_runs_whole {job r s n₁ n₂ : String} (hs : '/' ∉ s.toList)
    (h₁ : Text.startsWith n₁ (ObjectName.ofRun job r ++ "/") = true)
    (h₂ : Text.startsWith n₂ (ObjectName.ofRun job r ++ "/") = true) :
    (Query.fromRun job s).admits n₁ = (Query.fromRun job s).admits n₂ ∧
      ((Query.fromRun job s).admits n₁ = true ↔ ¬ r ++ "/" < s) ∧
      (r = s → (Query.fromRun job s).admits n₁ = true ∧
        (Query.fromRun job s).admits n₂ = true) := by
  have hfirst := Query.admits_fromRun hs h₁
  have hsecond := Query.admits_fromRun hs h₂
  refine ⟨Bool.eq_iff_iff.mpr (hfirst.trans hsecond.symm), hfirst, ?_⟩
  rintro rfl
  have hself : ¬ r ++ "/" < r := by
    rw [String.lt_iff, String.toList_append]
    exact Text.not_append_lt _ _
  exact ⟨hfirst.mpr hself, hsecond.mpr hself⟩

/-- The id `1` begins the ids `10` and `1-`, one of which sorts behind `1/` and one before it: a
    listing from `10` on leaves the run `1` out and one from `1-` on has all of it. -/
theorem offset_keeps_runs_whole_beginning :
    (Query.fromRun "job" "10").admits "logs/job/1/artifacts/junit/x.xml" = false ∧
      (Query.fromRun "job" "10").admits "logs/job/10/prowjob.json" = true ∧
      (Query.fromRun "job" "1-").admits "logs/job/1/artifacts/junit/x.xml" = true := by
  have hout := @offset_keeps_runs_whole "job" "1" "10" "logs/job/1/artifacts/junit/x.xml"
    "logs/job/1/prowjob.json" (by decide) (by decide) (by decide)
  have hself := @offset_keeps_runs_whole "job" "10" "10" "logs/job/10/prowjob.json"
    "logs/job/10/" (by decide) (by decide) (by decide)
  have hall := @offset_keeps_runs_whole "job" "1" "1-" "logs/job/1/artifacts/junit/x.xml"
    "logs/job/1/prowjob.json" (by decide) (by decide) (by decide)
  refine ⟨?_, (hself.2.2 rfl).1, hall.2.1.mpr (by decide)⟩
  rw [hout.1]
  decide

end RunCache
