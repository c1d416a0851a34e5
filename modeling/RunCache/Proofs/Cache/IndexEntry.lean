import RunCache.Proofs.Cache.Footprint
import RunCache.Proofs.Cache.IndexTree
import RunCache.Proofs.Disk.Standing

/-! # Entries of the by-name index beside the contents

    Where the files of the contents of a run can be written and the index
    holds nothing but entries, the entry of the run can be written too, if
    the system takes its path.  Whether label and name can serve as names of
    directories is checked before, but not their length, nor whether there
    is a NUL in them: with such a label or name the write ends.

    * **`Writing.write_of_file_error`**: the errors of writing a file.
    * **`CachePath.EntryFits`**: an entry whose path the system takes.
    * **`Writing.entry_written_iff`**: the entries that can be written.
    * **`Run.objectFiles`**: the files of the contents.
    * **`Run.write_ends_by_entry`**: how a write with an entry ends.
    * **`Run.nul_label_ends_write`**: a label with a NUL in it. -/

namespace RunCache

open ObjectName (steps)
open Disk (Stands Takes)

/-- An entry whose path the system takes: no name on it is too long, nor the path as a whole, and it
    holds no NUL. -/
structure CachePath.EntryFits (root : Path) (job label name : String) : Prop where
  short : ∀ s ∈ [job, label, name], s.utf8ByteSize ≤ Disk.nameLimit
  accepted : Disk.accept (ofIndexEntry root job label name) = .ok ()

namespace Writing

variable {x y : Writing} {root target dir p : Path} {job label name : String} {now : Int}
  {bytes : ByteArray} {e : Error} {d : Disk}

/-! ## Errors of writing -/

theorem write_of_probe_error (h : probe d p = .error e) : ∃ q f, e = .write q f := by
  unfold probe at h
  cases hex : d.exists? p with
  | ok b =>
    rw [hex] at h
    cases h
  | error f =>
    rw [hex] at h
    exact ⟨p.text, f, (Except.error.inj h).symm⟩

theorem write_of_outermost_error {above : List Path} (h : outermost d p above = .error e) :
    ∃ q f, e = .write q f := by
  induction above generalizing p with
  | nil => cases h
  | cons q above ih =>
    unfold outermost at h
    split at h
    · cases h
    · split at h
      · next hprobe => exact Except.error.inj h ▸ write_of_probe_error hprobe
      · cases h
      · exact ih h

theorem write_of_plan_error (h : x.plan dir = .error e) : ∃ q f, e = .write q f := by
  unfold plan at h
  split at h
  · next hprobe => exact Except.error.inj h ▸ write_of_probe_error hprobe
  · cases h
  · cases hout : outermost x.disk dir dir.ancestors.tail with
    | ok q =>
      rw [hout] at h
      cases h
    | error e' =>
      rw [hout] at h
      exact Except.error.inj h ▸ write_of_outermost_error hout

theorem write_of_makeDirs_error (h : x.makeDirs dir = (.error e, y)) :
    ∃ q f, e = .write q f := by
  unfold makeDirs at h
  split at h
  · next hplan => exact Except.error.inj (Prod.mk.inj h).1 ▸ write_of_plan_error hplan
  · next z _ =>
    rcases hmake : z.disk.makeDirs dir with ⟨result, d⟩
    rw [hmake] at h
    cases result with
    | ok u => cases (Prod.mk.inj h).1
    | error f => exact ⟨dir.text, f, (Except.error.inj (Prod.mk.inj h).1).symm⟩

theorem write_of_put_error (h : x.put now target bytes = (.error e, y)) :
    ∃ q f, e = .write q f := by
  unfold put at h
  split at h
  · next f _ => exact ⟨target.text, f, (Except.error.inj (Prod.mk.inj h).1).symm⟩
  · cases h

/-- A file that cannot be written ends the writing with a fault of the disk. -/
theorem write_of_file_error (h : x.file now target bytes = (.error e, y)) :
    ∃ q f, e = .write q f := by
  unfold file at h
  split at h
  · exact write_of_put_error h
  · split at h
    · next hmake =>
      rw [h] at hmake
      exact write_of_makeDirs_error hmake
    · exact write_of_put_error h

/-- Writing files is writing some of them and then the others. -/
theorem files_append (x : Writing) (now : Int) (files rest : List (Path × ByteArray)) :
    x.files now (files ++ rest) =
      match x.files now files with
      | (.error e, y) => (.error e, y)
      | (.ok (), y) => y.files now rest := by
  induction files generalizing x with
  | nil => rfl
  | cons f files ih =>
    obtain ⟨target, bytes⟩ := f
    rw [List.cons_append, Writing.files, Writing.files]
    rcases x.file now target bytes with ⟨result, y⟩
    cases result with
    | error e => rfl
    | ok u => exact ih y

/-! ## Entries -/

/-- In an index of entries, nothing but open directories is on the way to a further entry. -/
theorem open_of_indexOnly (hopen : d.get? (d.place root) = some (.dir false))
    (hindex : d.IndexOnly root) :
    d.Open (d.place root) [CachePath.indexRoot, job, label, name] := by
  intro l hl entry hget
  cases l with
  | nil =>
    rw [List.append_nil, hopen] at hget
    exact (Option.some.inj hget).symm
  | cons s rel =>
    obtain ⟨rfl, hrel⟩ := List.cons_prefix_cons.mp hl
    rcases hindex rel entry hget with ⟨_, hdir⟩ | ⟨hlen, _⟩
    · exact hdir
    · have hle := hrel.length_le
      simp [hlen, CachePath.indexDepth] at hle

/-- So an entry can be written just where the system takes its path. -/
theorem entry_written_iff (hroot : x.disk.Stands root)
    (hopen : x.disk.get? (x.disk.place root) = some (.dir false))
    (hindex : x.disk.IndexOnly root) (hjob : IsName job)
    (hlabel : CachePath.isOneDirectory label = true)
    (hname : CachePath.isOneDirectory name = true) :
    (∃ y, x.file now (CachePath.ofIndexEntry root job label name) bytes = (.ok (), y)) ↔
      CachePath.EntryFits root job label name := by
  have hnames : ∀ s ∈ [CachePath.indexRoot, job, label, name, CachePath.copyFile], IsName s :=
    fun s hs => CachePath.isName_of_mem_indexEntry hjob hlabel hname hs
  constructor
  · -- A file that has been written is found under its path, below the names on it.
    rintro ⟨y, hfile⟩
    have hwrote := file_wrote (f := (CachePath.ofIndexEntry root job label name, bytes))
      hroot.tree hfile
    obtain ⟨loc, b, time, hstat⟩ := hwrote.found _ List.mem_cons_self
    obtain ⟨_, hget⟩ := hwrote.tree.stat_ok hstat
    refine ⟨fun s hs => ?_, Disk.accept_of_locate (Disk.locate_of_stat hstat)⟩
    rw [CachePath.ofIndexEntry_eq, Disk.place_foldl_join hnames] at hget
    exact hwrote.tree.fits _ _ hget s (List.mem_append_right _
      (List.mem_cons_of_mem _ (List.mem_append_left [CachePath.copyFile] hs)))
  · intro hfits
    have htakes : Takes root ([CachePath.indexRoot, job, label, name] ++ [CachePath.copyFile]) := by
      refine ⟨hnames, fun s hs => ?_, hfits.accepted⟩
      simp only [List.cons_append, List.nil_append, List.mem_cons, List.not_mem_nil, or_false] at hs
      rcases hs with rfl | hs | hs | hs | rfl
      · decide
      · exact hfits.short s (by simp [hs])
      · exact hfits.short s (by simp [hs])
      · exact hfits.short s (by simp [hs])
      · decide
    -- At the depth of entries there is no directory.
    have hfile : ∀ closed, x.disk.get? (x.disk.place root ++
        ([CachePath.indexRoot, job, label, name] ++ [CachePath.copyFile])) ≠
          some (.dir closed) := by
      intro closed hget
      rcases hindex [job, label, name, CachePath.copyFile] _ hget with ⟨hlen, _⟩ | ⟨_, hfile⟩
      · simp [CachePath.indexDepth] at hlen
      · cases hfile
    obtain ⟨y, hy⟩ := file_of_open hroot htakes (open_of_indexOnly hopen hindex) hfile now bytes
    refine ⟨y, ?_⟩
    rw [CachePath.ofIndexEntry_eq]
    exact hy

end Writing

namespace Run

variable {store : Store} {root : Path} {r r' : Run} {w w₁ : World} {d : Descriptor}
  {contents : Fields ByteArray}

/-- The files of the contents of a run: its objects and the copy of its descriptor. -/
def objectFiles (root : Path) (r : Run) (d : Descriptor) (contents : Fields ByteArray) :
    List (Path × ByteArray) :=
  contents.flatMap fun e => filesOf root (r.descriptorPath.getD "") d.render e.1 e.2

/-- Behind them comes the entry. -/
theorem files_eq_append (root : Path) (r : Run) (d : Descriptor) (contents : Fields ByteArray) :
    r.files root d contents = r.objectFiles root d contents ++
      (indexPlace? root r.job d).toList.map fun target => (target, d.render) := rfl

/-- Once the files of the contents have been written, the cache stands and is open, and its index is
    still one of entries. -/
theorem objectFiles_leave {x : Writing} (hroot : root.text ≠ "") (hup : ".." ∉ root.names)
    (hjob : IsName r.job) (hd : w.disk.IsTree)
    (hopen : w.disk.get? (w.disk.place root) ≠ some (.dir true))
    (hindex : w.disk.IndexOnly root)
    (hgather : r.gather store root w = (.ok (d, contents), r', w₁))
    (houtside : ∀ p ∈ r.paths, ObjectName.IsOutsideIndex p)
    (hobjects : (Writing.mk w.disk []).files w.now (r.objectFiles root d contents) = (.ok (), x)) :
    x.disk.Stands root ∧ x.disk.get? (x.disk.place root) = some (.dir false) ∧
      x.disk.IndexOnly root := by
  obtain ⟨⟨path, hpath⟩, hkeys⟩ := gather_keys hgather
  have hesc := gather_stays hgather
  have hwrote := Writing.files_written (x := Writing.mk w.disk []) hd hobjects
  -- The descriptor is among the contents, and its file lies below the cache.
  have hmem : path ∈ r.paths := by simp [paths, hpath]
  obtain ⟨bytes, hget⟩ := Option.isSome_iff_exists.mp ((hkeys path).mpr hmem)
  have hentry := Fields.mem_of_get hget
  have hfile : (CachePath.ofObject root path, bytes) ∈ r.objectFiles root d contents :=
    List.mem_flatMap.mpr ⟨_, hentry, List.mem_cons_self⟩
  have hstays := staysInside_of_escaping hesc hentry
  obtain ⟨loc, b, time, hstat⟩ := hwrote.found _ hfile
  have hsteps : steps path ≠ [] := by
    obtain ⟨s, tail, hsteps, _⟩ := houtside path hmem
    simp [hsteps]
  have hstands : x.disk.Stands root :=
    hwrote.tree.stands_of_stat hroot (fun s hs => .of_mem_steps hstays hs) hsteps hstat
  refine ⟨hstands, ?_, hindex.grows hwrote.grows fun f hf => ?_⟩
  · obtain ⟨closed, hdir⟩ := hstands.dir
    cases closed with
    | false => exact hdir
    | true =>
      -- A directory that has been made is open.
      rw [Disk.place_congr hwrote.grows.home] at hdir
      rcases hwrote.grows.dir_before hdir with hold | ⟨_, hnone⟩
      · exact absurd hold hopen
      · rcases hwrote.grows.new hnone with hnew | ⟨_, hnew⟩ | ⟨_, _, _, hnew⟩
        all_goals
          rw [hnew] at hdir
          cases hdir
  · have hfiles : f ∈ r.files root d contents := List.mem_append_left _ hf
    exact files_spareIndex hup hjob hesc
      (fun e he => houtside e.1 ((hkeys e.1).mp (Fields.isSome_get_of_mem he))) w.disk f hfiles

/-- What is left to write then is the entry, if there is one, and the write ends as that is
    written. -/
theorem write_of_objectFiles {x : Writing}
    (hgather : r.gather store root w = (.ok (d, contents), r', w₁))
    (hobjects : (Writing.mk w.disk []).files w.now (r.objectFiles root d contents) = (.ok (), x))
    (result : Except Error Unit) (y : Writing)
    (hentry : x.files w.now ((indexPlace? root r.job d).toList.map fun target =>
      (target, d.render)) = (result, y)) :
    ∃ w', r.write store root w =
      (result.map fun _ => ⟨(r.files root d contents).length, indexPlace? root r.job d⟩,
        r', w') := by
  have hwhole : (Writing.mk w.disk []).files w.now (r.files root d contents) = (result, y) := by
    rw [files_eq_append, Writing.files_append, hobjects]
    exact hentry
  rcases hwrite : writeAll w.disk w.now (r.files root d contents) with ⟨written, disk⟩
  have hsame : written = result := by
    rw [writeAll, hwhole] at hwrite
    cases result with
    | error e => exact (Prod.mk.inj hwrite).1.symm
    | ok u => exact (Prod.mk.inj hwrite).1.symm
  exact ⟨_, hsame ▸ write_of_gather hgather hwrite⟩

/-- **An entry of the index ends a write only by a name the system does not take.** Where the files
    of the contents of a run can be written, and the by-name index of an open cache holds nothing
    but entries of jobs with plain names, the write of the run succeeds, and makes the entry or
    leaves it out, unless the descriptor has a plain label and a plain name of which the system does
    not take the entry. Then the write ends with a fault of the disk. However it ends, the index
    holds nothing but entries again, and so it does where an entry of the job is written alone. -/
theorem write_ends_by_entry {d' : Disk} (hroot : root.text ≠ "") (hup : ".." ∉ root.names)
    (hjob : IsName r.job) (hd : w.disk.IsTree)
    (hopen : w.disk.get? (w.disk.place root) ≠ some (.dir true))
    (hindex : w.disk.IndexOnly root)
    (hgather : r.gather store root w = (.ok (d, contents), r', w₁))
    (houtside : ∀ p ∈ r.paths, ObjectName.IsOutsideIndex p)
    (hobjects : writeAll w.disk w.now (r.objectFiles root d contents) = (.ok (), d')) :
    ((∀ label, d.analysisLabel = some label → CachePath.IsPlain label → CachePath.IsPlain d.name →
        CachePath.EntryFits root r.job label d.name) →
      ∃ w', r.write store root w =
        (.ok ⟨(r.files root d contents).length, indexPlace? root r.job d⟩, r', w')) ∧
    (∀ label, d.analysisLabel = some label → CachePath.IsPlain label → CachePath.IsPlain d.name →
      ¬ CachePath.EntryFits root r.job label d.name →
      ∃ p f w', r.write store root w = (.error (.write p f), r', w')) ∧
    (∀ result r₂ w₂, r.write store root w = (result, r₂, w₂) → w₂.disk.IndexOnly root) ∧
    ∀ desc result w₂, writeIndex root r.job desc w = (result, w₂) → w₂.disk.IndexOnly root := by
  obtain ⟨x, hx, rfl⟩ := writeAll_ok hobjects
  obtain ⟨hstands, hroom, hindex'⟩ :=
    objectFiles_leave hroot hup hjob hd hopen hindex hgather houtside hx
  have hends := write_of_objectFiles hgather hx
  have hwritten : ∀ label, CachePath.isOneDirectory label = true →
      CachePath.isOneDirectory d.name = true →
      ((∃ y, x.file w.now (CachePath.ofIndexEntry root r.job label d.name) d.render = (.ok (), y)) ↔
        CachePath.EntryFits root r.job label d.name) :=
    fun label => Writing.entry_written_iff hstands hroom hindex' hjob
  refine ⟨fun hfits => ?_, fun label hlabel hplain hplain' hnot => ?_,
    fun result r₂ w₂ hwrite => write_indexOnly hup hjob houtside hd hindex hwrite,
    fun desc result w₂ hwrite => writeIndex_indexOnly hup hjob hd hindex hwrite⟩
  · cases hentry : indexPlace? root r.job d with
    | none =>
      rw [hentry] at hends
      exact hends (.ok ()) x rfl
    | some target =>
      obtain ⟨label, hlabel, hone, hone', rfl⟩ := indexPlace_eq_some_iff.mp hentry
      obtain ⟨y, hy⟩ := (hwritten label hone hone').mpr (hfits label hlabel
        (CachePath.isOneDirectory_iff.mp hone) (CachePath.isOneDirectory_iff.mp hone'))
      rw [hentry] at hends
      exact hends (.ok ()) y (by simp [Writing.files, hy])
  · have hone := CachePath.isOneDirectory_iff.mpr hplain
    have hone' := CachePath.isOneDirectory_iff.mpr hplain'
    have hentry : indexPlace? root r.job d =
        some (CachePath.ofIndexEntry root r.job label d.name) :=
      indexPlace_eq_some_iff.mpr ⟨label, hlabel, hone, hone', rfl⟩
    rw [hentry] at hends
    rcases hfile : x.file w.now (CachePath.ofIndexEntry root r.job label d.name) d.render with
      ⟨result, y⟩
    cases result with
    | ok u =>
      exact absurd ((hwritten label hone hone').mp ⟨y, hfile⟩) hnot
    | error e =>
      obtain ⟨p, f, rfl⟩ := Writing.write_of_file_error hfile
      obtain ⟨w', hw⟩ := hends (.error (.write p f)) y (by simp [Writing.files, hfile])
      exact ⟨p, f, w', hw⟩

/-- A run with the descriptor that a bucket holds under its name. -/
def describedRun : Run where
  job := "job"
  id := "1"
  descriptorPath := some "logs/job/1/prowjob.json"

theorem isOutsideIndex_describedRun :
    ∀ p ∈ describedRun.paths, ObjectName.IsOutsideIndex p := by
  intro p hp
  obtain rfl : p = "logs/job/1/prowjob.json" := by simpa [paths, describedRun] using hp
  exact ⟨"logs", ["job", "1", "prowjob.json"], by decide, by decide⟩

theorem indexOnly_empty (root : Path) : ({} : Disk).IndexOnly root := by
  intro rel e hget
  simp [Disk.get?] at hget

/-- With a label that the system takes, it is written with an entry in the index. -/
theorem write_ends_by_entry_labelled :
    ∃ written r' w', describedRun.write labelledRun.store ⟨"/work"⟩ { disk := {} } =
        (.ok written, r', w') ∧
      written.byName = some (CachePath.ofIndexEntry ⟨"/work"⟩ "job" "label" "run") := by
  generalize hw : ({ disk := {} } : World) = w
  have hgathered : ((describedRun.gather labelledRun.store ⟨"/work"⟩ w).1.toOption.any fun x =>
      (writeAll w.disk w.now (describedRun.objectFiles ⟨"/work"⟩ x.1 x.2)).1.isOk &&
        x.1.analysisLabel = some "label" && x.1.name = "run") = true := by
    subst hw
    decide +kernel
  rcases hgather : describedRun.gather labelledRun.store ⟨"/work"⟩ w with ⟨result, r', w₁⟩
  rw [hgather] at hgathered
  cases result with
  | error e => cases hgathered
  | ok gathered =>
    obtain ⟨d, contents⟩ := gathered
    simp only [Except.toOption, Option.any_some, Bool.and_eq_true, decide_eq_true_eq] at hgathered
    obtain ⟨⟨hok, hlabel⟩, hname⟩ := hgathered
    rcases hobjects : writeAll w.disk w.now (describedRun.objectFiles ⟨"/work"⟩ d contents) with
      ⟨result, d'⟩
    rw [hobjects] at hok
    cases result with
    | error e => cases hok
    | ok u =>
      subst hw
      obtain ⟨w', hwrite⟩ := (write_ends_by_entry (by decide) (by decide) (by decide)
        Disk.IsTree.empty (by unfold Disk.get?; split <;> simp) (indexOnly_empty _) hgather
        isOutsideIndex_describedRun hobjects).1 (by
          intro label hlabel' _ _
          obtain rfl := Option.some.inj (hlabel.symm.trans hlabel')
          rw [hname]
          exact ⟨by decide, by decide⟩)
      refine ⟨_, r', w', hwrite, indexPlace_eq_some_iff.mpr ⟨"label", hlabel, by decide, ?_, ?_⟩⟩
      · rw [hname]
        decide
      · rw [hname]
        rfl

/-- A label that is plain, and no name of a directory. -/
def nulLabel : String := "a\x00b"

/-- A bucket with a descriptor that has this label. -/
def nulLabelRun : Memory where
  objects := [("logs/job/1/prowjob.json", ⟨("\x7b\"metadata\":\x7b\"name\":\"run\"," ++
    "\"labels\":\x7b\"release.openshift.io/analysis\":\"a\\u0000b\"\x7d\x7d\x7d").toUTF8, 0⟩)]

/-- The files of its contents can be written, but because of the label the write ends with a fault
    of the disk. -/
theorem nul_label_ends_write :
    CachePath.IsPlain nulLabel ∧ CachePath.IsPlain "run" ∧ ({} : Disk).IndexOnly ⟨"/work"⟩ ∧
      ∃ d contents r' w', describedRun.gather nulLabelRun.store ⟨"/work"⟩ { disk := {} } =
          (.ok (d, contents), r', w') ∧
        d.analysisLabel = some nulLabel ∧ d.name = "run" ∧
        (writeAll {} 0 (describedRun.objectFiles ⟨"/work"⟩ d contents)).1.isOk = true ∧
        ∃ p r' w', describedRun.write nulLabelRun.store ⟨"/work"⟩ { disk := {} } =
          (.error (.write p .nulInName), r', w') := by
  refine ⟨?_, ?_, indexOnly_empty _, ?_⟩
  · unfold CachePath.IsPlain
    decide
  · unfold CachePath.IsPlain
    decide
  generalize hw : ({ disk := {} } : World) = w
  have hgathered : ((describedRun.gather nulLabelRun.store ⟨"/work"⟩ w).1.toOption.any fun x =>
      x.1.analysisLabel = some nulLabel && x.1.name = "run" &&
        (writeAll {} 0 (describedRun.objectFiles ⟨"/work"⟩ x.1 x.2)).1.isOk) = true := by
    subst hw
    decide +kernel
  have hends : (match (describedRun.write nulLabelRun.store ⟨"/work"⟩ w).1 with
      | .error (.write _ .nulInName) => true
      | _ => false) = true := by
    subst hw
    decide +kernel
  rcases hgather : describedRun.gather nulLabelRun.store ⟨"/work"⟩ w with ⟨result, r', w₁⟩
  rcases hwrite : describedRun.write nulLabelRun.store ⟨"/work"⟩ w with ⟨result', r₂, w₂⟩
  rw [hgather] at hgathered
  rw [hwrite] at hends
  cases result with
  | error e => cases hgathered
  | ok gathered =>
    obtain ⟨d, contents⟩ := gathered
    simp only [Except.toOption, Option.any_some, Bool.and_eq_true, decide_eq_true_eq] at hgathered
    obtain ⟨⟨hlabel, hname⟩, hok⟩ := hgathered
    refine ⟨d, contents, r', w₁, rfl, hlabel, hname, hok, ?_⟩
    simp only at hends
    split at hends
    · next p => exact ⟨p, r₂, w₂, rfl⟩
    · cases hends

end Run

end RunCache
