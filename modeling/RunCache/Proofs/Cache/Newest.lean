import RunCache.Proofs.Cache.Greatest
import RunCache.Proofs.Cache.Passes

/-! # The newest cached run after a pass

    Below a cache where nothing lies but what runs of a scan have put
    there, the newest run is one of them.

    * **`Disk.Traced.newestCached`**: the newest run has a descriptor, which
      a run has put there.
    * **`Run.id_of_descriptor`**: only a run itself writes the file of its
      descriptor. -/

namespace RunCache

variable {d : Disk} {root : Path} {job mark : String} {files : List (Path × ByteArray)}

/-- Where every file below the cache is one of some files, so is the descriptor of the newest run. -/
theorem Disk.Traced.newestCached (hd : d.Traced root files) (hroot : root.IsRooted)
    (hjob : IsName job) (h : newestCached? d root job = .ok (some mark)) :
    ∃ f ∈ files,
      f.1.names = root.names ++ [ObjectName.logsRoot, job, mark, ObjectName.descriptorFile] := by
  have hleads := hd.tree.leadsTo_ofJob hjob (isDir_of_newest h)
  rw [Disk.place_of_isRooted hroot] at hleads
  -- Below the cache names are plain.
  have hholds := holdsRun_of_newest hleads (fun name e hget => by
    rw [List.append_assoc] at hget
    exact hd.names _ e hget name (by simp)) h
  obtain ⟨bytes, time, hget⟩ := hholds.file
  rw [List.append_assoc] at hget
  exact hd.written _ bytes time (by simp) hget

/-- Of the files of a run only that of its own descriptor lies where a descriptor of the job is
    looked for. -/
theorem Run.id_of_descriptor {m : Memory} {r : Run} {f : Path × ByteArray}
    (hroot : root.IsRooted) (hjob : IsName r.job)
    (hstays : ∀ p ∈ r.paths, ObjectName.staysInside p = true)
    (hdesc : ∀ p ∈ r.descriptorPath, ObjectKind.ofName p = .descriptor r.id)
    (hresults : ∀ p ∈ r.resultPaths, ObjectName.isTestResult p = true)
    (hf : f ∈ r.writes root m)
    (hnames : f.1.names =
      root.names ++ [ObjectName.logsRoot, job, mark, ObjectName.descriptorFile]) :
    r.id = mark := by
  obtain ⟨path, d, _, _, hfile⟩ := mem_writes_iff.mp hf
  have hobject : ∀ p ∈ r.paths, (CachePath.ofObject root p).names = root.names ++ ObjectName.steps p :=
    fun p hp => Path.names_foldl_join fun _ hs => .of_mem_steps (hstays p hp) hs
  -- Copies and entries of the index have another file name.
  have hlast : f.1.names.getLast? = some ObjectName.descriptorFile := by simp [hnames]
  cases hfile with
  | @object p bytes hmem =>
    have hp := (mem_gathered_iff.mp hmem).1
    rw [hobject p hp] at hnames
    have hsteps : ObjectName.steps p =
        [ObjectName.logsRoot, job] ++ [mark, ObjectName.descriptorFile] :=
      List.append_cancel_left hnames
    rcases List.mem_append.mp hp with hp | hp
    · obtain ⟨hid, init, hsegs⟩ :=
        ObjectKind.ofName_eq_descriptor (hdesc p (Option.mem_toList.mp hp))
      have hfile : ObjectName.descriptorFile ≠ "" := by decide
      rw [ObjectName.steps, hsegs, List.filter_append] at hsteps
      have htwo : [r.id, ObjectName.descriptorFile].filter (!·.isEmpty) =
          [r.id, ObjectName.descriptorFile] := by simp [hid, hfile]
      rw [htwo] at hsteps
      exact (List.cons.inj (List.append_inj' hsteps rfl).2).1
    · -- A test result does not end as a descriptor does.
      have hsteps' : ObjectName.steps p =
          [ObjectName.logsRoot, job, mark] ++ [ObjectName.descriptorFile] := hsteps
      have hend := ObjectName.endsWith_of_isTestResult (hresults p hp) hsteps'
      exact absurd hend (by decide)
  | @copy p bytes hmem hpath =>
    have hp := (mem_gathered_iff.mp hmem).1
    have hrooted := CachePath.ofObject_isRooted hroot (hstays p hp)
    rw [(hrooted.withFileName CachePath.isName_copyFile).2, List.getLast?_concat] at hlast
    exact absurd (Option.some.inj hlast) (by decide)
  | @entry label hlabel hname _ =>
    have hindex : ∀ s ∈ [CachePath.indexRoot, r.job, label, d.name, CachePath.copyFile], IsName s :=
      fun s hs => CachePath.isName_of_mem_indexEntry hjob hlabel hname hs
    rw [CachePath.ofIndexEntry_eq, Path.names_foldl_join hindex] at hlast
    have hcopy : CachePath.copyFile = ObjectName.descriptorFile := by simpa using hlast
    exact absurd hcopy (by decide)

end RunCache
