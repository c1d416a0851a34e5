import RunCache.Cache.Place
import RunCache.Proofs.Bucket.Name
import RunCache.Proofs.Disk.Lookup

/-! # Where objects are kept

    * **`CachePath.place_ofObject`**: the place of an object is its segments
      below the place of the cache.
    * **`CachePath.place_copy`**, **`CachePath.place_ofIndexEntry`**: the
      places of the other files. -/

namespace RunCache

namespace CachePath

theorem ofObject_eq (root : Path) (name : String) :
    ofObject root name = (ObjectName.steps name).foldl Path.join root := rfl

/-- A text that is the name of one directory is a plain name without backslashes. -/
theorem isName_of_isOneDirectory {s : String} (h : isOneDirectory s = true) : IsName s := by
  simp only [isOneDirectory, ne_eq, Bool.and_eq_true, Bool.not_eq_true', String.isEmpty_eq_false_iff,
    decide_eq_true_eq, List.any_eq_false, Bool.or_eq_true, not_or] at h
  obtain ⟨⟨⟨hne, hdot⟩, hup⟩, hslash⟩ := h
  exact ⟨hne, hdot, hup, fun hmem => (hslash _ hmem).1 rfl⟩

theorem isName_copyFile : IsName copyFile := by decide

theorem isName_indexRoot : IsName indexRoot := by decide

theorem isName_logsRoot : IsName ObjectName.logsRoot := by decide

theorem isName_descriptorFile : IsName ObjectName.descriptorFile := by decide

variable {root : Path} {job name label : String}

theorem ofJob_eq (root : Path) (job : String) :
    ofJob root job = [ObjectName.logsRoot, job].foldl Path.join root := rfl

theorem descriptor_eq (root : Path) (job id : String) :
    ((ofJob root job).join id).join ObjectName.descriptorFile =
      [ObjectName.logsRoot, job, id, ObjectName.descriptorFile].foldl Path.join root := rfl

theorem isName_of_mem_job (hjob : IsName job) : ∀ s ∈ [ObjectName.logsRoot, job], IsName s := by
  simpa using ⟨isName_logsRoot, hjob⟩

theorem ofIndexEntry_eq (root : Path) (job label name : String) :
    ofIndexEntry root job label name = [indexRoot, job, label, name, copyFile].foldl Path.join root :=
  rfl

/-- The object of a name that stays inside lies below the cache. -/
theorem ofObject_isRooted (hroot : root.IsRooted) (hname : ObjectName.staysInside name = true) :
    (ofObject root name).IsRooted :=
  hroot.foldl_join fun _ hs => .of_mem_steps hname hs

theorem place_ofObject (hname : ObjectName.staysInside name = true) (d : Disk) (root : Path) :
    d.place (ofObject root name) = d.place root ++ ObjectName.steps name :=
  Disk.place_foldl_join (fun _ hs => .of_mem_steps hname hs) d root

/-- The copy of a descriptor lies beside it. -/
theorem place_copy {init : List String} {t : String} (hname : ObjectName.staysInside name = true)
    (hsteps : ObjectName.steps name = init ++ [t]) (d : Disk) (root : Path) :
    d.place ((ofObject root name).withFileName copyFile) = d.place root ++ (init ++ [copyFile]) := by
  have hnames : ∀ s ∈ init ++ [t], IsName s := by
    intro s hs
    exact .of_mem_steps hname (hsteps ▸ hs)
  have hobject : (ofObject root name).names = (root.names ++ init) ++ [t] := by
    rw [ofObject_eq, hsteps, Path.names_foldl_join hnames, List.append_assoc]
  obtain ⟨habs, hcopy⟩ := Path.names_withFileName hobject (hnames t (by simp)) isName_copyFile
  refine Disk.place_of_names (fun s hs => ?_) d (habs.trans ?_) (by rw [hcopy, List.append_assoc])
  · rcases List.mem_append.mp hs with hs | hs
    · exact hnames s (List.mem_append_left _ hs)
    · rw [List.mem_singleton.mp hs]
      exact isName_copyFile
  · rw [ofObject_eq, hsteps, Path.isAbsolute_foldl_join hnames]

/-- The names that lead from the cache to an entry of the by-name index. -/
def indexNames (job label name : String) : List String :=
  indexRoot :: (ObjectName.steps job ++ [label, name, copyFile])

/-- An entry of the by-name index lies below the cache, unless the job names an absolute path. -/
theorem place_ofIndexEntry (hhead : job.toList.head? ≠ some '/')
    (hjob : ∀ s ∈ ObjectName.steps job, IsName s) (hlabel : isOneDirectory label = true)
    (hname : isOneDirectory name = true) (d : Disk) (root : Path) :
    d.place (ofIndexEntry root job label name) = d.place root ++ indexNames job label name := by
  -- Followed as a path, the job leads through the same names as its segments do.
  have hsegs : (Text.segments job).filter (!Path.isIdle ·) = ObjectName.steps job := by
    have hplain : (ObjectName.steps job).filter (!Path.isIdle ·) = ObjectName.steps job :=
      List.filter_eq_self.mpr fun s hs => by simp [(hjob s hs).not_idle]
    rw [← hplain, ObjectName.steps, List.filter_filter]
    refine List.filter_congr fun s _ => ?_
    by_cases hempty : s = "" <;> simp [Path.isIdle, hempty]
  have hlabel' := isName_of_isOneDirectory hlabel
  have hname' := isName_of_isOneDirectory hname
  refine Disk.place_of_names ?_ d ?_ ?_
  · intro s hs
    simp only [indexNames, List.mem_cons, List.mem_append, List.not_mem_nil, or_false] at hs
    rcases hs with rfl | hs | rfl | rfl | rfl
    · exact isName_indexRoot
    · exact hjob s hs
    · exact hlabel'
    · exact hname'
    · exact isName_copyFile
  · rw [ofIndexEntry, Path.isAbsolute_join isName_copyFile.2.2.2,
      Path.isAbsolute_join hname'.2.2.2, Path.isAbsolute_join hlabel'.2.2.2,
      Path.isAbsolute_join_of_head hhead, Path.isAbsolute_join isName_indexRoot.2.2.2]
  · rw [ofIndexEntry, Path.names_join isName_copyFile, Path.names_join hname',
      Path.names_join hlabel', Path.names_join_of_head hhead, Path.names_join isName_indexRoot,
      hsegs, indexNames]
    simp

theorem isName_of_mem_indexEntry (hjob : IsName job) (hlabel : isOneDirectory label = true)
    (hname : isOneDirectory name = true) {s : String}
    (hs : s ∈ [indexRoot, job, label, name, copyFile]) : IsName s := by
  simp only [List.mem_cons, List.not_mem_nil, or_false] at hs
  rcases hs with rfl | rfl | rfl | rfl | rfl
  · exact isName_indexRoot
  · exact hjob
  · exact isName_of_isOneDirectory hlabel
  · exact isName_of_isOneDirectory hname
  · exact isName_copyFile

end CachePath

end RunCache
