import RunCache.Proofs.Cache.Opening
import RunCache.Proofs.Cache.RunDirectory
import RunCache.Proofs.Scan.Records

/-! # Opening a run that has been written

    A run that has been written is opened again as the same run: the walk
    of its directory finds its test results, and what is read from the
    cache is what the bucket held.

    * **`Run.Stored.dir_below`**: the directories in its directory lie on
      the way to its objects.
    * **`Run.Stored.keepsRun`**, **`Run.Stored.resultNames_eq`**: what
      opening finds there.
    * **`reopened_run_matches`**: writing and opening. -/

namespace RunCache

namespace Run

namespace Stored

variable {r : Run} {root : Path} {d : Descriptor} {bytes : String → ByteArray}
  {before after : Disk} {p : String} {rel : List String}

/-- No path above the cache leads into the directory of a run that is not there. -/
theorem not_place_above {q : Path} {names : List String} (hd : before.IsTree)
    (hroot : before.isDir root = true ∨ ".." ∉ root.names) (habs : q.isAbsolute = root.isAbsolute)
    (hnames : q.names <+: root.names) (hne : names ≠ [])
    (hnone : before.get? (before.place root ++ names) = none) :
    before.place q ≠ before.place root ++ names := by
  intro heq
  rcases hroot with hdir | hup
  · obtain ⟨closed, hget⟩ := hd.dir_of_names hdir habs hnames
    rw [heq, hnone] at hget
    cases hget
  -- Names without a `..` lead down, so the longer path cannot stand higher.
  · have hplain : ∀ s ∈ root.names, IsName s := by
      intro s hs
      obtain ⟨hbody, hidle⟩ := List.mem_filter.mp hs
      simp only [Path.isIdle, Bool.not_eq_true', Bool.or_eq_false_iff,
        decide_eq_false_iff_not] at hidle
      exact ⟨hidle.1, hidle.2, fun h => hup (h ▸ hs), Path.no_slash_of_mem_body hbody⟩
    have hstart : before.start q = before.start root := by rw [Disk.start, Disk.start, habs]
    rw [Disk.place, Disk.place, hstart, Disk.foldl_stepTo_of_isName hplain,
      Disk.foldl_stepTo_of_isName fun s hs => hplain s (hnames.subset hs)] at heq
    have hlen := congrArg List.length heq
    have hle := hnames.length_le
    have hpos := List.length_pos_of_ne_nil hne
    simp only [List.length_append] at hlen
    omega

/-- A new directory in the directory of the run lies on the way to one of its objects. -/
theorem dir_below (h : Stored root r d bytes before after) {closed : Bool}
    (hroot : before.isDir root = true ∨ ".." ∉ root.names)
    (hnone : before.get? (before.place root ++ (r.directory ++ rel)) = none)
    (hget : after.get? (before.place root ++ (r.directory ++ rel)) = some (.dir closed)) :
    ∃ p ∈ r.paths, r.directory ++ rel <+: Text.segments p := by
  rcases h.grows.dir_before hget with hold | ⟨⟨f, hf, dir, hdir, q, hq, hloc⟩, _⟩
  · rw [hnone] at hold
    cases hold
  · obtain ⟨segs, hsegs, habs, hnames, hshape⟩ := h.plain.file_names h.stays hf
    obtain ⟨habs', hnames'⟩ := Path.names_of_parent hdir
    obtain ⟨habs'', hpre, _⟩ := Path.mem_ancestorsWithin hq
    have hne : segs ≠ [] := by
      rcases hshape with ⟨p, _, rfl, _⟩ | rfl | ⟨more, rfl⟩
      · exact Text.segments_ne_nil p
      · simp
      · simp
    rw [hnames', hnames, List.dropLast_append_of_ne_nil hne] at hpre
    have hqabs : q.isAbsolute = root.isAbsolute := habs''.trans (habs'.trans habs)
    -- A directory on the way to a file lies above the cache or in it.
    rcases List.prefix_or_prefix_of_prefix hpre (List.prefix_append root.names segs.dropLast) with
      habove | ⟨more, hmore⟩
    · exact absurd hloc.symm
        (not_place_above h.start hroot hqabs habove (by simp [directory]) hnone)
    · rw [← hmore, List.prefix_append_right_inj] at hpre
      have hmoreNames : ∀ s ∈ more, IsName s :=
        fun s hs => hsegs s (List.dropLast_subset _ (hpre.subset hs))
      rw [Disk.place_of_names hmoreNames before hqabs hmore.symm] at hloc
      have heq : r.directory ++ rel = more := List.append_cancel_left hloc
      rw [← heq] at hpre
      rcases hshape with ⟨p, hp, rfl, _⟩ | rfl | ⟨index, rfl⟩
      · exact ⟨p, hp, hpre.trans (List.dropLast_prefix _)⟩
      · -- Above the copy there is nothing that is not above the descriptor itself.
        rw [List.dropLast_concat] at hpre
        refine ⟨_, h.plain.descriptor_mem, hpre.trans ?_⟩
        rw [h.plain.segments_descriptor]
        exact List.prefix_append _ _
      · obtain ⟨tail, htail⟩ := hpre.trans (List.dropLast_prefix _)
        exact absurd (List.cons.inj htail).1 (by decide)

/-! ## Opening -/

/-- The directory of the run is there and is found under its path. -/
theorem stat_directory (h : Stored root r d bytes before after) :
    ∃ closed, ∀ follow, after.stat follow (r.directory.foldl Path.join root) =
      .ok (after.place root ++ r.directory, .dir closed) := by
  have hdir := h.plain.isName_directory h.stays
  obtain ⟨time, hstat⟩ := h.stat_object h.plain.descriptor_mem
  have hlocate := Disk.locate_of_stat hstat
  rw [h.ofObject_eq h.plain.descriptor_mem, h.plain.segments_descriptor, List.foldl_append]
    at hlocate
  have hfile : ∀ s ∈ [ObjectName.descriptorFile], IsName s := by
    intro s hs
    rw [List.mem_singleton.mp hs]
    exact CachePath.isName_descriptorFile
  have htext : (r.directory.foldl Path.join root).text ≠ "" :=
    Path.text_foldl_join_ne_empty hdir (by simp [directory])
  -- The descriptor is found, so its directory is.
  obtain ⟨closed, hall⟩ := h.tree.stat_above hfile (by simp) htext hlocate
  rw [Disk.place_foldl_join hdir] at hall
  exact ⟨closed, hall⟩

theorem none_below (h : Stored root r d bytes before after)
    (hnone : before.get? (before.place root ++ r.directory) = none) (rel : List String) :
    before.get? (before.place root ++ (r.directory ++ rel)) = none := by
  refine h.start.none_below hnone ⟨rel, ?_⟩
  rw [List.append_assoc]

/-- The system takes the path of every directory in the directory of the run. -/
theorem accept_below (h : Stored root r d bytes before after) {closed : Bool}
    (hroot : before.isDir root = true ∨ ".." ∉ root.names)
    (hnone : before.get? (before.place root ++ r.directory) = none)
    (hget : after.get? (after.place root ++ r.directory ++ rel) = some (.dir closed)) :
    Disk.accept (rel.foldl Path.join (r.directory.foldl Path.join root)) = .ok () := by
  rw [Disk.place_congr h.grows.home, List.append_assoc] at hget
  obtain ⟨p, hp, more, hmore⟩ := h.dir_below hroot (h.none_below hnone rel) hget
  obtain ⟨time, hstat⟩ := h.stat_object hp
  have hacc := Disk.accept_of_locate (Disk.locate_of_stat hstat)
  rw [h.ofObject_eq hp, ← hmore, List.foldl_append] at hacc
  have hnames : ∀ s ∈ r.directory ++ rel ++ more, IsName s := by
    rw [hmore]
    exact h.isName_segments hp
  have hdown := Disk.accept_of_foldl_join (fun s hs => hnames s (List.mem_append_right _ hs))
    (Path.text_foldl_join_ne_empty (fun s hs => hnames s (List.mem_append_left _ hs))
      (by simp [directory])) hacc
  rwa [List.foldl_append] at hdown

/-- The cache keeps the directory of the run: the files there are its objects and the copy of its
    descriptor, and the directories lie on the way to them. -/
theorem keepsRun (h : Stored root r d bytes before after)
    (hroot : before.isDir root = true ∨ ".." ∉ root.names)
    (hnone : before.get? (before.place root ++ r.directory) = none) :
    after.KeepsRun root r.job r.id (after.place root ++ r.directory) := by
  obtain ⟨closed, hstat⟩ := h.stat_directory
  have hdir := h.plain.isName_directory h.stays
  -- Names that the system has taken in a path have no NUL.
  have hobject : ∀ p ∈ r.paths, ∀ s ∈ Text.segments p, IsName s ∧ '\x00' ∉ s.toList := by
    intro p hp s hs
    obtain ⟨time, hfile⟩ := h.stat_object hp
    have hacc := Disk.accept_of_locate (Disk.locate_of_stat hfile)
    rw [h.ofObject_eq hp] at hacc
    exact ⟨h.isName_segments hp s hs, Disk.no_nul_of_accept hacc (h.isName_segments hp) s hs⟩
  have hthere := (h.tree.stat_ok (hstat true)).2
  rw [Disk.place_foldl_join hdir] at hthere
  refine ⟨hdir _ (by simp [directory]), hdir _ (by simp [directory]),
    ⟨h.tree.below _, closed, hthere, hstat true⟩, fun rel e hget s hs => ?_⟩
  rw [Disk.place_congr h.grows.home, List.append_assoc] at hget
  have hbelow := h.none_below hnone rel
  cases e with
  | file b time =>
    rcases h.file_below hbelow hget with ⟨p, hp, hsegs⟩ | rfl
    · exact hobject p hp s (hsegs ▸ List.mem_append_right _ hs)
    · rw [List.mem_singleton.mp hs]
      decide
  | dir closed =>
    obtain ⟨p, hp, hpre⟩ := h.dir_below hroot hbelow hget
    exact hobject p hp s (hpre.subset (List.mem_append_right _ hs))
  | link target => exact absurd (h.tree.noLink _ _ hget) (by simp [Entry.isLink])

/-- A path of the run that ends as those of test results do is one of a test result. -/
theorem mem_resultPaths (h : Stored root r d bytes before after) (hp : p ∈ r.paths)
    (htest : ObjectName.isTestResult p = true) : p ∈ r.resultPaths := by
  rcases List.mem_append.mp hp with hdesc | hresult
  · have hp' : p = ObjectName.ofDescriptor r.job r.id := by
      simpa [h.plain.descriptor] using hdesc
    rw [hp', ObjectName.isTestResult_of_segments h.plain.segments_descriptor (by decide)
      (by decide)] at htest
    cases htest
  · exact hresult

/-- Opening finds the test results of the run and no others. -/
theorem resultNames_eq (h : Stored root r d bytes before after)
    (hroot : before.isDir root = true ∨ ".." ∉ root.names)
    (hnone : before.get? (before.place root ++ r.directory) = none) :
    ∃ names, resultNames (CachePath.ofJob root r.job) r.job
        (after.walk ((CachePath.ofJob root r.job).join r.id)) = .ok names ∧
      ∀ p, p ∈ names ↔ p ∈ r.resultPaths := by
  have hkeeps := h.keepsRun hroot hnone
  obtain ⟨names, hnames, _, hmem⟩ := hkeeps.resultNames
    (hkeeps.leads.walk_ok fun rel closed hget => h.accept_below hroot hnone hget)
  refine ⟨names, hnames, fun p => ?_⟩
  rw [hmem]
  constructor
  · rintro ⟨htest, rel, b, time, hget, rfl⟩
    have hsegs := ObjectName.segments_inRun hkeeps.jobName hkeeps.idName (hkeeps.isName hget)
    rw [Disk.place_congr h.grows.home, List.append_assoc] at hget
    -- A file in the directory of the run is one of its objects or the copy.
    rcases h.file_below (h.none_below hnone rel) hget with ⟨q, hq, hq'⟩ | rfl
    · have hname : q = ObjectName.inRun r.job r.id rel := by
        rw [← Text.joined_segments q, hq']
        rfl
      exact h.mem_resultPaths (hname ▸ hq) htest
    · -- The copy of the descriptor does not end as test results do.
      have hcopy : Text.segments (ObjectName.inRun r.job r.id [CachePath.copyFile]) =
          r.directory ++ [CachePath.copyFile] := hsegs
      rw [ObjectName.isTestResult_of_segments hcopy (by decide) (by decide)] at htest
      cases htest
  · intro hp
    obtain ⟨htest, file, more, hsegs⟩ := h.plain.results p hp
    obtain ⟨time, hstat⟩ := h.stat_object (List.mem_append_right _ hp)
    have hget := (h.tree.stat_ok hstat).2
    rw [← (h.tree.stat_ok hstat).1, hsegs] at hget
    refine ⟨htest, file :: more, bytes p, time, by rw [List.append_assoc]; exact hget, ?_⟩
    rw [← Text.joined_segments p, hsegs]
    rfl

/-- What a cached run with the paths of this one reads from the cache. -/
theorem reads_back (h : Stored root r d bytes before after) {s : Run} {v : World} (store : Store)
    (hs : s.origin = .cache root)
    (hdesc : s.descriptorPath = some (ObjectName.ofDescriptor r.job r.id))
    (hpaths : ∀ p, p ∈ s.paths ↔ p ∈ r.paths) (hv : v.disk = after) (hquiet : v.IsQuiet)
    (hparse : parseDescriptor (bytes (ObjectName.ofDescriptor r.job r.id)) = .ok d) :
    (s.contents store v).1 = .ok (gathered bytes r.paths []) ∧
      (s.descriptor store v).1 = .ok d := by
  have hread : ∀ p ∈ r.paths, ObjectName.staysInside p = true ∧
      v.disk.readFile (CachePath.ofObject root p) = .ok (bytes p) := by
    intro p hp
    obtain ⟨time, hstat⟩ := h.stat_object hp
    exact ⟨h.stays p hp, by rw [hv, Disk.readFile, hstat]⟩
  constructor
  · -- Both are mappings in key order of the same paths to the same bytes.
    have hsame : gathered bytes s.paths [] = gathered bytes r.paths [] := by
      refine (sorted_gathered _ _ Fields.sorted_nil).ext (sorted_gathered _ _ Fields.sorted_nil)
        fun k => ?_
      rw [get_gathered, get_gathered]
      simp only [hpaths]
    rw [← hsame]
    exact contents_cached hs (by rw [hdesc]; rfl) (fun p hp => hread p ((hpaths p).mp hp)) hquiet
  · have hp := h.plain.descriptor_mem
    obtain ⟨_, hdescriptor, _⟩ :=
      descriptor_cached store hs hdesc (hread _ hp).1 (hread _ hp).2 hparse hquiet
    rw [hdescriptor]

end Stored

/-! ## Writing and opening -/

/-- A plain run that could be written is stored, with the bytes that it remembers. -/
theorem stored_of_write {store : Store} {root : Path} {r r' : Run} {w w' : World}
    {written : Written} {memo : Fields ByteArray} (hr : r.origin = .bucket memo) (hplain : r.IsPlain)
    (hd : w.disk.IsTree) (h : r.write store root w = (.ok written, r', w')) :
    ∃ d, Stored root r d r'.known w.disk w'.disk ∧
      parseDescriptor (r'.known (ObjectName.ofDescriptor r.job r.id)) = .ok d ∧
      (∀ p ∈ r.paths, p ≠ "" ∧ (r'.memo.get? p).isSome) ∧ (∃ memo, r'.origin = .bucket memo) ∧
      ∃ origin, r' = { r with origin } := by
  obtain ⟨d, contents, w₁, hgather, hwrite, _, _⟩ := write_ok h
  obtain ⟨⟨path, hpath, hparse⟩, hcontents, hall, hbucket⟩ := gather_ok hr hgather
  obtain ⟨_, _, origin, hrun⟩ := gather_leaves hgather
  rw [hplain.descriptor] at hpath
  obtain rfl := Option.some.inj hpath
  have hesc := gather_stays hgather
  rw [hcontents] at hwrite
  obtain ⟨x, hx, hxdisk⟩ := writeAll_ok hwrite
  have htracks := Writing.files_tracks hd w.now (r.files root d (gathered r'.known r.paths []))
  rw [hx] at htracks
  refine ⟨d, ⟨hplain, ?_, hd, ?_, ?_, ?_⟩, hparse, hall, hbucket, origin, hrun⟩
  · intro p hp
    rw [hcontents] at hesc
    exact staysInside_of_escaping hesc (mem_gathered_iff.mpr ⟨hp, rfl⟩)
  · rw [hxdisk]
    exact htracks.tree
  · rw [hxdisk]
    exact htracks.grows
  · rw [hxdisk]
    exact Writing.files_hold hx (List.Subset.refl _)

/-- **A run that has been cached is opened as the run that was cached.** It has the same descriptor
    path and the same test results, and what is read from the cache, the contents and the descriptor
    alike, is what the run of the bucket gives. -/
theorem reopened_run_matches {store : Store} {o : ScanOptions} {job : String} {root : Path}
    {r r' : Run} {w₀ w w' : World} {written : Written} (hstore : store.ListsInside)
    (hjob : IsName job) (hscan : r ∈ scannedRuns (scan store o job w₀).1)
    (hsegs : ∀ p ∈ r.paths, "" ∉ Text.segments p)
    (hdesc : r.descriptorPath = some (ObjectName.ofDescriptor job r.id)) (hd : w.disk.IsTree)
    (hroot : w.disk.isDir root = true ∨ ".." ∉ root.names)
    (hnone : w.disk.get? (w.disk.place root ++ [ObjectName.logsRoot, job, r.id]) = none)
    (h : r.write store root w = (.ok written, r', w')) :
    ∃ s, openCache w'.disk root job r.id = .ok s ∧ s.descriptorPath = r'.descriptorPath ∧
      (∀ p, p ∈ s.resultPaths ↔ p ∈ r'.resultPaths) ∧
      ∀ v : World, v.disk = w'.disk → v.IsQuiet →
        (∃ contents, (s.contents store v).1 = .ok contents ∧
          (r'.contents store v).1 = .ok contents) ∧
        ∃ d, (s.descriptor store v).1 = .ok d ∧ (r'.descriptor store v).1 = .ok d := by
  obtain ⟨rfl, horigin, hid, hresults⟩ := scanned_run hstore hjob.2.2.2 hscan
  have hplain : r.IsPlain := ⟨hjob, hid, hdesc, hsegs, hresults⟩
  obtain ⟨d, hstored, hparse, hall, ⟨memo, hbucket⟩, origin, hrun⟩ :=
    stored_of_write horigin hplain hd h
  obtain ⟨names, hnames, hmem⟩ := hstored.resultNames_eq hroot hnone
  -- The run that was written names the same objects as the one that was scanned.
  have hdesc' : r'.descriptorPath = some (ObjectName.ofDescriptor r.job r.id) := by
    rw [hrun]
    exact hdesc
  have hresults' : r'.resultPaths = r.resultPaths := by rw [hrun]
  have hpaths' : r'.paths = r.paths := by rw [paths, paths, hdesc', hdesc, hresults']
  refine ⟨{ job := r.job, id := r.id,
            descriptorPath := some (ObjectName.ofDescriptor r.job r.id),
            resultPaths := names, origin := .cache root }, ?_, hdesc'.symm, ?_, ?_⟩
  · simp only [openCache, hnames]
    rfl
  · intro p
    rw [hresults']
    exact hmem p
  · intro v hv hquiet
    -- The run that is opened has the same paths in another order.
    generalize hs : Run.mk r.job r.id (some (ObjectName.ofDescriptor r.job r.id)) names
      (.cache root) = s
    have hsorigin : s.origin = .cache root := by rw [← hs]
    have hsdesc : s.descriptorPath = some (ObjectName.ofDescriptor r.job r.id) := by rw [← hs]
    have hspaths : ∀ p, p ∈ s.paths ↔ p ∈ r.paths := by
      intro p
      rw [paths, paths, hsdesc, hdesc, ← hs, List.mem_append, List.mem_append, hmem]
    obtain ⟨hcontents, hdescriptor⟩ :=
      hstored.reads_back store hsorigin hsdesc hspaths hv hquiet hparse
    refine ⟨⟨gathered r'.known r.paths [], hcontents, ?_⟩, d, hdescriptor, ?_⟩
    · rw [contents_known hbucket (by rw [hdesc']; rfl) (by rw [hpaths']; exact hall), hpaths']
    · have hp := hplain.descriptor_mem
      rw [descriptor_known hbucket hdesc' (hall _ hp).1 (hall _ hp).2 hparse]

/-- A bucket with a run that has a descriptor and a test result. -/
def testedRun : Memory where
  objects :=
    [("logs/job/1/artifacts/junit_tests.xml", ⟨"<testsuites/>".toUTF8, 0⟩),
     ("logs/job/1/prowjob.json", ⟨"\x7b\x7d".toUTF8, 0⟩)]

/-- Scanning it and writing what is found to an empty disk. -/
theorem reopened_run_matches_tested :
    ∃ r r' w' written s,
      r ∈ scannedRuns (scan testedRun.store {} "job" { disk := {} }).1 ∧
      r.write testedRun.store ⟨"/work"⟩ { disk := {} } = (.ok written, r', w') ∧
      openCache w'.disk ⟨"/work"⟩ "job" r.id = .ok s ∧
      ∀ p, p ∈ s.resultPaths ↔ p ∈ r'.resultPaths := by
  generalize hw : ({ disk := {} } : World) = w
  generalize hruns : scannedRuns (scan testedRun.store {} "job" w).1 = runs
  have hone : runs.length = 1 := by
    subst hruns hw
    decide +kernel
  have hfits : (runs.all fun r =>
      r.id = "1" && (r.paths.all fun p => !(Text.segments p).contains "") &&
        r.descriptorPath = some (ObjectName.ofDescriptor "job" "1") &&
        (r.write testedRun.store ⟨"/work"⟩ w).1.isOk) = true := by
    subst hruns hw
    decide +kernel
  obtain ⟨r, rfl⟩ := List.length_eq_one_iff.mp hone
  simp only [List.all_cons, List.all_nil, Bool.and_true, Bool.and_eq_true, decide_eq_true_eq,
    List.all_eq_true, Bool.not_eq_true', List.contains_eq_mem, decide_eq_false_iff_not] at hfits
  obtain ⟨⟨⟨hid, hsegs⟩, hdesc⟩, hok⟩ := hfits
  have hmem : r ∈ scannedRuns (scan testedRun.store {} "job" w).1 := by rw [hruns]; simp
  cases hwrite : r.write testedRun.store ⟨"/work"⟩ w with
  | mk result rest =>
    obtain ⟨r', w'⟩ := rest
    cases result with
    | error e =>
      rw [hwrite] at hok
      cases hok
    | ok written =>
      obtain ⟨s, hopen, _, hresults, _⟩ := reopened_run_matches testedRun.store_listsInside
        (by decide) hmem hsegs (by rw [hid, hdesc]) (by rw [← hw]; exact Disk.IsTree.empty)
        (.inr (by decide)) (by rw [← hw]; rfl) hwrite
      exact ⟨r, r', w', written, s, by simp, hwrite, hopen, hresults⟩

end Run

end RunCache
