import RunCache.Bucket.Folder
import RunCache.Bucket.Paged
import RunCache.Proofs.Cache.Below
import RunCache.Proofs.Cache.Confined
import RunCache.Proofs.Cache.Passes
import RunCache.Proofs.Disk.Parents

/-! # A pass stays with its job

    The names that a pass follows on the disk come from the bucket: from a
    listing, and from the descriptors.  Whatever they are, the pass changes
    nothing but the job's directory and its part of the by-name index.

    * **`Folder.store_listsInside`**, **`Service.store_listsInside`**: the
      buckets list no object outside the query.
    * **`ownAreas`**: what belongs to a job in the cache.
    * **`Run.files_own`**: the files of a run that a scan has found.
    * **`pass_changes_own_job`**: a pass, however it ends. -/

namespace RunCache

open ObjectName (steps)

/-! ## Buckets -/

theorem Folder.store_listsInside (root : Path) : (Folder.store root).ListsInside := by
  intro w q items houtcome x hx object hobject
  have hitems : (Folder.items w.disk root q).map (fun item => ({ item } : Delivery)) = items :=
    Except.ok.inj (Option.some.inj houtcome)
  rw [← hitems] at hx
  obtain ⟨item, hitem, rfl⟩ := List.mem_map.mp hx
  obtain rfl : item = .ok object := hobject
  -- An object that a walk collects is one of a visit, and admitted there.
  have hcollected : ∀ visits, object ∈ (Folder.collect root q visits).1 →
      q.admits object.name = true := by
    intro visits
    induction visits with
    | nil =>
      intro hmem
      cases hmem
    | cons visit rest ih =>
      intro hmem
      cases visit with
      | error f => cases hmem
      | ok v =>
        rcases List.mem_append.mp hmem with hmem | hmem
        · have hobject : Folder.object? root q v = some object := Option.mem_toList.mp hmem
          unfold Folder.object? at hobject
          split at hobject
          · split at hobject
            · split at hobject
              · next hadmits =>
                obtain rfl := Option.some.inj hobject
                exact hadmits
              · cases hobject
            · cases hobject
          · cases hobject
        · exact ih hmem
  unfold Folder.items at hitem
  simp only at hitem
  split at hitem
  · cases hitem
  · apply hcollected (w.disk.walk (Folder.startOf root q.under))
    simpa using hitem

theorem Service.store_listsInside (s : Service) : s.store.ListsInside := by
  intro w q items houtcome x hx object hobject
  have hitems : (s.items q).map (fun item => ({ item } : Delivery)) = items :=
    Except.ok.inj (Option.some.inj houtcome)
  rw [← hitems] at hx
  obtain ⟨item, hitem, rfl⟩ := List.mem_map.mp hx
  obtain rfl : item = .ok object := hobject
  have hpages : ∀ pages, .ok object ∈ Page.items q pages → q.admits object.name = true := by
    intro pages
    induction pages with
    | nil =>
      intro hmem
      cases hmem
    | cons page rest ih =>
      intro hmem
      cases page with
      | refused message => simp [Page.items] at hmem
      | entries xs =>
        rcases List.mem_append.mp hmem with hmem | hmem
        · obtain ⟨listed, hlisted, heq⟩ := List.mem_map.mp hmem
          obtain rfl := Except.ok.inj heq
          exact (List.mem_filter.mp hlisted).2
        · exact ih hmem
  exact hpages _ hitem

/-! ## What belongs to a job -/

/-- What belongs to a job in the cache: its directory, and its part of the by-name index. -/
def ownAreas (root : Path) (job : String) : List Location :=
  [root.names ++ [ObjectName.logsRoot, job], root.names ++ [CachePath.indexRoot, job]]

namespace Run

variable {store : Store} {o : ScanOptions} {job : String} {w w' : World} {r r' : Run} {root : Path}

/-- The objects of a run that a scan has found lie below the job, none of them at the job itself. -/
theorem steps_below {p : String} (hstore : store.ListsInside) (hjob : IsName job)
    (hr : r ∈ scannedRuns (scan store o job w).1) (hp : p ∈ r.paths) :
    ∃ more last, steps p = [ObjectName.logsRoot, job] ++ more ++ [last] := by
  have hgroups := scannedRuns_groupsInto store o job w
  have hid := hgroups.runId_of_mem_paths hr hp
  rw [hgroups.records r hr] at hp
  obtain ⟨x, hx, rfl, _⟩ := ScanOptions.listed_paths hp
  obtain ⟨tail, hne, htail⟩ :=
    ObjectKind.exists_steps_below hjob (admits_of_mem_listedBefore hstore hx) hid
  refine ⟨tail.dropLast, tail.getLast hne, ?_⟩
  rw [htail, List.append_assoc, List.dropLast_append_getLast hne]
  rfl

/-- Every file of a run that a scan has found lies in what belongs to the job. -/
theorem files_own {d : Descriptor} {contents : Fields ByteArray} (hstore : store.ListsInside)
    (hjob : IsName job) (hroot : root.IsRooted) (hr : r ∈ scannedRuns (scan store o job w).1)
    (hpaths : ∀ e ∈ contents, e.1 ∈ r.paths) (hesc : escaping? contents = none) :
    ∀ f ∈ r.files root d contents, f.1.LiesIn (ownAreas root job) := by
  intro f hf
  obtain ⟨rfl, hlisted⟩ := isListed_of_scanned hstore hr
  have hlogs : root.names ++ [ObjectName.logsRoot, r.job] ∈ ownAreas root r.job :=
    List.mem_cons_self
  have hindex : root.names ++ [CachePath.indexRoot, r.job] ∈ ownAreas root r.job :=
    List.mem_cons_of_mem _ List.mem_cons_self
  -- Objects and copies lie in the directory of the job, entries in its part of the index.
  cases mem_files_iff.mp hf with
  | @object path bytes h =>
    have hstays := staysInside_of_escaping hesc h
    obtain ⟨more, last, hsteps⟩ := steps_below hstore hjob hr (hpaths _ h)
    rw [CachePath.ofObject_eq, hsteps]
    exact hroot.liesIn _ _ _ (fun s hs => .of_mem_steps hstays (hsteps ▸ hs)) hlogs
  | @copy path bytes h hpath =>
    have hstays := staysInside_of_escaping hesc h
    obtain ⟨more, last, hsteps⟩ := steps_below hstore hjob hr (hpaths _ h)
    have hnames : ∀ s ∈ [ObjectName.logsRoot, r.job] ++ more ++ [last], IsName s :=
      fun s hs => .of_mem_steps hstays (hsteps ▸ hs)
    rw [CachePath.ofObject_eq, hsteps, Path.withFileName_concat hnames (by simp)]
    apply hroot.liesIn _ _ _ _ hlogs
    intro s hs
    rcases List.mem_append.mp hs with hs | hs
    · exact hnames s (List.mem_append_left _ hs)
    · obtain rfl := List.mem_singleton.mp hs
      exact CachePath.isName_copyFile
  | @entry label hlabel hname _ =>
    rw [CachePath.ofIndexEntry_eq]
    exact hroot.liesIn [CachePath.indexRoot, r.job] [label, d.name] CachePath.copyFile
      (fun s hs => CachePath.isName_of_mem_indexEntry hjob hlabel hname hs) hindex

/-- What is read before a run that a scan has found is written makes files of the job. -/
theorem files_of_gather {v v' : World} {d : Descriptor} {contents : Fields ByteArray}
    (hstore : store.ListsInside) (hjob : IsName job) (hroot : root.IsRooted)
    (hr : r ∈ scannedRuns (scan store o job w).1)
    (h : r.gather store root v = (.ok (d, contents), r', v')) :
    ∀ f ∈ r'.files root d contents, f.1.LiesIn (ownAreas root job) := by
  have hreads := gather_reads store root r v
  rw [h] at hreads
  obtain ⟨_, hcontents, _⟩ := gather_ok (scanned_run hstore hjob.2.2.2 hr).2.1 h
  -- What reading changes of a run is not what its files depend on.
  have hfiles : r'.files root d contents = r.files root d contents := by
    obtain ⟨origin, rfl⟩ := hreads.run
    rfl
  rw [hfiles]
  apply files_own hstore hjob hroot hr
  · intro e he
    rw [hcontents] at he
    exact (mem_gathered_iff.mp he).1
  · exact gather_stays h

/-- Writing a run that a scan has found changes nothing but what belongs to the job. -/
theorem write_changes_own {v v' : World} {result : Except Error Written}
    (hstore : store.ListsInside) (hjob : IsName job) (hroot : root.IsRooted) (hd : v.disk.IsTree)
    (hr : r ∈ scannedRuns (scan store o job w).1) (h : r.write store root v = (result, r', v')) :
    v'.disk.IsTree ∧ Disk.ChangesOnly (ownAreas root job) v.disk v'.disk := by
  apply write_changesOnly hd _ h
  intro d contents r₁ v₁ hgather f hf
  have hlies := files_of_gather hstore hjob hroot hr hgather f hf
  exact ⟨hlies.rooted, hlies.below⟩

end Run

/-! ## Passes -/

section Passes

variable {store : Store} {root : Path} {job : String} {w w' : World} {o : ScanOptions}

theorem writeRuns_changes_own {w₀ : World} {runs : List Run} {s : Summary}
    {result : Except Error Summary} (hstore : store.ListsInside) (hjob : IsName job)
    (hroot : root.IsRooted) (hd : w.disk.IsTree)
    (hruns : ∀ r ∈ runs, r ∈ scannedRuns (scan store o job w₀).1)
    (h : writeRuns store root runs s w = (result, w')) :
    w'.disk.IsTree ∧ Disk.ChangesOnly (ownAreas root job) w.disk w'.disk := by
  apply writeRuns_keeps (P := fun d => d.IsTree ∧ Disk.ChangesOnly (ownAreas root job) w.disk d)
    ⟨hd, .refl _ _⟩ _ h
  intro r hr v written r' v' hv hwrite
  obtain ⟨hd', hchanges⟩ :=
    Run.write_changes_own hstore hjob hroot hv.1 (hruns r hr) hwrite
  exact ⟨hd', hv.2.trans hchanges⟩

/-- A pass changes nothing but the directory of its job and the job's part of the by-name index, and
    makes missing directories on the way to them, whatever the bucket holds and however the pass
    ends. -/
theorem pass_changes_own_job {o : PassOptions} {result : Except Error Summary}
    (hstore : store.ListsInside) (hjob : IsName o.job) (hroot : o.workingDir.IsRooted)
    (hd : w.disk.IsTree) (h : runPass store o w = (result, w')) :
    Disk.ChangesOnly (ownAreas o.workingDir o.job) w.disk w'.disk := by
  rcases runPass_cases h with ⟨_, hdisk⟩ | ⟨options, w₁, s, written, _, hdisk, hwrite, _⟩
  · rw [hdisk]
    exact .refl _ _
  · rw [← hdisk]
    exact (writeRuns_changes_own hstore hjob hroot (hdisk ▸ hd) (fun r hr => hr) hwrite).2

end Passes

/-- A bucket with a run that is to be found in the by-name index, and one whose test result is named
    so as to lead out of the cache. -/
def hostileBucket : Memory where
  objects :=
    [("logs/job/1/prowjob.json", ⟨Run.labelledText.toUTF8, 0⟩),
     ("logs/job/2/../../../../out/junit.xml", ⟨"<testsuites/>".toUTF8, 0⟩),
     ("logs/job/2/prowjob.json", ⟨Run.labelledText.toUTF8, 0⟩)]

/-- The pass writes the first run and ends at the second. -/
theorem pass_changes_own_job_hostile :
    ∃ e w',
      runPass hostileBucket.store { job := "job", workingDir := ⟨"/work"⟩ } { disk := {} } =
          (.error e, w') ∧
        (w'.disk.get? ["work", "by-name", "job", "label", "run", "prowjob.yaml"]).isSome ∧
        Disk.ChangesOnly [["work", "logs", "job"], ["work", "by-name", "job"]] {} w'.disk := by
  generalize hw : ({ disk := {} } : World) = w
  generalize ho : ({ job := "job", workingDir := ⟨"/work"⟩ } : PassOptions) = o
  have hfails : (runPass hostileBucket.store o w).1.isOk = false := by
    subst hw ho
    decide +kernel
  have hentry : ((runPass hostileBucket.store o w).2.disk.get?
      ["work", "by-name", "job", "label", "run", "prowjob.yaml"]).isSome = true := by
    subst hw ho
    decide +kernel
  rcases hpass : runPass hostileBucket.store o w with ⟨result, w'⟩
  rw [hpass] at hfails hentry
  have hroot : Path.IsRooted ⟨"/work"⟩ := ⟨by decide, by decide⟩
  have hchanges := pass_changes_own_job hostileBucket.store_listsInside
    (by subst ho; decide) (by subst ho; exact hroot) (by subst hw; exact Disk.IsTree.empty) hpass
  have hareas : ownAreas o.workingDir o.job =
      [["work", "logs", "job"], ["work", "by-name", "job"]] := by
    subst ho
    decide
  have hdisk : w.disk = {} := by rw [← hw]
  rw [hareas, hdisk] at hchanges
  cases result with
  | ok summary => cases hfails
  | error e => exact ⟨e, w', rfl, hentry, hchanges⟩

end RunCache
