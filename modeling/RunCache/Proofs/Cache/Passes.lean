import RunCache.Proofs.Cache.InTurn
import RunCache.Proofs.Cache.Kept

/-! # Passes over runs

    A pass writes runs in turn and ends with the first that fails.  What it
    has written before stays, and below a directory that was empty nothing
    lies but what it came to write.

    * **`InTurn.holds`**: what runs written in turn leave on the disk.
    * **`Disk.Traced`**: trees in which every file below the cache is one of
      some files; writing a run keeps a tree traced (`Run.write_traced`).
    * **`Disk.Attempted`**, **`writeRuns_attempted`**: what a pass leaves,
      however it ends.
    * **`runPass_cases`**: a pass writes the runs of its scan. -/

namespace RunCache

open Disk (Grows)

variable {store : Store} {m : Memory} {root : Path} {w w' : World} {runs : List Run}
  {files : List (Path × ByteArray)}

/-! ## Runs that are written -/

/-- Files that are held stay held while runs are written in turn, and then those of the runs are
    held. -/
theorem InTurn.holds {told : List Written} (h : InTurn store root runs w told w')
    (hstore : store.Serves m)
    (hruns : ∀ r ∈ runs, r.origin = .bucket [] ∧ r.writes root m ⊆ files) :
    (∀ p, w.disk.Holds files p → w'.disk.Holds files p) ∧
      ∀ r ∈ runs, r.writes root m ≠ [] ∧ (∀ p ∈ r.paths, ObjectName.staysInside p = true) ∧
        ∀ f ∈ r.writes root m, w'.disk.Holds files f.1 := by
  induction h with
  | nil w => exact ⟨fun _ hp => hp, by simp⟩
  | @cons r r' runs w w₁ w₂ told more hwrite _ ih =>
    obtain ⟨horigin, hsub⟩ := hruns r (by simp)
    obtain ⟨hne, hstays, hkeep, hheld⟩ := Run.write_holds hstore horigin hsub hwrite
    obtain ⟨hkeep', hall⟩ := ih fun s hs => hruns s (List.mem_cons_of_mem r hs)
    refine ⟨fun p hp => hkeep' p (hkeep p hp), fun t ht => ?_⟩
    rcases List.mem_cons.mp ht with rfl | ht
    · exact ⟨hne, hstays, fun f hf => hkeep' f.1 (hheld f hf)⟩
    · exact hall t ht

/-! ## Below the cache -/

/-- A tree in which names below the cache are plain, and each file there is one of some files. -/
structure Disk.Traced (root : Path) (files : List (Path × ByteArray)) (d : Disk) : Prop where
  tree : d.IsTree
  names : ∀ rel e, d.get? (root.names ++ rel) = some e → ∀ s ∈ rel, IsName s
  written : ∀ rel bytes time, rel ≠ [] → d.get? (root.names ++ rel) = some (.file bytes time) →
    ∃ f ∈ files, f.1.names = root.names ++ rel

/-- A tree with nothing below the cache. -/
theorem Disk.Traced.start {d : Disk} (hd : d.IsTree)
    (hnone : ∀ rel, rel ≠ [] → d.get? (root.names ++ rel) = none) : d.Traced root files := by
  refine ⟨hd, fun rel e hget s hs => ?_, fun rel bytes time hne hget => ?_⟩
  · rw [hnone rel (List.ne_nil_of_mem hs)] at hget
    cases hget
  · rw [hnone rel hne] at hget
    cases hget

/-- A smaller tree is traced as well. -/
theorem Disk.Traced.less {d d' : Disk} (h : d.Traced root files) (hd' : d'.IsTree)
    (hless : ∀ loc e, d'.get? loc = some e → d.get? loc = some e) : d'.Traced root files :=
  ⟨hd', fun rel e hget => h.names rel e (hless _ e hget),
    fun rel bytes time hne hget => h.written rel bytes time hne (hless _ _ hget)⟩

/-- What grows by files of those, and by directories above them, stays traced. -/
theorem Writing.Tracks.traced {d : Disk} {x : Writing} {part : List (Path × ByteArray)}
    (h : x.Tracks d part) (hd : d.Traced root files) (hrooted : ∀ f ∈ part, f.1.IsRooted)
    (hsub : part ⊆ files) : x.disk.Traced root files := by
  obtain ⟨htree, hgrows⟩ := h
  -- All that is new has the place of a path without dots.
  have hplain : ∀ (p : Path) rel, p.IsRooted → root.names ++ rel = d.place p →
      ∀ s ∈ rel, IsName s := by
    intro p rel hp hplace s hs
    rw [Disk.place_of_isRooted hp] at hplace
    exact hp.isName_of_mem (hplace ▸ List.mem_append_right _ hs)
  refine ⟨htree, fun rel e hget => ?_, fun rel bytes time hne hget => ?_⟩
  · cases e with
    | dir closed =>
      rcases hgrows.dir_before hget with hold | ⟨⟨f, hf, dir, hdir, q, hq, hplace⟩, _⟩
      · exact hd.names rel _ hold
      · have hrooted' : dir.IsRooted := ((hrooted f hf).of_parent hdir).1
        exact hplain q rel (hrooted'.of_mem_ancestors hq) hplace
    | file bytes time =>
      rcases hgrows.file_before hget with hold | ⟨⟨f, hf, hplace⟩, _⟩
      · exact hd.names rel _ hold
      · exact hplain f.1 rel (hrooted f hf) hplace
    | link target => exact absurd (htree.noLink _ _ hget) (by simp [Entry.isLink])
  · rcases hgrows.file_before hget with hold | ⟨⟨f, hf, hplace⟩, _⟩
    · exact hd.written rel bytes time hne hold
    · refine ⟨f, hsub hf, ?_⟩
      rw [hplace, Disk.place_of_isRooted (hrooted f hf)]

/-- Writing files keeps the tree traced, whether all of them could be written or not. -/
theorem writeAll_traced {d d' : Disk} {now : Int} {part : List (Path × ByteArray)}
    {result : Except Error Unit} (hd : d.Traced root files)
    (hrooted : ∀ f ∈ part, f.1.IsRooted) (hsub : part ⊆ files)
    (h : writeAll d now part = (result, d')) : d'.Traced root files := by
  have htracks := Writing.files_tracks hd.tree now part
  have hcovers := Writing.files_covers hd.tree now hrooted
  unfold writeAll at h
  split at h
  · next x hfiles =>
    rw [hfiles] at htracks
    obtain ⟨_, rfl⟩ := Prod.mk.inj h
    exact htracks.traced hd hrooted hsub
  · next e x hfiles =>
    rw [hfiles] at htracks hcovers
    obtain ⟨_, rfl⟩ := Prod.mk.inj h
    obtain ⟨htree, _, hleft⟩ := Writing.undone_spec hd.tree htracks hcovers
    exact (htracks.traced hd hrooted hsub).less htree fun loc e hget => (hleft loc e hget).1

/-- Writing a run keeps the tree traced, whether it fails or not. -/
theorem Run.write_traced {r r' : Run} {result : Except Error Written} (hstore : store.Serves m)
    (hroot : root.IsRooted) (hr : r.origin = .bucket []) (hjob : IsName r.job)
    (hsub : r.writes root m ⊆ files) (hd : w.disk.Traced root files)
    (h : r.write store root w = (result, r', w')) : w'.disk.Traced root files := by
  rcases Run.write_cases hstore hr h with
    ⟨_, _, hdisk⟩ | ⟨_, hstays, ⟨_, _, hall⟩ | ⟨_, _, hall⟩⟩
  · rwa [hdisk]
  · exact writeAll_traced hd (Run.writes_isRooted hroot hjob hstays) hsub hall
  · exact writeAll_traced hd (Run.writes_isRooted hroot hjob hstays) hsub hall

/-! ## Runs that were attempted -/

/-- A tree in which some runs are cached, and nothing lies below the cache but files of these and of
    at most one more, which was attempted and failed. -/
structure Disk.Attempted (root : Path) (m : Memory) (done last : List Run) (d : Disk) : Prop where
  atMostOne : last.length ≤ 1
  stays : ∀ r ∈ done ++ last, ∀ p ∈ r.paths, ObjectName.staysInside p = true
  cached : ∀ r ∈ done, Run.IsCached root m (done ++ last) d r
  traced : d.Traced root ((done ++ last).flatMap (Run.writes root m))

theorem Run.writes_subset_flatMap {r : Run} (hr : r ∈ runs) :
    r.writes root m ⊆ runs.flatMap (Run.writes root m) :=
  fun _ hf => List.mem_flatMap.mpr ⟨r, hr, hf⟩

/-- Runs written in turn where nothing lay below the cache are cached, whatever other runs may have
    written files beside theirs. -/
theorem InTurn.cached {others : List Run} {told : List Written}
    (h : InTurn store root runs w told w') (hstore : store.Serves m) (hroot : root.IsRooted)
    (hruns : ∀ r ∈ runs, r.origin = .bucket [] ∧ IsName r.job) (hsub : runs ⊆ others)
    (hd : w.disk.IsTree) (hnone : ∀ rel, rel ≠ [] → w.disk.get? (root.names ++ rel) = none) :
    (∀ r ∈ runs, (∀ p ∈ r.paths, ObjectName.staysInside p = true) ∧
      Run.IsCached root m others w'.disk r) ∧
      w'.disk.Traced root (others.flatMap (Run.writes root m)) := by
  have hheld := (h.holds hstore fun r hr =>
    ⟨(hruns r hr).1, Run.writes_subset_flatMap (hsub hr)⟩).2
  refine ⟨fun r hr => ?_, h.keeps (.start hd hnone) fun r hr v written r' v' hv hwrite => ?_⟩
  · obtain ⟨hne, hstays, hholds⟩ := hheld r hr
    exact ⟨hstays, hne, hholds⟩
  · obtain ⟨horigin, hjob⟩ := hruns r hr
    exact Run.write_traced hstore hroot horigin hjob (Run.writes_subset_flatMap (hsub hr)) hv hwrite

/-- A run that comes to write, and fails there, leaves the runs before it cached. -/
theorem Disk.Attempted.fail {done : List Run} {r r' : Run} {e : Error} (hstore : store.Serves m)
    (hroot : root.IsRooted) (hjobs : ∀ t ∈ done ++ [r], t.origin = .bucket [] ∧ IsName t.job)
    (hcached : ∀ t ∈ done, (∀ p ∈ t.paths, ObjectName.staysInside p = true) ∧
      Run.IsCached root m (done ++ [r]) w.disk t)
    (htraced : w.disk.Traced root ((done ++ [r]).flatMap (Run.writes root m)))
    (hstays : ∀ p ∈ r.paths, ObjectName.staysInside p = true)
    (hwrite : r.write store root w = (.error e, r', w'))
    (hall : writeAll w.disk w.now (r.writes root m) = (.error e, w'.disk)) :
    w'.disk.Attempted root m done [r] := by
  have hmem : r ∈ done ++ [r] := by simp
  have hboth : ∀ t ∈ done ++ [r], ∀ p ∈ t.paths, ObjectName.staysInside p = true := by
    intro t ht
    rcases List.mem_append.mp ht with ht | ht
    · exact (hcached t ht).1
    · rwa [List.mem_singleton.mp ht]
  have hrooted : ∀ f ∈ (done ++ [r]).flatMap (Run.writes root m), f.1.IsRooted := by
    intro f hf
    obtain ⟨t, ht, hf⟩ := List.mem_flatMap.mp hf
    exact Run.writes_isRooted hroot (hjobs t ht).2 (hboth t ht) f hf
  refine ⟨by simp, hboth, fun t ht => ?_, ?_⟩
  · have hold := (hcached t ht).2
    refine ⟨hold.writes, fun f hf => ?_⟩
    have hmem' := Run.writes_subset_flatMap (List.mem_append_left [r] ht) hf
    exact writeAll_keeps htraced.tree hrooted (Run.writes_subset_flatMap hmem) (hrooted f hmem')
      (hold.holds f hf) hall
  · exact Run.write_traced hstore hroot (hjobs r hmem).1 (hjobs r hmem).2
      (Run.writes_subset_flatMap hmem) htraced hwrite

/-- What writing runs leaves where nothing lay below the cache, however it ends. -/
theorem writeRuns_attempted {s : Summary} {result : Except Error Summary} (hstore : store.Serves m)
    (hroot : root.IsRooted) (hruns : ∀ r ∈ runs, r.origin = .bucket [] ∧ IsName r.job)
    (hd : w.disk.IsTree) (hnone : ∀ rel, rel ≠ [] → w.disk.get? (root.names ++ rel) = none)
    (h : writeRuns store root runs s w = (result, w')) :
    ∃ done last rest, runs = done ++ last ++ rest ∧ w'.disk.Attempted root m done last := by
  obtain ⟨done, rest, told, w₁, rfl, hturn, hend⟩ := writeRuns_inTurn h
  have hfresh : ∀ r ∈ done, r.origin = .bucket [] ∧ IsName r.job :=
    fun r hr => hruns r (List.mem_append_left _ hr)
  have hdone : w₁.disk.Attempted root m done [] := by
    obtain ⟨hall, htraced⟩ :=
      hturn.cached hstore hroot hfresh (List.subset_append_left done []) hd hnone
    refine ⟨by simp, ?_, fun r hr => (hall r hr).2, htraced⟩
    simpa using fun r hr => (hall r hr).1
  rcases hend with ⟨rfl, rfl, _⟩ | ⟨r, more, e, r', rfl, hwrite, _⟩
  · exact ⟨done, [], [], by simp, hdone⟩
  · obtain ⟨horigin, _⟩ := hruns r (by simp)
    rcases Run.write_cases hstore horigin hwrite with
      ⟨_, _, hdisk⟩ | ⟨_, hstays, ⟨e', he, hall⟩ | ⟨_, hok, _⟩⟩
    · exact ⟨done, [], r :: more, by simp, hdisk ▸ hdone⟩
    · obtain rfl := Except.error.inj he
      obtain ⟨hcached, htraced⟩ :=
        hturn.cached hstore hroot hfresh (List.subset_append_left done [r]) hd hnone
      have hjobs : ∀ t ∈ done ++ [r], t.origin = .bucket [] ∧ IsName t.job := by
        intro t ht
        rcases List.mem_append.mp ht with ht | ht
        · exact hfresh t ht
        · rw [List.mem_singleton.mp ht]
          exact hruns r (by simp)
      exact ⟨done, [r], more, by simp,
        .fail hstore hroot hjobs hcached htraced hstays hwrite hall⟩
    · cases hok

/-! ## Whole passes -/

theorem cacheRuns_cases {broken : Option Error} {result : Except Error Summary}
    (h : cacheRuns store root runs broken w = (result, w')) :
    ∃ written, writeRuns store root runs ⟨runs.length, 0, 0⟩ w = (written, w') ∧
      ∀ s, result = .ok s → written = .ok s ∧ broken = none := by
  unfold cacheRuns at h
  split at h
  · next e w₁ hwrite =>
    obtain ⟨rfl, rfl⟩ := Prod.mk.inj h
    exact ⟨.error e, hwrite, fun s hs => by cases hs⟩
  · next s w₁ hwrite =>
    split at h
    · next e =>
      obtain ⟨rfl, rfl⟩ := Prod.mk.inj h
      exact ⟨.ok s, hwrite, fun s hs => by cases hs⟩
    · obtain ⟨rfl, rfl⟩ := Prod.mk.inj h
      exact ⟨.ok s, hwrite, fun s hs => ⟨hs, rfl⟩⟩

/-- A pass changes nothing before it has scanned, and then writes the runs of its scan. It succeeds
    only where the scan was complete and all runs could be written. -/
theorem runPass_cases {o : PassOptions} {result : Except Error Summary}
    (h : runPass store o w = (result, w')) :
    ((∃ e, result = .error e) ∧ w'.disk = w.disk) ∨
      ∃ options w₁ s written, o.scanOptions w.disk = .ok options ∧ w₁.disk = w.disk ∧
        writeRuns store o.workingDir (scannedRuns (scan store options o.job w).1) s w₁ =
          (written, w') ∧
        ∀ summary, result = .ok summary →
          written = .ok summary ∧ ∃ runs, (scan store options o.job w).1 = .ok runs := by
  rw [runPass_eq] at h
  split at h
  · next e _ =>
    obtain ⟨rfl, rfl⟩ := Prod.mk.inj h
    exact .inl ⟨⟨e, rfl⟩, rfl⟩
  · next options hoptions =>
    -- A scan only lists: what it leaves on the disk is what it found there.
    have hdisk : (scan store options o.job w).2.disk = w.disk := by
      obtain ⟨_, w₀, hscan, _, hcalls⟩ := scan_eq store options o.job w
      rw [hscan]
      exact hcalls.disk
    split at h
    · next hcancelled =>
      obtain ⟨e, he⟩ := Option.isSome_iff_exists.mp (Option.isSome_of_any hcancelled)
      obtain ⟨rfl, rfl⟩ := Prod.mk.inj h
      exact .inl ⟨⟨e, by rw [he]; rfl⟩, hdisk⟩
    · obtain ⟨written, hwrite, hok⟩ := cacheRuns_cases h
      refine .inr ⟨options, _, _, written, hoptions, hdisk, hwrite, fun s hs => ?_⟩
      obtain ⟨hwritten, hwhole⟩ := hok s hs
      refine ⟨hwritten, ?_⟩
      cases hfound : (scan store options o.job w).1 with
      | ok runs => exact ⟨runs, rfl⟩
      | error e =>
        rw [hfound] at hwhole
        cases hwhole

end RunCache
