import RunCache.Proofs.Cache.FixedPoint
import RunCache.Proofs.Cache.Indexed
import RunCache.Proofs.Script.Operations

/-! # The index rebuilt

    Where entries of the by-name index are lost, rebuilding it writes them
    again: the runs are found in the cache, each of them is opened and its
    descriptor read, and its entry comes out as the pass had written it.

    * **`PartlyIndexed.writeAll_entry`**, **`PartlyIndexed.wrote_entry`**:
      an entry can be written, and nothing else changes.
    * **`indexRun_restores`**: one run.
    * **`indexRuns_restores`**: runs in any order.
    * **`Rebuilds`**: an index that is rebuilt, with the runs as they are
      found or in another order.
    * **`reindex_restores`**: all runs of a cache that a pass has left. -/

namespace RunCache

open Writing (Wrote)
open ObjectName (ofDescriptor)

variable {m : Memory} {root : Path} {job : String} {r : Run} {runs : List Run} {now : Int}
  {full d d' : Disk} {w : World}

/-! ## One entry -/

/-- Whether a disk has at a location again what another one has there, written at a time. -/
def Disk.RestoredAt (full : Disk) (now : Int) (d : Disk) (loc : Location) : Prop :=
  d.get? loc = (full.get? loc).map (Entry.writtenAt now)

theorem writeAll_of_file {x : Writing} {target : Path} {bytes : ByteArray}
    (h : (Writing.mk d []).file now target bytes = (.ok (), x)) :
    writeAll d now [(target, bytes)] = (.ok (), x.disk) := by
  unfold writeAll Writing.files
  simp only [h, Writing.files]

namespace Disk.PartlyIndexed

variable {names : List String} {bytes : ByteArray} {time later : Int}

/-- A file of the index can be written again. -/
theorem writeAll_entry (h : full.PartlyIndexed root job d) (hfull : full.Caches m root job runs now)
    (hindex : [CachePath.indexRoot, job] <+: names)
    (hget : full.get? (full.place root ++ names) = some (.file bytes time)) (later : Int) :
    ∃ d', writeAll d later (targets root [(names, bytes)]) = (.ok (), d') := by
  obtain ⟨more, rfl⟩ := hindex
  have htakes := hfull.takes (by simp) hget
  -- The index itself is there, and from it nothing but open directories leads to the file.
  have hroot : full.get? (full.place root ++ [CachePath.indexRoot]) = some (.dir false) :=
    hfull.open_above hget (by simp) (by simp) (by simp)
  have hthere : d.get? (d.place root ++ [CachePath.indexRoot]) = some (.dir false) := by
    rw [h.get_eq (by simp), hroot]
  have htop := hfull.takes (by simp) hroot
  have hplace : d.place (root.join CachePath.indexRoot) = d.place root ++ [CachePath.indexRoot] :=
    Disk.place_foldl_join htop.names d root
  have hstands : d.Stands (root.join CachePath.indexRoot) := by
    refine ⟨h.stands.tree, ?_⟩
    have hstat : d.stat true ([CachePath.indexRoot].foldl Path.join root) = _ :=
      h.stands.stat_found htop (by simp) hthere
    show d.isDir ([CachePath.indexRoot].foldl Path.join root) = true
    rw [Disk.isDir, hstat]
    rfl
  obtain ⟨init, name, hconcat⟩ : ∃ init name, job :: more = init ++ [name] :=
    ⟨_, _, (List.dropLast_append_getLast (by simp)).symm⟩
  have hbelow : Disk.Takes (root.join CachePath.indexRoot) (init ++ [name]) := by
    rw [← hconcat]
    exact ⟨fun s hs => htakes.names s (List.mem_cons_of_mem _ hs),
      fun s hs => htakes.fits s (List.mem_cons_of_mem _ hs), htakes.accepted⟩
  have hfile : ∀ closed, d.get? (d.place (root.join CachePath.indexRoot) ++ (init ++ [name])) ≠
      some (.dir closed) := by
    intro closed
    rw [hplace, ← hconcat, List.append_assoc, h.place_eq]
    exact h.part.not_dir hget closed
  have hopen : d.Open (d.place (root.join CachePath.indexRoot)) init := by
    intro l hl e he
    rw [hplace, List.append_assoc, h.place_eq] at he
    obtain ⟨e', written, hfull', rfl⟩ := h.part.held _ e he
    have hpre : CachePath.indexRoot :: l <+: [CachePath.indexRoot, job] ++ more := by
      rw [List.cons_append, List.cons_prefix_cons, List.singleton_append, hconcat]
      exact ⟨rfl, hl.trans (List.prefix_append init [name])⟩
    have hne : CachePath.indexRoot :: l ≠ [CachePath.indexRoot, job] ++ more := by
      intro heq
      have hlen := hl.length_le
      have hl' : l = init ++ [name] := by
        rw [← hconcat]
        exact (List.cons.inj heq).2
      rw [hl', List.length_append, List.length_singleton] at hlen
      omega
    have hdir := hfull.open_above hget hpre hne (by simp)
    obtain rfl := Option.some.inj (hfull'.symm.trans hdir)
    rfl
  obtain ⟨y, hy⟩ := Writing.file_of_open (x := ⟨d, []⟩) hstands hbelow hopen hfile later bytes
  rw [← hconcat] at hy
  exact ⟨y.disk, writeAll_of_file hy⟩

/-- Where a file of the index has been written again, every other place holds what it held, or it is
    on the way to the file and holds the directory that the cache has there. -/
theorem wrote_cases (h : full.PartlyIndexed root job d) (hfull : full.Caches m root job runs now)
    (hne : names ≠ []) (hget : full.get? (full.place root ++ names) = some (.file bytes time))
    (hwrote : Wrote (targets root [(names, bytes)]) later d d') :
    d'.get? (full.place root ++ names) = some (.file bytes later) ∧
      ∀ loc, loc ≠ full.place root ++ names → d'.get? loc = d.get? loc ∨
        (d.get? loc = none ∧ d'.get? loc = some (.dir false) ∧
          full.get? loc = some (.dir false)) := by
  have hnames : ∀ f ∈ [(names, bytes)], f.1 ≠ [] ∧ ∀ s ∈ f.1, IsName s := by
    intro f hf
    rw [List.mem_singleton.mp hf]
    exact ⟨hne, (hfull.takes hne hget).names⟩
  have hplaces : Writing.places d (targets root [(names, bytes)]) =
      [(full.place root ++ names, bytes)] := by
    rw [places_targets fun f hf => (hnames f hf).2, h.place_eq]
    rfl
  refine ⟨hwrote.written _ bytes (by simp [hplaces, lastAt?]), fun loc hloc => ?_⟩
  have hlast : lastAt? (Writing.places d (targets root [(names, bytes)])) loc = none := by
    rw [hplaces]
    simpa [lastAt?] using Ne.symm hloc
  rcases hwrote.kept hlast with hsame | ⟨hdirs, hnone, hdir⟩
  · exact .inl hsame
  · -- What is made lies above the file, below the cache.
    obtain ⟨f, hf, l, hl, hlne, rfl⟩ := Writing.above_of_dirPlaces h.stands hnames hdirs hnone
    rw [List.mem_singleton.mp hf] at hl hlne
    have hnil : l ≠ [] := by
      rintro rfl
      obtain ⟨closed, hthere⟩ := h.stands.dir
      rw [List.append_nil, hthere] at hnone
      cases hnone
    refine .inr ⟨hnone, hdir, ?_⟩
    rw [h.place_eq]
    exact hfull.open_above hget hl hlne hnil

/-- Writing a file of the index again restores it and undoes nothing. -/
theorem wrote_entry (h : full.PartlyIndexed root job d) (hfull : full.Caches m root job runs now)
    (hindex : [CachePath.indexRoot, job] <+: names)
    (hget : full.get? (full.place root ++ names) = some (.file bytes time))
    (hwrote : Wrote (targets root [(names, bytes)]) later d d') :
    full.PartlyIndexed root job d' ∧ full.RestoredAt later d' (full.place root ++ names) ∧
      ∀ loc, full.RestoredAt later d loc → full.RestoredAt later d' loc := by
  have hne : names ≠ [] := by
    rintro rfl
    simp at hindex
  obtain ⟨hfile, helse⟩ := h.wrote_cases hfull hne hget hwrote
  have hrestored : full.RestoredAt later d' (full.place root ++ names) := by
    rw [Disk.RestoredAt, hget, hfile]
    rfl
  refine ⟨⟨⟨hwrote.tree, hwrote.grows.home.trans h.part.home, fun loc hout => ?_,
    fun loc e he => ?_⟩, h.stands.grows hwrote.tree hwrote.grows⟩, hrestored, fun loc hloc => ?_⟩
  · -- Outside the index nothing was missing, so nothing has been made.
    have hloc : loc ≠ full.place root ++ names := by
      rintro rfl
      exact hout ((List.prefix_append_right_inj _).mpr hindex)
    rcases helse loc hloc with hsame | ⟨hnone, _, hdir⟩
    · rw [hsame, h.part.outside loc hout]
    · rw [h.part.outside loc hout, hdir] at hnone
      cases hnone
  · by_cases hloc : loc = full.place root ++ names
    · subst hloc
      exact ⟨_, later, hget, Option.some.inj (he.symm.trans hfile)⟩
    · rcases helse loc hloc with hsame | ⟨_, hnew, hdir⟩
      · exact h.part.held loc e (hsame ▸ he)
      · exact ⟨_, later, hdir, Option.some.inj (he.symm.trans hnew)⟩
  · by_cases hloc' : loc = full.place root ++ names
    · rwa [hloc']
    · rcases helse loc hloc' with hsame | ⟨hnone, _, hdir⟩
      · rw [Disk.RestoredAt, hsame]
        exact hloc
      · -- What was missing had not been restored.
        rw [Disk.RestoredAt, hnone, hdir] at hloc
        cases hloc

end Disk.PartlyIndexed

/-! ## One run -/

/-- An entry of the index lies in the index of its job. -/
theorem prefix_of_indexNames {desc : Descriptor} {names : List String} (hjob : IsName job)
    (h : Run.indexNames? job desc = some names) : [CachePath.indexRoot, job] <+: names := by
  obtain ⟨label, _, _, _, rfl⟩ := Run.indexNames_eq_some h
  rw [CachePath.indexNames, Run.steps_of_isName hjob]
  exact List.prefix_append [CachePath.indexRoot, job] [label, desc.name, CachePath.copyFile]

/-- What rebuilding has done to a cache between two worlds: nothing is undone, and the entries of
    some runs are there again. -/
structure Reindexed (full : Disk) (m : Memory) (root : Path) (job : String) (done : List Run)
    (w w' : World) : Prop where
  now : w'.now = w.now
  quiet : w'.IsQuiet
  left : full.PartlyIndexed root job w'.disk
  kept : ∀ loc, full.RestoredAt w.now w.disk loc → full.RestoredAt w.now w'.disk loc
  entries : ∀ r ∈ done, ∀ desc names, r.parsed? m = some desc →
    Run.indexNames? job desc = some names →
    full.RestoredAt w.now w'.disk (full.place root ++ names)

namespace Reindexed

variable {done : List Run} {w w' w₁ : World}

/-- Calls in between do not count. -/
theorem of_same (h : Reindexed full m root job done w₁ w') (hdisk : w₁.disk = w.disk)
    (hnow : w₁.now = w.now) : Reindexed full m root job done w w' := by
  obtain ⟨hnow', hquiet, hleft, hkept, hentries⟩ := h
  rw [hnow, hdisk] at hkept
  rw [hnow] at hnow' hentries
  exact ⟨hnow', hquiet, hleft, hkept, hentries⟩

/-- One run, and then others. -/
theorem cons (h : Reindexed full m root job [r] w w₁) (h' : Reindexed full m root job done w₁ w') :
    Reindexed full m root job (r :: done) w w' := by
  obtain ⟨hnow, hquiet, hleft, hkept, hentries⟩ := h'
  rw [h.now] at hnow hkept hentries
  refine ⟨hnow, hquiet, hleft, fun loc hloc => hkept loc (h.kept loc hloc), ?_⟩
  intro s hs desc names hparsed hnames
  rcases List.mem_cons.mp hs with rfl | hs
  · exact hkept _ (h.entries s (by simp) desc names hparsed hnames)
  · exact hentries s hs desc names hparsed hnames

end Reindexed

/-- Writing the entry of a run again restores it. -/
theorem writeIndex_restores {desc : Descriptor} (hfull : full.Caches m root job runs now)
    (hr : r ∈ runs) (hparsed : r.parsed? m = some desc) (h : full.PartlyIndexed root job w.disk)
    (hquiet : w.IsQuiet) :
    ∃ w', writeIndex root job desc w = (.ok (indexPlace? root job desc), w') ∧
      Reindexed full m root job [r] w w' := by
  have hone : ∀ disk, (∀ names, Run.indexNames? job desc = some names →
      full.RestoredAt w.now disk (full.place root ++ names)) →
      ∀ s ∈ [r], ∀ other names, s.parsed? m = some other →
        Run.indexNames? job other = some names →
        full.RestoredAt w.now disk (full.place root ++ names) := by
    intro disk hall s hs other names hother
    rw [List.mem_singleton.mp hs, hparsed] at hother
    rw [← Option.some.inj hother]
    exact hall names
  have hplace := Run.indexPlace_eq hfull.isName root desc
  unfold writeIndex
  cases hnames : Run.indexNames? job desc with
  | none =>
    -- A run without an entry has none to restore.
    rw [hnames, Option.map_none] at hplace
    rw [hplace]
    refine ⟨w, rfl, rfl, hquiet, h, fun _ hloc => hloc, hone w.disk fun names hsome => ?_⟩
    rw [hnames] at hsome
    cases hsome
  | some names =>
    rw [hnames, Option.map_some] at hplace
    have hget := hfull.get_entry hr hparsed hnames
    have hindex := prefix_of_indexNames hfull.isName hnames
    obtain ⟨disk, hwrite⟩ := h.writeAll_entry hfull hindex hget w.now
    have hwrote := writeAll_written h.stands.tree hwrite
    obtain ⟨hleft, hthere, hkept⟩ := h.wrote_entry hfull hindex hget hwrote
    have hworld : w.writeAll [(names.foldl Path.join root, desc.render)] =
        (.ok (), { w with disk }) := by
      have hwrite : RunCache.writeAll w.disk w.now [(names.foldl Path.join root, desc.render)] =
          (.ok (), disk) := hwrite
      rw [World.writeAll, hwrite]
    rw [hplace]
    simp only [hworld]
    refine ⟨_, rfl, rfl, hquiet, hleft, hkept, hone disk fun names' hsome => ?_⟩
    rwa [← Option.some.inj (hnames.symm.trans hsome)]

/-- Rebuilding the entry of a run finds its descriptor in the cache and restores the entry. -/
theorem indexRun_restores (hfull : full.Caches m root job runs now) (hr : r ∈ runs)
    (h : full.PartlyIndexed root job w.disk) (hquiet : w.IsQuiet) :
    ∃ entry w', indexRun root job r.id w = (.ok entry, w') ∧ entry.isSome = r.isIndexed m ∧
      Reindexed full m root job [r] w w' := by
  have hdesc := hfull.described r hr
  obtain ⟨desc, hparsed⟩ := hdesc.parses
  obtain ⟨opened, hopen, horigin, hpath⟩ := h.openCache_ok hfull hr
  -- Reading leaves the disk alone, and finds what the pass has parsed.
  obtain ⟨w₁, hread, hdisk, hnow, hquiet₁⟩ := Run.descriptor_cached noStore horigin hpath
    (hdesc.inside.stays _ hdesc.descriptor_mem) (h.readFile_descriptor hfull hr)
    (hdesc.parse hparsed) hquiet
  obtain ⟨w', hwrite, hdone⟩ := writeIndex_restores hfull hr hparsed (hdisk ▸ h) hquiet₁
  refine ⟨indexPlace? root job desc, w', ?_, ?_, ?_⟩
  · unfold indexRun
    simp only [hopen, hread, hwrite]
  · rw [Run.isSome_indexPlace, Run.isIndexed, hparsed, hdesc.ofJob]
    rfl
  · exact hdone.of_same hdisk hnow

/-! ## All runs -/

/-- Rebuilding the entries of some runs in turn restores them, and counts those that have one. -/
theorem indexRuns_restores (hfull : full.Caches m root job runs now) {rs : List Run} (hrs : rs ⊆ runs)
    (h : full.PartlyIndexed root job w.disk) (hquiet : w.IsQuiet) (n : Nat) :
    ∃ w', indexRuns root job (rs.map (·.id)) n w =
        (.ok (n + (rs.filter (Run.isIndexed m)).length), w') ∧
      Reindexed full m root job rs w w' := by
  induction rs generalizing w n with
  | nil => exact ⟨w, rfl, rfl, hquiet, h, fun _ hloc => hloc, by simp⟩
  | cons r rs ih =>
    -- What the first run restores, the others keep.
    have hnoted : full.PartlyIndexed root job (w.note (.indexRun r.id)).disk := h
    obtain ⟨entry, w₁, hrun, hindexed, hdone⟩ :=
      indexRun_restores hfull (hrs List.mem_cons_self) hnoted hquiet
    obtain ⟨w', hruns, hrest⟩ := ih (fun s hs => hrs (List.mem_cons_of_mem r hs)) hdone.left
      hdone.quiet (n + entry.toList.length)
    have hfirst : Reindexed full m root job [r] w w₁ := hdone.of_same rfl rfl
    refine ⟨w', ?_, hfirst.cons hrest⟩
    have hcount : entry.toList.length + (rs.filter (Run.isIndexed m)).length =
        ((r :: rs).filter (Run.isIndexed m)).length := by
      rw [List.filter_cons, ← hindexed]
      cases entry <;> simp [Nat.add_comm]
    rw [List.map_cons, indexRuns_cons, if_neg (by simp [hquiet.1]), hrun]
    simp only
    rw [hruns, Nat.add_assoc, hcount]

/-- Where the entries of all runs are there again, the cache is. -/
theorem Disk.PartlyIndexed.rewritten {later : Int} (h : full.PartlyIndexed root job d)
    (hfull : full.Caches m root job runs now)
    (hall : ∀ r ∈ runs, ∀ desc names, r.parsed? m = some desc →
      Run.indexNames? job desc = some names →
      full.RestoredAt later d (full.place root ++ names)) :
    full.Rewritten (full.indexOf root job) later d := by
  -- Every file of the index is the entry of a run.
  have hfiles : ∀ names bytes time, [CachePath.indexRoot, job] <+: names →
      full.get? (full.place root ++ names) = some (.file bytes time) →
      full.RestoredAt later d (full.place root ++ names) := by
    rintro names bytes time ⟨more, rfl⟩ hget
    obtain ⟨r, hr, desc, hparsed, hnames⟩ := hfull.exists_entry hget
    exact hall r hr desc _ hparsed hnames
  refine h.part.rewritten fun loc e hpre hget => ?_
  obtain ⟨more, rfl⟩ := hpre
  have happ : full.indexOf root job ++ more =
      full.place root ++ ([CachePath.indexRoot, job] ++ more) := List.append_assoc _ _ _
  rw [happ] at hget ⊢
  cases hlast : lastAt? (runs.flatMap (Run.keeps m)) ([CachePath.indexRoot, job] ++ more) with
  | some bytes =>
    have hfile := hfull.filled.file _ _ hlast
    have hrestored := hfiles _ _ _ (List.prefix_append _ _) hfile
    rw [Disk.RestoredAt, hget] at hrestored
    exact hrestored
  | none =>
    -- What is no file is a directory above one, which is there with the file.
    obtain ⟨rfl, f, hf, hpre⟩ := hfull.filled.other _ e (by simp) hlast hget
    obtain ⟨bytes, hfile⟩ : ∃ bytes,
        full.get? (full.place root ++ f.1) = some (.file bytes now) := by
      obtain ⟨r, hr, hkept⟩ := List.mem_flatMap.mp hf
      obtain ⟨_, _, bytes, hlast', _⟩ := Disk.Caches.lastAt_of_mem hr hkept
      exact ⟨bytes, hfull.filled.file _ _ hlast'⟩
    have hrestored := hfiles _ _ _ ((List.prefix_append _ _).trans hpre) hfile
    rw [Disk.RestoredAt, hfile, ← h.place_eq] at hrestored
    have hne : [CachePath.indexRoot, job] ++ more ≠ f.1 := by
      intro heq
      rw [heq, hfile] at hget
      cases hget
    obtain ⟨closed, hdir⟩ := (h.stands.tree.below _).dir_above hrestored hpre hne
    rw [h.place_eq] at hdir
    obtain ⟨e', _, hfull', he⟩ := h.part.held _ _ hdir
    obtain rfl := Option.some.inj (hfull'.symm.trans hget)
    rw [hdir, he]
    rfl

/-- Rebuilding the index of a job succeeds with a count and leaves a disk of some kind: as the
    program does it, with the cached runs in the order in which they are found, and with the same
    runs in any other order. -/
structure Rebuilds (root : Path) (job : String) (count : Nat) (w : World) (left : Disk → Prop) :
    Prop where
  asFound : ∃ w', reindex root job w = (.ok count, w') ∧ left w'.disk
  reordered : ∃ ids, cachedIds w.disk root job = .ok ids ∧ ∀ others : List String,
    others.Perm ids → ∃ w', indexRuns root job others 0 w = (.ok count, w') ∧ left w'.disk

namespace Rebuilds

variable {count : Nat} {left left' : Disk → Prop}

/-- The order in which the runs are found is one of all orders. -/
theorem of_orders {ids : List String} (hids : cachedIds w.disk root job = .ok ids)
    (h : ∀ others : List String, others.Perm ids →
      ∃ w', indexRuns root job others 0 w = (.ok count, w') ∧ left w'.disk) :
    Rebuilds root job count w left := by
  refine ⟨?_, ids, hids, h⟩
  unfold reindex
  rw [hids]
  exact h ids (.refl ids)

theorem mono (h : Rebuilds root job count w left) (himp : ∀ d, left d → left' d) :
    Rebuilds root job count w left' := by
  obtain ⟨⟨w', hrun, hleft⟩, ids, hids, hall⟩ := h
  refine ⟨⟨w', hrun, himp _ hleft⟩, ids, hids, fun others hperm => ?_⟩
  obtain ⟨w', hrun, hleft⟩ := hall others hperm
  exact ⟨w', hrun, himp _ hleft⟩

end Rebuilds

/-- Rebuilding the index of a cache restores it. -/
theorem Disk.PartlyIndexed.rebuilds (h : full.PartlyIndexed root job w.disk)
    (hfull : full.Caches m root job runs now) (hquiet : w.IsQuiet) :
    Rebuilds root job (runs.filter (Run.isIndexed m)).length w fun d =>
      full.PartlyIndexed root job d ∧ full.Rewritten (full.indexOf root job) w.now d := by
  obtain ⟨ids, hids, hperm⟩ := h.cachedIds_perm hfull
  apply Rebuilds.of_orders hids
  intro others hothers
  -- The ids are those of the runs in some order.
  obtain ⟨rs, rfl, hrs⟩ : ∃ rs : List Run, others = rs.map (·.id) ∧ rs.Perm runs := by
    have hcomp := List.eq_map_comp_perm (fun r : Run => r.id)
    have hall := congrFun (congrFun hcomp others) runs
    exact hall.mpr (hothers.trans hperm)
  obtain ⟨w', hruns, hdone⟩ := indexRuns_restores hfull hrs.subset h hquiet 0
  refine ⟨w', ?_, hdone.left, ?_⟩
  · rw [hruns, Nat.zero_add, (hrs.filter _).length_eq]
  · exact hdone.left.rewritten hfull fun r hr => hdone.entries r (hrs.symm.subset hr)

/-! ## The cache of a pass -/

variable {store : Store} {o : PassOptions} {w' v : World}

/-- A run that a pass has found is described where a cached run is looked for, if its descriptor lies
    there. -/
theorem Run.isDescribed_of_groups {options : ScanOptions} {xs : List Listed}
    (h : GroupsInto options now job xs runs) (hr : r ∈ runs) (hinside : r.IsInside)
    (hparsed : ∃ desc, r.parsed? m = some desc)
    (hdesc : r.descriptorPath = some (ofDescriptor job r.id)) : r.IsDescribed m job := by
  have hjob : r.job = job := by
    rw [h.records r hr]
    rfl
  refine ⟨hjob, hinside, ?_, hdesc, hparsed⟩
  -- The id is a segment of the name of the descriptor, which stays inside the cache.
  have hmem : ofDescriptor job r.id ∈ r.paths := by simp [Run.paths, hdesc]
  have hkind : ObjectKind.ofName (ofDescriptor job r.id) = .descriptor r.id := by
    have hrecord := hdesc
    rw [h.records r hr] at hrecord
    exact (ScanOptions.record_kinds options now job xs r.id).1 _ hrecord
  obtain ⟨hne, init, hsegs⟩ := ObjectKind.ofName_eq_descriptor hkind
  refine IsName.of_mem_steps (hinside.stays _ hmem) (List.mem_filter.mpr ⟨?_, by simpa using hne⟩)
  rw [hsegs]
  simp

/-- What a pass leaves in an empty directory is a cache of the runs that it has found, if they are
    described and no two of them have one entry in the by-name index. -/
theorem caches_of_pass {s : Summary} {options : ScanOptions} (hstore : store.Serves m)
    (hjob : IsName o.job) (hd : w.disk.IsTree) (hempty : w.disk.IsEmptyDir o.workingDir)
    (hoptions : o.scanOptions w.disk = .ok options)
    (hscan : (scan store options o.job w).1 = .ok runs) (hpass : runPass store o w = (.ok s, w'))
    (hdesc : ∀ r ∈ runs, r.descriptorPath = some (ofDescriptor o.job r.id))
    (hentries : ∀ r ∈ runs, ∀ t ∈ runs, ∀ desc other, r.parsed? m = some desc →
      t.parsed? m = some other → r.isIndexed m = true → t.isIndexed m = true →
      desc.analysisLabel = other.analysisLabel → desc.name = other.name → r.id = t.id) :
    s.indexed = (runs.filter (Run.isIndexed m)).length ∧
      Wrote (targets o.workingDir (runs.flatMap (Run.keeps m))) w.now w.disk w'.disk ∧
      w'.disk.Caches m o.workingDir o.job runs w.now := by
  obtain ⟨options', runs', w₁, hoptions', hscan', hgroups, hruns, hs, hwrote⟩ :=
    pass_wrote hstore hjob hd hpass
  obtain rfl := Except.ok.inj (hoptions.symm.trans hoptions')
  rw [hscan'] at hscan
  obtain rfl : runs' = runs := Except.ok.inj hscan
  obtain ⟨hfits, hfilled⟩ := hempty.filled hd (fun r hr => (hruns r hr).2.2.1) hwrote
  have hdescribed : ∀ r ∈ runs', r.IsDescribed m o.job := fun r hr =>
    Run.isDescribed_of_groups hgroups hr (hruns r hr).2.2.1 (hruns r hr).2.2.2 (hdesc r hr)
  refine ⟨congrArg Summary.indexed hs, hwrote, hjob, hfilled, hfits, hdescribed, ?_, ?_⟩
  · rw [List.Nodup, List.pairwise_map]
    refine hgroups.inOrder.imp fun {r t} hlt hid => ?_
    rw [hid] at hlt
    omega
  · -- One entry means one label and one name.
    intro r hr t ht desc other names hparsed hparsed' hnames hnames'
    have hindexed : ∀ q desc, q ∈ runs' → q.parsed? m = some desc →
        Run.indexNames? o.job desc = some names → q.isIndexed m = true := by
      intro q desc hq hparsed hnames
      rw [Run.isIndexed, hparsed, Option.any_some, (hruns q hq).1, hnames]
      rfl
    obtain ⟨label, hlabel, _, _, rfl⟩ := Run.indexNames_eq_some hnames
    obtain ⟨label', hlabel', _, _, hsame⟩ := Run.indexNames_eq_some hnames'
    have htail := List.append_cancel_left (List.cons.inj hsame).2
    simp only [List.cons.injEq, and_true] at htail
    exact hentries r hr t ht desc other hparsed hparsed' (hindexed r desc hr hparsed hnames)
      (hindexed t other ht hparsed' hnames') (by rw [hlabel, hlabel', htail.1]) htail.2

/-- **Rebuilding the index reproduces it.**  A pass that succeeds in an empty directory has cached
    runs, each with its descriptor where that of a cached run is looked for, and no two with one
    label and one name.  Whatever is then erased at and below the by-name index of the job:
    rebuilding the index succeeds and counts as many entries as the pass, and the disk is what the
    pass has left, but that the files of the index have been written anew.  Rebuilding it once more
    changes nothing else either.  Both times this holds in whatever order the cached runs are
    taken. -/
theorem reindex_restores {s : Summary} {options : ScanOptions} {gone : List Location}
    (hstore : store.Serves m) (hjob : IsName o.job)
    (hd : w.disk.IsTree) (hempty : w.disk.IsEmptyDir o.workingDir)
    (hoptions : o.scanOptions w.disk = .ok options)
    (hscan : (scan store options o.job w).1 = .ok runs) (hpass : runPass store o w = (.ok s, w'))
    (hdesc : ∀ r ∈ runs, r.descriptorPath = some (ofDescriptor o.job r.id))
    (hentries : ∀ r ∈ runs, ∀ t ∈ runs, ∀ desc other, r.parsed? m = some desc →
      t.parsed? m = some other → r.isIndexed m = true → t.isIndexed m = true →
      desc.analysisLabel = other.analysisLabel → desc.name = other.name → r.id = t.id)
    (hgone : ∀ loc ∈ gone, w'.disk.indexOf o.workingDir o.job <+: loc)
    (hlost : v.disk = gone.foldl Disk.erase w'.disk) (hquiet : v.IsQuiet) :
    Rebuilds o.workingDir o.job s.indexed v fun d =>
      w'.disk.Rewritten (w'.disk.indexOf o.workingDir o.job) v.now d ∧
        ∀ u : World, u.disk = d → u.IsQuiet →
          Rebuilds o.workingDir o.job s.indexed u
            (d.Rewritten (w'.disk.indexOf o.workingDir o.job) u.now) := by
  obtain ⟨hs, hwrote, hfull⟩ :=
    caches_of_pass hstore hjob hd hempty hoptions hscan hpass hdesc hentries
  -- Nothing was at the place of the index before the pass.
  have hnone : ∀ loc, w'.disk.indexOf o.workingDir o.job <+: loc → w.disk.get? loc = none := by
    rintro loc ⟨more, rfl⟩
    rw [Disk.indexOf, Disk.place_congr hwrote.grows.home, List.append_assoc]
    exact hempty.empty _ (by simp)
  have hhome : ¬ w'.disk.indexOf o.workingDir o.job <+: w'.disk.home := by
    intro hpre
    obtain ⟨closed, hthere⟩ := hd.home
    rw [hwrote.grows.home] at hpre
    rw [hnone _ hpre] at hthere
    cases hthere
  have hpart : w'.disk.PartOf (w'.disk.indexOf o.workingDir o.job) v.disk := by
    rw [hlost]
    exact (Disk.PartOf.refl hwrote.tree _).foldl_erase hgone hhome
  have hstands : w.disk.Stands o.workingDir := ⟨hd, hempty.isDir⟩
  have hleft : w'.disk.PartlyIndexed o.workingDir o.job v.disk :=
    ⟨hpart, hstands.grows hpart.tree (hpart.grows hwrote.grows hnone)⟩
  rw [hs]
  apply (hleft.rebuilds hfull hquiet).mono
  rintro d ⟨hleft', hrewritten⟩
  refine ⟨hrewritten, fun u hu hquiet' => ?_⟩
  subst hu
  apply (hleft'.rebuilds hfull hquiet').mono
  rintro d ⟨_, hrewritten'⟩
  exact hrewritten.again hrewritten'

/-! ### Two runs, indexed again -/

namespace TwoEntries

/-- A bucket with two runs that have one label and different names. -/
def bucket : Memory where
  objects :=
    [("logs/job/1/prowjob.json", ⟨("\x7b\"metadata\":\x7b\"name\":\"nightly\"," ++
        "\"labels\":\x7b\"release.openshift.io/analysis\":\"4.9\"\x7d\x7d\x7d").toUTF8, 0⟩),
     ("logs/job/2/prowjob.json", ⟨("\x7b\"metadata\":\x7b\"name\":\"weekly\"," ++
        "\"labels\":\x7b\"release.openshift.io/analysis\":\"4.9\"\x7d\x7d\x7d").toUTF8, 0⟩)]

/-- The runs, and what they are called. -/
def names : List (String × String) := [("1", "nightly"), ("2", "weekly")]

/-- The world that the pass leaves. -/
def left : World := (runPass bucket.store OneRun.pass OneRun.start).2

/-- A later world, in which the index of the job is lost. -/
def lost : World := { disk := [["a", "by-name", "job"]].foldl Disk.erase left.disk, now := 1 }

/-- The pass succeeds and has written two entries. -/
theorem pass_ok : runPass bucket.store OneRun.pass OneRun.start = (.ok ⟨2, 2, 2⟩, left) := by
  have hok : (runPass bucket.store OneRun.pass OneRun.start).1.toOption = some ⟨2, 2, 2⟩ := by
    decide +kernel
  unfold left
  generalize runPass bucket.store OneRun.pass OneRun.start = first at hok ⊢
  obtain ⟨result, w⟩ := first
  cases result with
  | error e => cases hok
  | ok s => rw [Option.some.inj hok]

/-- Where the index lies. -/
theorem left_indexOf : left.disk.indexOf OneRun.pass.workingDir OneRun.pass.job =
    ["a", "by-name", "job"] := by
  have hrooted : OneRun.pass.workingDir.IsRooted := ⟨by decide, by decide⟩
  rw [Disk.indexOf, Disk.place_of_isRooted hrooted]
  decide

/-- The scan finds the runs. -/
theorem scan_ok : ∃ runs, (scan bucket.store {} "job" OneRun.start).1 = .ok runs ∧
    ∀ r ∈ runs, r.descriptorPath = some (ofDescriptor "job" r.id) ∧
      ∀ desc ∈ r.parsed? bucket, (r.id, desc.name) ∈ names := by
  have hok : (scan bucket.store {} "job" OneRun.start).1.isOk = true := by decide +kernel
  have hruns : ∀ r ∈ scannedRuns (scan bucket.store {} "job" OneRun.start).1,
      r.descriptorPath = some (ofDescriptor "job" r.id) ∧
        ∀ desc ∈ r.parsed? bucket, (r.id, desc.name) ∈ names := by decide +kernel
  cases hscan : (scan bucket.store {} "job" OneRun.start).1 with
  | error e =>
    rw [hscan] at hok
    cases hok
  | ok runs =>
    rw [hscan] at hruns
    exact ⟨runs, rfl, hruns⟩

end TwoEntries

/-- The index of two runs is lost, and rebuilt, also with the newer run first. -/
theorem reindex_restores_two_runs :
    (∃ v', reindex ⟨"/a"⟩ "job" TwoEntries.lost = (.ok 2, v') ∧
      TwoEntries.left.disk.Rewritten ["a", "by-name", "job"] 1 v'.disk) ∧
    ∃ ids v', cachedIds TwoEntries.lost.disk ⟨"/a"⟩ "job" = .ok ids ∧
      indexRuns ⟨"/a"⟩ "job" ids.reverse 0 TwoEntries.lost = (.ok 2, v') ∧
      TwoEntries.left.disk.Rewritten ["a", "by-name", "job"] 1 v'.disk := by
  obtain ⟨runs, hscan, hruns⟩ := TwoEntries.scan_ok
  have hjob : IsName OneRun.pass.job := by decide
  have hgone : ∀ loc ∈ [["a", "by-name", "job"]],
      TwoEntries.left.disk.indexOf OneRun.pass.workingDir OneRun.pass.job <+: loc := by
    simp [TwoEntries.left_indexOf]
  have hlost : TwoEntries.lost.disk =
      [["a", "by-name", "job"]].foldl Disk.erase TwoEntries.left.disk := by rw [TwoEntries.lost]
  have hquiet : TwoEntries.lost.IsQuiet := ⟨rfl, rfl⟩
  have hnodup : (TwoEntries.names.map (·.2)).Nodup := by decide
  have hentries : ∀ r ∈ runs, ∀ t ∈ runs, ∀ desc other, r.parsed? TwoEntries.bucket = some desc →
      t.parsed? TwoEntries.bucket = some other → r.isIndexed TwoEntries.bucket = true →
      t.isIndexed TwoEntries.bucket = true → desc.analysisLabel = other.analysisLabel →
      desc.name = other.name → r.id = t.id := by
    intro r hr t ht desc other hparsed hparsed' _ _ _ hname
    have hsame := List.inj_on_of_nodup_map hnodup ((hruns r hr).2 desc hparsed)
      ((hruns t ht).2 other hparsed') hname
    exact (Prod.mk.inj hsame).1
  obtain ⟨⟨v', hrun, hrewritten, _⟩, ids, hids, hall⟩ :=
    reindex_restores TwoEntries.bucket.store_serves hjob OneRun.start_isTree OneRun.start_isEmptyDir
      rfl hscan TwoEntries.pass_ok (fun r hr => (hruns r hr).1) hentries hgone hlost hquiet
  obtain ⟨v₂, hrun₂, hrewritten₂, _⟩ := hall ids.reverse ids.reverse_perm
  rw [TwoEntries.left_indexOf] at hrewritten hrewritten₂
  exact ⟨⟨v', hrun, hrewritten⟩, ids, v₂, hids, hrun₂, hrewritten₂⟩

end RunCache
