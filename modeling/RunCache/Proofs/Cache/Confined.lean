import RunCache.Proofs.Cache.CleanUp

/-! # Writing stays inside the cache

    Every name reaches the disk below the cache: objects by their segments,
    entries of the by-name index by way of the job, the label and the name
    of the descriptor.  So writing changes nothing outside but that it makes
    missing directories on the way.

    * **`Disk.ChangesOnly`**: trees that differ only in given areas, but for
      directories made on the way there.
    * **`Path.LiesIn`**: paths that lead to places inside given areas.
    * **`writeAll_changesOnly`**: files that lie in these areas.
    * **`Run.files_confined`**, **`CachePath.ofIndexEntry_confined`**: the
      files of a run and of the by-name index lie below the cache.
    * **`writing_confined`**: writing runs and entries of the index.
    * **`writing_leads_out`**: names for which it does not hold. -/

namespace RunCache

open ObjectName (steps)

/-! ## Areas -/

/-- A tree in which nothing has changed outside some areas, each a location with all that is below
    it, but that missing directories on the way to them have been made. -/
def Disk.ChangesOnly (areas : List Location) (d d' : Disk) : Prop :=
  ∀ loc, (∀ a ∈ areas, ¬ a <+: loc) →
    d'.get? loc = d.get? loc ∨
      ((∃ a ∈ areas, loc <+: a) ∧ d.get? loc = none ∧ d'.get? loc = some (.dir false))

/-- What lies above a place in an area is on the way to the area or inside it. -/
theorem way_of_above {a loc names : Location} (ha : a <+: names) (hloc : loc <+: names)
    (hout : ¬ a <+: loc) : loc <+: a :=
  (List.prefix_or_prefix_of_prefix hloc ha).resolve_right hout

namespace Disk.ChangesOnly

variable {areas areas' : List Location} {d d' d'' : Disk}

theorem refl (areas : List Location) (d : Disk) : ChangesOnly areas d d :=
  fun _ _ => .inl rfl

theorem trans (h : ChangesOnly areas d d') (h' : ChangesOnly areas d' d'') :
    ChangesOnly areas d d'' := by
  intro loc hout
  rcases h' loc hout with hsame' | ⟨hway, hnone', hdir'⟩
  · rw [hsame']
    exact h loc hout
  · -- A directory that is made later was missing before, too.
    rcases h loc hout with hsame | ⟨_, _, hdir⟩
    · exact .inr ⟨hway, hsame ▸ hnone', hdir'⟩
    · rw [hnone'] at hdir
      cases hdir

/-- Areas that lie in others may be exchanged for these. -/
theorem widen (h : ChangesOnly areas d d') (hin : ∀ a ∈ areas, ∃ b ∈ areas', b <+: a) :
    ChangesOnly areas' d d' := by
  intro loc hout
  have hout' : ∀ a ∈ areas, ¬ a <+: loc := by
    intro a ha hpre
    obtain ⟨b, hb, hba⟩ := hin a ha
    exact hout b hb (hba.trans hpre)
  rcases h loc hout' with hsame | ⟨⟨a, ha, hway⟩, hmade⟩
  · exact .inl hsame
  · obtain ⟨b, hb, hba⟩ := hin a ha
    exact .inr ⟨⟨b, hb, way_of_above hba hway (hout b hb)⟩, hmade⟩

end Disk.ChangesOnly

/-- A path that ends with a name and leads to a place inside some areas, which is not the place of
    an area itself. -/
structure Path.LiesIn (areas : List Location) (p : Path) : Prop where
  rooted : p.IsRooted
  trimmed : p.IsTrimmed
  inside : ∃ a ∈ areas, ∃ init s, p.names = init ++ [s] ∧ a <+: init

theorem Path.LiesIn.below {areas : List Location} {p : Path} (h : p.LiesIn areas) :
    ∃ a ∈ areas, a <+: p.names := by
  obtain ⟨a, ha, init, s, hnames, hpre⟩ := h.inside
  refine ⟨a, ha, ?_⟩
  rw [hnames]
  exact hpre.trans (List.prefix_append init [s])

/-- Names followed from a path lead into an area that is one of the places on the way. -/
theorem Path.IsRooted.liesIn {areas : List Location} {root : Path} (hroot : root.IsRooted)
    (segs more : List String) (t : String) (hnames : ∀ s ∈ segs ++ more ++ [t], IsName s)
    (harea : root.names ++ segs ∈ areas) :
    ((segs ++ more ++ [t]).foldl Path.join root).LiesIn areas := by
  refine ⟨hroot.foldl_join hnames, isTrimmed_foldl_join hnames (by simp), _, harea,
    root.names ++ segs ++ more, t, ?_, ?_⟩
  · rw [names_foldl_join hnames]
    simp
  · exact List.prefix_append _ _

/-! ## Files in areas -/

section Files

variable {areas : List Location} {d d' : Disk} {now : Int} {files : List (Path × ByteArray)}

/-- While files in some areas are written, only directories are made outside. -/
theorem Writing.Tracks.changesOnly {x : Writing} (h : x.Tracks d files)
    (hrooted : ∀ f ∈ files, f.1.IsRooted) (hin : ∀ f ∈ files, ∃ a ∈ areas, a <+: f.1.names) :
    Disk.ChangesOnly areas d x.disk := by
  intro loc hout
  -- No file lies outside the areas.
  have hnofile : ¬ Writing.filePlaces d files loc := by
    rintro ⟨f, hf, rfl⟩
    rw [Disk.place_of_isRooted (hrooted f hf)] at hout
    obtain ⟨a, ha, hpre⟩ := hin f hf
    exact hout a ha hpre
  cases hget : d.get? loc with
  | some e =>
    apply Or.inl
    exact h.grows.kept hget hnofile
  | none =>
    rcases h.grows.new hget with hnone | ⟨⟨f, hf, dir, hdir, q, hq, rfl⟩, hmade⟩ | ⟨hfile, _⟩
    · exact .inl hnone
    · -- The directory stands above a file, so it is on the way.
      obtain ⟨hdir', _, hpre⟩ := (hrooted f hf).of_parent hdir
      have hqnames : q.names <+: f.1.names := (Path.mem_ancestorsWithin hq).2.1.trans hpre
      rw [Disk.place_of_isRooted (hdir'.of_mem_ancestors hq)] at hout hmade ⊢
      obtain ⟨a, ha, hpre⟩ := hin f hf
      exact .inr ⟨⟨a, ha, way_of_above hpre hqnames (hout a ha)⟩, rfl, hmade⟩
    · exact absurd hfile hnofile

/-- Cleaning up leaves everything outside the areas as it was before. -/
theorem Writing.undone_outside {x : Writing} {loc : Location} (hd : d.IsTree)
    (htracks : x.Tracks d files) (hcovers : x.Covers d)
    (hchanges : Disk.ChangesOnly areas d x.disk) (hout : ∀ a ∈ areas, ¬ a <+: loc) :
    x.undone.get? loc = d.get? loc := by
  obtain ⟨_, hgone⟩ := undone_eq hd htracks hcovers
  by_cases hmade : ∃ p ∈ x.made, p.names <+: loc
  · -- What is noted was missing, and all below it.
    obtain ⟨p, hp, hpre⟩ := hmade
    rw [(hgone loc).1 ⟨p, hp, hpre⟩, hd.none_below (hcovers.noted p hp).2.2.2 hpre]
  · rw [(hgone loc).2 fun p hp hpre => hmade ⟨p, hp, hpre⟩]
    rcases hchanges loc hout with hsame | ⟨_, hnone, hdir⟩
    · exact hsame
    · obtain ⟨p, hp, hpre⟩ := hcovers.covered loc _ hdir hnone
      exact absurd ⟨p, hp, hpre⟩ hmade

/-- Files that lie in some areas are written there, and what is made outside for them is missing
    directories on the way. Where not all of them can be written, these are removed again. -/
theorem writeAll_changesOnly {result : Except Error Unit} (hd : d.IsTree)
    (hrooted : ∀ f ∈ files, f.1.IsRooted) (hin : ∀ f ∈ files, ∃ a ∈ areas, a <+: f.1.names)
    (h : writeAll d now files = (result, d')) :
    d'.IsTree ∧ Disk.ChangesOnly areas d d' := by
  have htracks := Writing.files_tracks hd now files
  have hcovers := Writing.files_covers hd now hrooted
  unfold writeAll at h
  split at h
  · next x hfiles =>
    rw [hfiles] at htracks
    obtain ⟨_, rfl⟩ := Prod.mk.inj h
    exact ⟨htracks.tree, htracks.changesOnly hrooted hin⟩
  · next e x hfiles =>
    rw [hfiles] at htracks hcovers
    obtain ⟨_, rfl⟩ := Prod.mk.inj h
    have hchanges := htracks.changesOnly hrooted hin
    refine ⟨(Writing.undone_eq hd htracks hcovers).1, ?_⟩
    intro loc hout
    exact .inl (Writing.undone_outside hd htracks hcovers hchanges hout)

end Files

/-! ## Names below the cache -/

/-- A job whose name goes neither up nor to the root. -/
def GoesDown (job : String) : Prop := job.toList.head? ≠ some '/' ∧ ".." ∉ Text.segments job

instance : DecidablePred GoesDown := fun _ => instDecidableAnd

section Names

variable {root : Path} {job label name : String} {d : Descriptor}

/-- An entry of the by-name index lies below the directory of the index. -/
theorem CachePath.ofIndexEntry_confined (hroot : root.IsRooted) (hjob : GoesDown job)
    (hlabel : isOneDirectory label = true) (hname : isOneDirectory name = true) :
    (ofIndexEntry root job label name).IsRooted ∧
      root.names ++ [indexRoot] <+: (ofIndexEntry root job label name).names := by
  have hlabel' := isName_of_isOneDirectory hlabel
  have hname' := isName_of_isOneDirectory hname
  have hnames : (ofIndexEntry root job label name).names =
      root.names ++ [indexRoot] ++
        ((Text.segments job).filter (!Path.isIdle ·) ++ [label, name, copyFile]) := by
    rw [ofIndexEntry, Path.names_join isName_copyFile, Path.names_join hname',
      Path.names_join hlabel', Path.names_join_of_head hjob.1, Path.names_join isName_indexRoot]
    simp
  refine ⟨⟨?_, ?_⟩, ?_⟩
  · rw [ofIndexEntry, Path.isAbsolute_join isName_copyFile.2.2.2,
      Path.isAbsolute_join hname'.2.2.2, Path.isAbsolute_join hlabel'.2.2.2,
      Path.isAbsolute_join_of_head hjob.1, Path.isAbsolute_join isName_indexRoot.2.2.2]
    exact hroot.absolute
  · -- None of the names before or behind those of the job leads up either.
    rw [hnames]
    intro hup
    simp only [List.mem_append, List.mem_filter, List.mem_cons, List.not_mem_nil, or_false] at hup
    rcases hup with (hup | hup) | ⟨hup, _⟩ | hup | hup | hup
    · exact hroot.noUp hup
    · exact isName_indexRoot.2.2.1 hup.symm
    · exact hjob.2 hup
    · exact hlabel'.2.2.1 hup.symm
    · exact hname'.2.2.1 hup.symm
    · exact isName_copyFile.2.2.1 hup.symm
  · rw [hnames]
    exact List.prefix_append _ _

theorem indexPlace_confined {target : Path} (hroot : root.IsRooted) (hjob : GoesDown job)
    (h : indexPlace? root job d = some target) :
    target.IsRooted ∧ root.names ++ [CachePath.indexRoot] <+: target.names := by
  obtain ⟨label, _, hlabel, hname, rfl⟩ := Run.indexPlace_eq_some_iff.mp h
  exact CachePath.ofIndexEntry_confined hroot hjob hlabel hname

/-- The object of a name that stays inside lies where its segments lead from the cache. -/
theorem CachePath.names_ofObject (hname : ObjectName.staysInside name = true) :
    (ofObject root name).names = root.names ++ steps name := by
  rw [ofObject_eq, Path.names_foldl_join fun _ hs => .of_mem_steps hname hs]

/-- The copy of a descriptor lies beside it. -/
theorem CachePath.names_copy (hroot : root.IsRooted)
    (hname : ObjectName.staysInside name = true) (hsteps : steps name ≠ []) :
    ((ofObject root name).withFileName copyFile).names =
      root.names ++ ((steps name).dropLast ++ [copyFile]) := by
  have hobject := ofObject_isRooted hroot hname
  rw [(hobject.withFileName isName_copyFile).2, names_ofObject hname,
    List.dropLast_append_of_ne_nil hsteps, List.append_assoc]

/-- Every file of a run lies below the cache, if the job goes down and the descriptor has a name of
    its own. -/
theorem Run.files_confined {r : Run} {contents : Fields ByteArray} (hroot : root.IsRooted)
    (hjob : GoesDown r.job) (hdesc : ∀ p ∈ r.descriptorPath, steps p ≠ [])
    (hesc : escaping? contents = none) :
    ∀ f ∈ r.files root d contents, f.1.IsRooted ∧ root.names <+: f.1.names := by
  intro f hf
  cases mem_files_iff.mp hf with
  | @object path bytes h =>
    have hstays := staysInside_of_escaping hesc h
    refine ⟨CachePath.ofObject_isRooted hroot hstays, ?_⟩
    rw [CachePath.names_ofObject hstays]
    exact List.prefix_append _ _
  | @copy path bytes h hpath =>
    have hstays := staysInside_of_escaping hesc h
    have hobject := CachePath.ofObject_isRooted hroot hstays
    refine ⟨(hobject.withFileName CachePath.isName_copyFile).1, ?_⟩
    -- Without a descriptor the name would be empty, and an empty name does not stay inside.
    have hsteps : steps path ≠ [] := by
      cases hp : r.descriptorPath with
      | some p =>
        rw [hpath, hp]
        exact hdesc p hp
      | none =>
        rw [hpath, hp] at hstays
        cases hstays
    rw [CachePath.names_copy hroot hstays hsteps]
    exact List.prefix_append _ _
  | entry hlabel hname =>
    obtain ⟨hrooted, hpre⟩ := CachePath.ofIndexEntry_confined hroot hjob hlabel hname
    exact ⟨hrooted, (List.prefix_append _ _).trans hpre⟩

end Names

/-! ## Writing runs and entries -/

section Runs

variable {store : Store} {root : Path} {areas : List Location} {r r' : Run} {w w' : World}

/-- Writing a run keeps what writing the files keeps that it comes to write. -/
theorem Run.write_keeps {P : Disk → Prop} {result : Except Error Written}
    (h : r.write store root w = (result, r', w')) (hstart : P w.disk)
    (hwrite : ∀ d contents r₁ w₁, r.gather store root w = (.ok (d, contents), r₁, w₁) →
      ∀ written d', writeAll w.disk w₁.now (r₁.files root d contents) = (written, d') → P d') :
    P w'.disk := by
  rcases hgather : r.gather store root w with ⟨gathered, r₁, w₁⟩
  obtain ⟨hdisk, hnow, origin, hrun⟩ := gather_leaves hgather
  cases gathered with
  | error e =>
    -- What could not be read is not written.
    rw [write_eq, hgather] at h
    obtain ⟨_, _, rfl⟩ := by simpa using h
    rwa [hdisk]
  | ok gathered =>
    obtain ⟨d, contents⟩ := gathered
    rcases hall : writeAll w.disk w.now (r.files root d contents) with ⟨written, disk⟩
    rw [write_of_gather hgather hall] at h
    obtain ⟨_, hrest⟩ := Prod.mk.inj h
    obtain ⟨_, rfl⟩ := Prod.mk.inj hrest
    refine hwrite d contents r₁ w₁ hgather written disk ?_
    rw [hnow, hrun]
    exact hall

/-- What a write of a run changes lies in the areas of the files that it comes to write. -/
theorem Run.write_changesOnly {result : Except Error Written} (hd : w.disk.IsTree)
    (hfiles : ∀ d contents r₁ w₁, r.gather store root w = (.ok (d, contents), r₁, w₁) →
      ∀ f ∈ r₁.files root d contents, f.1.IsRooted ∧ ∃ a ∈ areas, a <+: f.1.names)
    (h : r.write store root w = (result, r', w')) :
    w'.disk.IsTree ∧ Disk.ChangesOnly areas w.disk w'.disk := by
  apply write_keeps (P := fun d => d.IsTree ∧ Disk.ChangesOnly areas w.disk d) h
    ⟨hd, .refl areas w.disk⟩
  intro d contents r₁ w₁ hgather written d' hwrite
  have hin := hfiles d contents r₁ w₁ hgather
  exact writeAll_changesOnly hd (fun f hf => (hin f hf).1) (fun f hf => (hin f hf).2) hwrite

/-- Writing an entry of the index keeps what writing its file keeps. -/
theorem writeIndex_keeps {P : Disk → Prop} {job : String} {d : Descriptor}
    {result : Except Error (Option Path)} (h : writeIndex root job d w = (result, w'))
    (hstart : P w.disk)
    (hwrite : ∀ target, indexPlace? root job d = some target →
      ∀ written d', writeAll w.disk w.now [(target, d.render)] = (written, d') → P d') :
    P w'.disk := by
  unfold writeIndex at h
  split at h
  · obtain ⟨_, rfl⟩ := Prod.mk.inj h
    exact hstart
  · next target htarget =>
    have hall : ∃ written, w.writeAll [(target, d.render)] = (written, w') := by
      split at h
      · next e w₁ hfile =>
        obtain ⟨_, rfl⟩ := Prod.mk.inj h
        exact ⟨_, hfile⟩
      · next w₁ hfile =>
        obtain ⟨_, rfl⟩ := Prod.mk.inj h
        exact ⟨_, hfile⟩
    obtain ⟨written, hall⟩ := hall
    exact hwrite target htarget written w'.disk (World.writeAll_cases hall).1

theorem writeIndex_changesOnly {job : String} {d : Descriptor}
    {result : Except Error (Option Path)} (hd : w.disk.IsTree) (hroot : root.IsRooted)
    (hjob : GoesDown job) (h : writeIndex root job d w = (result, w')) :
    w'.disk.IsTree ∧ Disk.ChangesOnly [root.names ++ [CachePath.indexRoot]] w.disk w'.disk := by
  apply writeIndex_keeps
    (P := fun d => d.IsTree ∧ Disk.ChangesOnly [root.names ++ [CachePath.indexRoot]] w.disk d) h
    ⟨hd, .refl _ _⟩
  intro target htarget written d' hwrite
  obtain ⟨hrooted, hbelow⟩ := indexPlace_confined hroot hjob htarget
  exact writeAll_changesOnly hd (by simpa using hrooted) (by simpa using hbelow) hwrite

/-- Writing a run or an entry of the by-name index changes nothing outside the cache but that it
    makes missing directories on the way, whatever is read and however it ends: the job's name must
    not lead up, and the descriptor must have a name of its own. -/
theorem writing_confined (hroot : root.IsRooted) (hd : w.disk.IsTree) :
    (∀ (store : Store) (r : Run) result r' w', GoesDown r.job →
      (∀ p ∈ r.descriptorPath, steps p ≠ []) → r.write store root w = (result, r', w') →
      Disk.ChangesOnly [root.names] w.disk w'.disk) ∧
    ∀ job d result w', GoesDown job → writeIndex root job d w = (result, w') →
      Disk.ChangesOnly [root.names] w.disk w'.disk := by
  constructor
  · intro store r result r' w' hjob hdesc h
    refine (Run.write_changesOnly hd ?_ h).2
    intro d contents r₁ w₁ hgather f hf
    have hreads := Run.gather_reads store root r w
    rw [hgather] at hreads
    have hfile := Run.files_confined hroot (hreads.job ▸ hjob) (hreads.descriptorPath ▸ hdesc)
      (Run.gather_stays hgather) f hf
    exact ⟨hfile.1, root.names, by simp, hfile.2⟩
  · intro job d result w' hjob h
    apply (writeIndex_changesOnly hd hroot hjob h).2.widen
    intro a ha
    obtain rfl := List.mem_singleton.mp ha
    exact ⟨root.names, by simp, List.prefix_append _ _⟩

end Runs

/-- A descriptor that is to be found in the by-name index. -/
def labelled : Descriptor where
  metadata := { name := "run", labels := [(Descriptor.analysisKey, "label")] }

/-- A run is written below an empty cache, and the entry of a descriptor. -/
theorem writing_confined_labelled :
    ∃ written r' w' entry w'',
      Run.write Run.labelledRun.store ⟨"/work"⟩
          { job := "job", id := "1", descriptorPath := some "logs/job/1/prowjob.json" }
          { disk := {} } = (.ok written, r', w') ∧
        Disk.ChangesOnly [["work"]] {} w'.disk ∧
      writeIndex ⟨"/work"⟩ "job" labelled { disk := {} } = (.ok (some entry), w'') ∧
        Disk.ChangesOnly [["work"]] {} w''.disk := by
  generalize hrun : Run.mk "job" "1" (some "logs/job/1/prowjob.json") [] (.bucket []) = r
  generalize hw : ({ disk := {} } : World) = w
  have hdisk : w.disk = {} := by rw [← hw]
  have hroot : Path.IsRooted ⟨"/work"⟩ := ⟨by decide, by decide⟩
  have hnames : Path.names ⟨"/work"⟩ = ["work"] := by decide
  obtain ⟨hwritten, hindexed⟩ := writing_confined hroot (hdisk ▸ Disk.IsTree.empty)
  rw [hnames, hdisk] at hwritten hindexed
  have hok : (r.write Run.labelledRun.store ⟨"/work"⟩ w).1.isOk = true := by
    subst hrun hw
    decide +kernel
  have hentry : ((writeIndex ⟨"/work"⟩ "job" labelled w).1.toOption.bind id).isSome = true := by
    subst hw
    decide +kernel
  rcases hwrite : r.write Run.labelledRun.store ⟨"/work"⟩ w with ⟨result, r', w'⟩
  rcases hindex : writeIndex ⟨"/work"⟩ "job" labelled w with ⟨index, w''⟩
  rw [hwrite] at hok
  rw [hindex] at hentry
  match result, index, hok, hentry with
  | .ok written, .ok (some entry), _, _ =>
    exact ⟨written, r', w', entry, w'', rfl,
      hwritten _ r _ _ _ (by subst hrun; decide) (by subst hrun; decide) hwrite, rfl,
      hindexed "job" labelled _ _ (by decide) hindex⟩

/-- A bucket with an object whose name has no segment. -/
def nameless : Memory where
  objects := [("/", ⟨Run.labelledText.toUTF8, 0⟩)]

/-- Names for which writing leads out of the cache: the job of an entry may go up, and a descriptor
    without a name of its own has its copy beside the cache. -/
theorem writing_leads_out :
    ¬ Disk.ChangesOnly [["work"]] {}
        (writeIndex ⟨"/work"⟩ "../../out" labelled { disk := {} }).2.disk ∧
    ¬ Disk.ChangesOnly [["work"]] {}
        (Run.write nameless.store ⟨"/work"⟩
          { job := "job", id := "1", descriptorPath := some "/" } { disk := {} }).2.2.disk := by
  -- Something new beside the cache is not on the way to it.
  have hleads : ∀ (d : Disk) name, name ≠ "work" → (d.get? [name]).isSome = true →
      ¬ Disk.ChangesOnly [["work"]] {} d := by
    intro d name hname hsome hchanges
    rcases hchanges [name] (by simpa using Ne.symm hname) with hsame | ⟨⟨a, ha, hway⟩, _⟩
    · rw [hsame] at hsome
      cases hsome
    · obtain rfl := List.mem_singleton.mp ha
      exact hname (by simpa using hway)
  constructor
  · apply hleads _ "out" (by decide)
    decide +kernel
  · apply hleads _ CachePath.copyFile (by decide)
    decide +kernel

end RunCache
