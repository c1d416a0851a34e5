import RunCache.Proofs.Cache.Confined

/-! # What the by-name index holds

    An entry of the index for a job with a plain name is a file four names
    below the directory of the index: the job, the label, the name and the
    file.  While nothing else is written there, the index holds files just
    there and open directories above, so nothing in it ever stands in the
    way of a further entry.

    * **`Disk.IndexOnly`**: an index of such entries.
    * **`Path.SparesIndex`**: paths under which writing keeps it one.
    * **`writeAll_indexOnly`**: what a single write keeps, whether all files
      can be written or not.
    * **`Run.write_indexOnly`**, **`writeIndex_indexOnly`**: runs, and
      entries of the index. -/

namespace RunCache

open ObjectName (steps)
open Disk (Grows)

/-- How many names lead from the by-name index to an entry. -/
def CachePath.indexDepth : Nat := 4

/-- A by-name index of entries, if there is any: open directories, and files at the depth of
    entries. -/
def Disk.IndexOnly (root : Path) (d : Disk) : Prop :=
  ∀ rel e, d.get? (d.place root ++ CachePath.indexRoot :: rel) = some e →
    (rel.length < CachePath.indexDepth ∧ e = .dir false) ∨
      (rel.length = CachePath.indexDepth ∧ e.isFile = true)

/-- A path that ends with a name and never leads up, and where it leads into the by-name index, it
    leads to an entry. -/
structure Path.SparesIndex (p root : Path) (d : Disk) : Prop where
  noUp : ".." ∉ p.names
  named : ∃ init last, p.names = init ++ [last]
  depth : ∀ rel, d.place p = d.place root ++ CachePath.indexRoot :: rel →
    rel.length = CachePath.indexDepth

/-- What stands above a path that never leads up is the place of fewer names. -/
theorem Disk.place_of_above {p dir q : Path} (hup : ".." ∉ p.names)
    (hdir : p.parent? = some dir) (hq : q ∈ dir.ancestors) (d : Disk) :
    ∃ l, l <+: p.names.dropLast ∧ d.place q = d.start p ++ l := by
  obtain ⟨habs, hnames⟩ := Path.names_of_parent hdir
  obtain ⟨habs', hpre, _⟩ := Path.mem_ancestorsWithin hq
  rw [hnames] at hpre
  have hup' : ".." ∉ q.names := fun h => hup (List.dropLast_subset _ (hpre.subset h))
  refine ⟨q.names, hpre, ?_⟩
  rw [place_of_noUp hup', start, start, habs', habs]

variable {d d' : Disk} {root : Path} {now : Int} {files : List (Path × ByteArray)}

/-! ## Writing files -/

namespace Disk.IndexOnly

theorem sub (h : d.IndexOnly root) (hhome : d'.home = d.home)
    (hsub : ∀ loc e, d'.get? loc = some e → d.get? loc = some e) : d'.IndexOnly root := by
  intro rel e hget
  rw [place_congr hhome] at hget
  exact h rel e (hsub _ e hget)

/-- Files that spare the index keep it one of entries, with the directories made for them. -/
theorem grows (h : d.IndexOnly root)
    (hg : Grows (Writing.dirPlaces d files) (Writing.filePlaces d files) d d')
    (hfiles : ∀ f ∈ files, f.1.SparesIndex root d) : d'.IndexOnly root := by
  intro rel e hget
  rw [place_congr hg.home] at hget
  have hlater := hg.later (d.place root ++ CachePath.indexRoot :: rel)
  rw [hget] at hlater
  generalize hold : d.get? (d.place root ++ CachePath.indexRoot :: rel) = o at hlater
  cases hlater with
  | same => exact h rel e hold
  | made hdirs =>
    -- A directory is made above a file, which then lies in the index and is an entry.
    obtain ⟨f, hf, dir, hdir, q, hq, hloc⟩ := hdirs
    have hspares := hfiles f hf
    obtain ⟨init, last, hnames⟩ := hspares.named
    obtain ⟨l, ⟨more, hmore⟩, hplace⟩ := place_of_above hspares.noUp hdir hq d
    rw [hnames, List.dropLast_concat] at hmore
    have hentry : d.place f.1 =
        d.place root ++ CachePath.indexRoot :: (rel ++ (more ++ [last])) := by
      rw [place_of_noUp hspares.noUp, hnames, ← hmore, ← List.append_assoc, ← List.append_assoc,
        ← hplace, ← hloc]
      simp
    have hlen := hspares.depth _ hentry
    simp only [List.length_append, List.length_singleton] at hlen
    exact .inl ⟨by omega, rfl⟩
  | wrote hfile =>
    obtain ⟨f, hf, hloc⟩ := hfile
    exact .inr ⟨(hfiles f hf).depth rel hloc.symm, rfl⟩

end Disk.IndexOnly

/-- Taking something away puts nothing in its place. -/
theorem Disk.get_of_get_erase {loc l : Location} {e : Entry}
    (h : (d.erase loc).get? l = some e) : d.get? l = some e := by
  by_cases hnil : l = []
  · rw [hnil] at h ⊢
    exact h
  · rw [get_erase hnil] at h
    split at h
    · cases h
    · exact h

/-- Nor does cleaning up. -/
theorem Writing.undone_sub (x : Writing) : x.undone.home = x.disk.home ∧
    ∀ loc e, x.undone.get? loc = some e → x.disk.get? loc = some e := by
  have hone : ∀ (d : Disk) p, (removed d p).home = d.home ∧
      ∀ loc e, (removed d p).get? loc = some e → d.get? loc = some e := by
    intro d p
    unfold removed Disk.remove
    cases d.stat false p with
    | error f => exact ⟨rfl, fun _ _ h => h⟩
    | ok found => exact ⟨rfl, fun _ _ h => Disk.get_of_get_erase h⟩
  have hall : ∀ (paths : List Path) (d : Disk), (paths.foldl removed d).home = d.home ∧
      ∀ loc e, (paths.foldl removed d).get? loc = some e → d.get? loc = some e := by
    intro paths
    induction paths with
    | nil => exact fun d => ⟨rfl, fun _ _ h => h⟩
    | cons p rest ih =>
      intro d
      obtain ⟨hhome, hsub⟩ := ih (removed d p)
      exact ⟨hhome.trans (hone d p).1, fun loc e h => (hone d p).2 loc e (hsub loc e h)⟩
  exact hall x.made x.disk

/-- Writing files that spare the index keeps it one of entries, whether all can be written or
    not. -/
theorem writeAll_indexOnly {result : Except Error Unit} (hd : d.IsTree) (h : d.IndexOnly root)
    (hfiles : ∀ f ∈ files, f.1.SparesIndex root d)
    (hwrite : writeAll d now files = (result, d')) : d'.IndexOnly root := by
  have htracks := Writing.files_tracks hd now files
  unfold writeAll at hwrite
  split at hwrite
  · next x hx =>
    rw [hx] at htracks
    obtain ⟨_, rfl⟩ := Prod.mk.inj hwrite
    exact h.grows htracks.grows hfiles
  · next e x hx =>
    rw [hx] at htracks
    obtain ⟨_, rfl⟩ := Prod.mk.inj hwrite
    obtain ⟨hhome, hsub⟩ := x.undone_sub
    exact (h.grows htracks.grows hfiles).sub hhome hsub

/-! ## The files of a run -/

/-- A name whose object lies outside the by-name index. -/
def ObjectName.IsOutsideIndex (name : String) : Prop :=
  ∃ s tail, steps name = s :: tail ∧ s ≠ CachePath.indexRoot

/-- A path that goes on by names from one that never leads up spares the index, if they lead into it
    only as those of an entry. -/
theorem Path.SparesIndex.of_names {p : Path} {segs : List String} (hup : ".." ∉ root.names)
    (hsegs : ∀ s ∈ segs, IsName s) (hne : segs ≠ []) (habs : p.isAbsolute = root.isAbsolute)
    (hnames : p.names = root.names ++ segs)
    (hdepth : ∀ rel, segs = CachePath.indexRoot :: rel → rel.length = CachePath.indexDepth)
    (d : Disk) : p.SparesIndex root d := by
  refine ⟨?_, ?_, fun rel hrel => ?_⟩
  · rw [hnames, List.mem_append]
    rintro (h | h)
    · exact hup h
    · exact (hsegs _ h).2.2.1 rfl
  · obtain ⟨init, last, rfl⟩ : ∃ init last, segs = init ++ [last] :=
      ⟨_, _, (List.dropLast_append_getLast hne).symm⟩
    exact ⟨root.names ++ init, last, by rw [hnames, List.append_assoc]⟩
  · rw [Disk.place_of_names hsegs d habs hnames] at hrel
    exact hdepth rel (List.append_cancel_left hrel)

namespace CachePath

variable {job label name : String}

theorem ofObject_sparesIndex (hup : ".." ∉ root.names)
    (hname : ObjectName.staysInside name = true) (houtside : ObjectName.IsOutsideIndex name)
    (d : Disk) : (ofObject root name).SparesIndex root d := by
  obtain ⟨s, tail, hsteps, hs⟩ := houtside
  have hsegs : ∀ t ∈ steps name, IsName t := fun t ht => .of_mem_steps hname ht
  refine .of_names hup hsegs (by simp [hsteps]) (Path.isAbsolute_foldl_join hsegs)
    (names_ofObject hname) (fun rel hrel => ?_) d
  rw [hsteps] at hrel
  exact absurd (List.cons.inj hrel).1 hs

theorem copy_sparesIndex (hup : ".." ∉ root.names)
    (hname : ObjectName.staysInside name = true) (houtside : ObjectName.IsOutsideIndex name)
    (d : Disk) : ((ofObject root name).withFileName copyFile).SparesIndex root d := by
  obtain ⟨s, tail, hsteps, hs⟩ := houtside
  obtain ⟨init, last, hconcat⟩ : ∃ init last, steps name = init ++ [last] :=
    ⟨_, _, (List.dropLast_append_getLast (by simp [hsteps])).symm⟩
  have hsegs : ∀ t ∈ init ++ [last], IsName t := fun t ht => .of_mem_steps hname (hconcat ▸ ht)
  have hobject : (ofObject root name).names = (root.names ++ init) ++ [last] := by
    rw [names_ofObject hname, hconcat, List.append_assoc]
  have habs : (ofObject root name).isAbsolute = root.isAbsolute := by
    rw [ofObject_eq, hconcat, Path.isAbsolute_foldl_join hsegs]
  obtain ⟨hcopy, hnames⟩ :=
    Path.names_withFileName hobject (hsegs last (by simp)) isName_copyFile
  rw [List.append_assoc] at hnames
  refine .of_names hup (fun t ht => ?_) (by simp) (hcopy.trans habs) hnames (fun rel hrel => ?_) d
  · rcases List.mem_append.mp ht with ht | ht
    · exact hsegs t (List.mem_append_left _ ht)
    · rw [List.mem_singleton.mp ht]
      exact isName_copyFile
  · -- The copy lies beside the object, so outside the index as well.
    cases init with
    | nil => exact absurd (List.cons.inj hrel).1 (by decide)
    | cons u rest =>
      rw [hsteps] at hconcat
      exact absurd ((List.cons.inj hconcat).1.trans (List.cons.inj hrel).1) hs

theorem ofIndexEntry_sparesIndex (hup : ".." ∉ root.names) (hjob : IsName job)
    (hlabel : isOneDirectory label = true) (hname : isOneDirectory name = true) (d : Disk) :
    (ofIndexEntry root job label name).SparesIndex root d := by
  have hsegs : ∀ s ∈ [indexRoot, job, label, name, copyFile], IsName s := fun s hs =>
    isName_of_mem_indexEntry hjob hlabel hname hs
  refine .of_names hup hsegs (by simp) (Path.isAbsolute_foldl_join hsegs)
    (Path.names_foldl_join hsegs) (fun rel hrel => ?_) d
  rw [← (List.cons.inj hrel).2]
  rfl

end CachePath

namespace Run

variable {store : Store} {r r' : Run} {w w' : World} {desc : Descriptor}
  {contents : Fields ByteArray}

/-- The files of a run whose objects lie outside the index spare it. -/
theorem files_spareIndex (hup : ".." ∉ root.names) (hjob : IsName r.job)
    (hesc : escaping? contents = none)
    (houtside : ∀ e ∈ contents, ObjectName.IsOutsideIndex e.1) (d : Disk) :
    ∀ f ∈ r.files root desc contents, f.1.SparesIndex root d := by
  intro f hf
  cases mem_files_iff.mp hf with
  | object h =>
    exact CachePath.ofObject_sparesIndex hup (staysInside_of_escaping hesc h) (houtside _ h) d
  | copy h =>
    exact CachePath.copy_sparesIndex hup (staysInside_of_escaping hesc h) (houtside _ h) d
  | entry hlabel hname => exact CachePath.ofIndexEntry_sparesIndex hup hjob hlabel hname d

/-- Writing a run keeps the index one of entries, however it ends. -/
theorem write_indexOnly {result : Except Error Written} (hup : ".." ∉ root.names)
    (hjob : IsName r.job) (houtside : ∀ p ∈ r.paths, ObjectName.IsOutsideIndex p)
    (hd : w.disk.IsTree) (hindex : w.disk.IndexOnly root)
    (h : r.write store root w = (result, r', w')) : w'.disk.IndexOnly root := by
  apply write_keeps h hindex
  intro desc contents r₁ w₁ hgather written d' hwrite
  have hreads := gather_reads store root r w
  rw [hgather] at hreads
  have hjob' : r₁.job = r.job := hreads.job
  refine writeAll_indexOnly hd hindex
    (files_spareIndex hup (hjob' ▸ hjob) (gather_stays hgather) (fun e he => ?_) w.disk) hwrite
  exact houtside e.1 (((gather_keys hgather).2 e.1).mp (Fields.isSome_get_of_mem he))

end Run

/-- Writing an entry of the index keeps it one of entries. -/
theorem writeIndex_indexOnly {job : String} {desc : Descriptor} {w w' : World}
    {result : Except Error (Option Path)} (hup : ".." ∉ root.names) (hjob : IsName job)
    (hd : w.disk.IsTree) (hindex : w.disk.IndexOnly root)
    (h : writeIndex root job desc w = (result, w')) : w'.disk.IndexOnly root := by
  apply writeIndex_keeps h hindex
  intro target htarget written d' hwrite
  obtain ⟨label, _, hlabel, hname, rfl⟩ := Run.indexPlace_eq_some_iff.mp htarget
  refine writeAll_indexOnly hd hindex (fun f hf => ?_) hwrite
  rw [List.mem_singleton.mp hf]
  exact CachePath.ofIndexEntry_sparesIndex hup hjob hlabel hname w.disk

end RunCache
