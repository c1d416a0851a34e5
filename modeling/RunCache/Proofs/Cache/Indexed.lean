import RunCache.Cache.Index
import RunCache.Proofs.Cache.Greatest
import RunCache.Proofs.Cache.Mirrored
import RunCache.Proofs.Cache.Named
import RunCache.Proofs.Cache.Opening
import RunCache.Proofs.Disk.Partial

/-! # Caches without a part of their index

    A cache whose runs are described where cached runs are looked for goes
    on holding them when entries of its by-name index are lost: the runs are
    found, opened and read as before.

    * **`Run.IsDescribed`**: a run whose descriptor lies where that of a
      cached run is looked for.
    * **`Disk.Caches`**: a cache of such runs.
    * **`Disk.PartlyIndexed`**: what is left of it when a part of the index
      is lost.
    * **`PartlyIndexed.openCache_ok`**, **`PartlyIndexed.readFile_descriptor`**:
      each run is opened, and its descriptor read.
    * **`PartlyIndexed.holdsRun_iff`**, **`PartlyIndexed.cachedIds_perm`**: the
      runs that are found there. -/

namespace RunCache

open Disk (Takes)
open ObjectName (logsRoot descriptorFile ofDescriptor steps)

variable {m : Memory} {root : Path} {job id : String} {r : Run} {runs : List Run} {now : Int}
  {full d : Disk}

/-! ## Runs that are described -/

/-- A run whose descriptor can be read and lies where that of a cached run is looked for. -/
structure Run.IsDescribed (m : Memory) (job : String) (r : Run) : Prop where
  ofJob : r.job = job
  inside : r.IsInside
  id : IsName r.id
  descriptor : r.descriptorPath = some (ofDescriptor job r.id)
  parses : ∃ desc, r.parsed? m = some desc

theorem ObjectName.steps_ofDescriptor (hjob : IsName job) (hid : IsName id) :
    steps (ofDescriptor job id) = [logsRoot, job, id, descriptorFile] := by
  have hsegs := segments_ofDescriptor hjob.2.2.2 hid.2.2.2
  rw [steps_eq_segments, hsegs]
  rw [hsegs]
  simp only [List.mem_cons, List.not_mem_nil, or_false, not_or]
  exact ⟨by decide, Ne.symm hjob.1, Ne.symm hid.1, by decide⟩

namespace Run.IsDescribed

theorem descriptor_mem (h : r.IsDescribed m job) : ofDescriptor job r.id ∈ r.paths := by
  simp [paths, h.descriptor]

theorem steps_descriptor (h : r.IsDescribed m job) :
    steps (ofDescriptor job r.id) = [logsRoot, job, r.id, descriptorFile] :=
  ObjectName.steps_ofDescriptor (h.ofJob ▸ h.inside.job) h.id

/-- The descriptor that is read from the bucket. -/
theorem parse (h : r.IsDescribed m job) {desc : Descriptor} (hparsed : r.parsed? m = some desc) :
    parseDescriptor (m.bytes (ofDescriptor job r.id)) = .ok desc := by
  obtain ⟨path, hpath, hparse⟩ := parsed_eq_some_iff.mp hparsed
  rwa [← Option.some.inj (h.descriptor.symm.trans hpath)] at hparse

/-- Of the files of a run only its descriptor lies where a descriptor is looked for. -/
theorem of_mem_keeps (h : r.IsDescribed m job) {f : List String × ByteArray} (hf : f ∈ r.keeps m)
    (hnames : f.1 = [logsRoot, job, id, descriptorFile]) :
    r.id = id ∧ f.2 = m.bytes (ofDescriptor job r.id) := by
  rcases h.inside.mem_keeps hf with ⟨p, hp, rfl⟩ | ⟨init, hinit, _⟩ | ⟨more, hmore, _⟩
  · rcases List.mem_append.mp hp with hdesc | hresult
    · obtain rfl : p = ofDescriptor job r.id := by simpa [h.descriptor] using hdesc
      have hsteps := h.steps_descriptor.symm.trans hnames
      exact ⟨by simpa using hsteps, rfl⟩
    · -- A test result does not end as a descriptor does.
      have hsteps : steps p = [logsRoot, job, id] ++ [descriptorFile] := hnames
      have hend := ObjectName.endsWith_of_isTestResult (h.inside.listed.results p hresult) hsteps
      exact absurd hend (by decide)
  · -- Nor does a copy.
    have hfile : (logsRoot :: r.job :: init) ++ [CachePath.copyFile] =
        [logsRoot, job, id] ++ [descriptorFile] := hinit.symm.trans hnames
    exact absurd (List.append_inj' hfile rfl).2 (by decide)
  · have hhead := (List.cons.inj (hmore.symm.trans hnames)).1
    exact absurd hhead (by decide)

end Run.IsDescribed

/-! ## Caches of runs -/

/-- A cache of runs of a bucket and of nothing else, all described and no two of them with one entry
    in the by-name index. -/
structure Disk.Caches (d : Disk) (m : Memory) (root : Path) (job : String) (runs : List Run)
    (now : Int) : Prop where
  isName : IsName job
  filled : d.Filled root (runs.flatMap (Run.keeps m)) now
  fits : FitsBelow root (runs.flatMap (Run.keeps m))
  described : ∀ r ∈ runs, r.IsDescribed m job
  ids : (runs.map (·.id)).Nodup
  entries : ∀ r ∈ runs, ∀ s ∈ runs, ∀ desc other names, r.parsed? m = some desc →
    s.parsed? m = some other → Run.indexNames? job desc = some names →
    Run.indexNames? job other = some names → r.id = s.id

namespace Disk.Caches

variable {names : List String} {bytes : ByteArray} {time : Int} {desc : Descriptor}

theorem eq_of_id (h : full.Caches m root job runs now) {r s : Run} (hr : r ∈ runs) (hs : s ∈ runs)
    (hid : r.id = s.id) : r = s :=
  List.inj_on_of_nodup_map h.ids hr hs hid

/-- What is put last under some names that a run has a file under is what some run puts there. -/
theorem lastAt_of_mem {f : List String × ByteArray} (hr : r ∈ runs) (hf : f ∈ r.keeps m) :
    ∃ s ∈ runs, ∃ bytes, lastAt? (runs.flatMap (Run.keeps m)) f.1 = some bytes ∧
      (f.1, bytes) ∈ s.keeps m := by
  cases hlast : lastAt? (runs.flatMap (Run.keeps m)) f.1 with
  | none =>
    exact absurd rfl (lastAt_eq_none_iff.mp hlast f (List.mem_flatMap.mpr ⟨r, hr, hf⟩))
  | some bytes =>
    obtain ⟨s, hs, hmem⟩ := List.mem_flatMap.mp (mem_of_lastAt hlast)
    exact ⟨s, hs, bytes, rfl, hmem⟩

/-- The file of a descriptor holds it. -/
theorem get_descriptor (h : full.Caches m root job runs now) (hr : r ∈ runs) :
    full.get? (full.place root ++ [logsRoot, job, r.id, descriptorFile]) =
      some (.file (m.bytes (ofDescriptor job r.id)) now) := by
  have hdesc := h.described r hr
  obtain ⟨_, hparsed⟩ := hdesc.parses
  have hmem := Run.IsInside.object_mem_keeps hparsed hdesc.descriptor_mem
  rw [hdesc.steps_descriptor] at hmem
  obtain ⟨s, hs, bytes, hlast, hkept⟩ := lastAt_of_mem hr hmem
  obtain ⟨hid, hbytes⟩ := (h.described s hs).of_mem_keeps hkept rfl
  have hbytes : bytes = m.bytes (ofDescriptor job s.id) := hbytes
  rw [h.filled.file _ _ hlast, hbytes, hid]

/-- A file where a descriptor is looked for is that of a run. -/
theorem exists_run (h : full.Caches m root job runs now)
    (hget : full.get? (full.place root ++ [logsRoot, job, id, descriptorFile]) =
      some (.file bytes time)) : ∃ r ∈ runs, r.id = id := by
  obtain ⟨r, hr, hkept⟩ :=
    List.mem_flatMap.mp (mem_of_lastAt (h.filled.file_iff.mp ⟨time, hget⟩))
  exact ⟨r, hr, ((h.described r hr).of_mem_keeps hkept rfl).1⟩

/-- The entry of a run in the by-name index holds its descriptor in the one written form. -/
theorem get_entry (h : full.Caches m root job runs now) (hr : r ∈ runs)
    (hparsed : r.parsed? m = some desc) (hnames : Run.indexNames? job desc = some names) :
    full.get? (full.place root ++ names) = some (.file desc.render now) := by
  have hdesc := h.described r hr
  have hmem := Run.IsInside.entry_mem_keeps hparsed (hdesc.ofJob.symm ▸ hnames)
  obtain ⟨s, hs, bytes, hlast, hkept⟩ := lastAt_of_mem hr hmem
  have hindex : names.head? = some CachePath.indexRoot := by
    obtain ⟨label, _, _, _, rfl⟩ := Run.indexNames_eq_some hnames
    rfl
  obtain ⟨other, hother, hsame, hbytes⟩ := (h.described s hs).inside.entry_of_mem_keeps hkept hindex
  rw [(h.described s hs).ofJob] at hsame
  -- Another run would have the same entry.
  obtain rfl := h.eq_of_id hr hs (h.entries r hr s hs desc other names hparsed hother hnames hsame)
  obtain rfl := Option.some.inj (hparsed.symm.trans hother)
  have hbytes : bytes = desc.render := hbytes
  rw [h.filled.file _ _ hlast, hbytes]

/-- A file of the by-name index is the entry of a run. -/
theorem exists_entry (h : full.Caches m root job runs now)
    (hget : full.get? (full.place root ++ CachePath.indexRoot :: names) =
      some (.file bytes time)) :
    ∃ r ∈ runs, ∃ desc, r.parsed? m = some desc ∧
      Run.indexNames? job desc = some (CachePath.indexRoot :: names) := by
  obtain ⟨r, hr, hkept⟩ :=
    List.mem_flatMap.mp (mem_of_lastAt (h.filled.file_iff.mp ⟨time, hget⟩))
  obtain ⟨desc, hparsed, hnames, _⟩ := (h.described r hr).inside.entry_of_mem_keeps hkept rfl
  rw [(h.described r hr).ofJob] at hnames
  exact ⟨r, hr, desc, hparsed, hnames⟩

/-- The system takes the path of whatever is there. -/
theorem takes {e : Entry} (h : full.Caches m root job runs now) (hne : names ≠ [])
    (hget : full.get? (full.place root ++ names) = some e) : Takes root names :=
  h.filled.takes h.fits hne hget

/-- What lies above something is an open directory. -/
theorem open_above {e : Entry} {l : List String} (h : full.Caches m root job runs now)
    (hget : full.get? (full.place root ++ names) = some e) (hl : l <+: names) (hne : l ≠ names)
    (hnil : l ≠ []) : full.get? (full.place root ++ l) = some (.dir false) := by
  obtain ⟨closed, hdir⟩ := (h.filled.stands.tree.below _).dir_above hget hl hne
  cases hlast : lastAt? (runs.flatMap (Run.keeps m)) l with
  | some bytes =>
    rw [h.filled.file _ _ hlast] at hdir
    cases hdir
  | none =>
    obtain ⟨hopen, _⟩ := h.filled.other _ _ hnil hlast hdir
    rw [hdir, hopen]

/-- The directory of a run is there, and that of its job. -/
theorem get_above (h : full.Caches m root job runs now) (hr : r ∈ runs) {l : List String}
    (hl : l <+: [logsRoot, job, r.id]) (hnil : l ≠ []) :
    full.get? (full.place root ++ l) = some (.dir false) := by
  refine h.open_above (h.get_descriptor hr)
    (hl.trans (List.prefix_append [logsRoot, job, r.id] [descriptorFile])) ?_ hnil
  rintro rfl
  simpa using hl.length_le

end Disk.Caches

/-! ## What is left without entries -/

/-- Where the by-name index of a job lies. -/
def Disk.indexOf (d : Disk) (root : Path) (job : String) : Location :=
  d.place root ++ [CachePath.indexRoot, job]

/-- What is left of a cache when entries of its by-name index are lost, and a part of them may have
    been written again. -/
structure Disk.PartlyIndexed (full : Disk) (root : Path) (job : String) (d : Disk) : Prop where
  part : full.PartOf (full.indexOf root job) d
  stands : d.Stands root

namespace Disk.PartlyIndexed

theorem place_eq (h : full.PartlyIndexed root job d) : d.place root = full.place root :=
  Disk.place_congr h.part.home root

/-- Outside the index of the job nothing is lost. -/
theorem get_eq {names : List String} (h : full.PartlyIndexed root job d)
    (hout : ¬ [CachePath.indexRoot, job] <+: names) :
    d.get? (d.place root ++ names) = full.get? (full.place root ++ names) := by
  rw [h.place_eq]
  refine h.part.outside _ fun hpre => hout ?_
  rwa [Disk.indexOf, List.prefix_append_right_inj] at hpre

/-- Among the logs nothing is lost. -/
theorem get_logs (h : full.PartlyIndexed root job d) (names : List String) :
    d.get? (d.place root ++ logsRoot :: names) = full.get? (full.place root ++ logsRoot :: names) := by
  refine h.get_eq fun hpre => ?_
  obtain ⟨more, hmore⟩ := hpre
  exact absurd (List.cons.inj hmore).1 (by decide)

/-- The file of a descriptor is found. -/
theorem stat_descriptor (h : full.PartlyIndexed root job d) (hfull : full.Caches m root job runs now)
    (hr : r ∈ runs) (follow : Bool) :
    d.stat follow ([logsRoot, job, r.id, descriptorFile].foldl Path.join root) =
      .ok (d.place root ++ [logsRoot, job, r.id, descriptorFile],
        .file (m.bytes (ofDescriptor job r.id)) now) := by
  have hget := hfull.get_descriptor hr
  refine h.stands.stat_found (hfull.takes (by simp) hget) (by simp) ?_
  rw [h.get_logs, hget]

/-- The descriptor of a run is read as it was in the bucket. -/
theorem readFile_descriptor (h : full.PartlyIndexed root job d)
    (hfull : full.Caches m root job runs now) (hr : r ∈ runs) :
    d.readFile (CachePath.ofObject root (ofDescriptor job r.id)) =
      .ok (m.bytes (ofDescriptor job r.id)) := by
  rw [CachePath.ofObject_eq, (hfull.described r hr).steps_descriptor, Disk.readFile,
    h.stat_descriptor hfull hr]

/-- The system takes the path of whatever is there among the logs. -/
theorem takes_logs {names : List String} {e : Entry} (h : full.PartlyIndexed root job d)
    (hfull : full.Caches m root job runs now)
    (hget : d.get? (d.place root ++ logsRoot :: names) = some e) :
    Takes root (logsRoot :: names) := by
  rw [h.get_logs] at hget
  exact hfull.takes (by simp) hget

/-- The directory of a run is found, and that of its job. -/
theorem leadsTo (h : full.PartlyIndexed root job d) (hfull : full.Caches m root job runs now)
    (hr : r ∈ runs) {names : List String} (hnames : logsRoot :: names <+: [logsRoot, job, r.id]) :
    d.LeadsTo ((logsRoot :: names).foldl Path.join root) (d.place root ++ logsRoot :: names) := by
  have hdir := hfull.get_above hr hnames (by simp)
  rw [← h.get_logs] at hdir
  exact ⟨h.stands.tree.below _, false, hdir,
    h.stands.stat_found (h.takes_logs hfull hdir) (by simp) hdir⟩

/-! ### Opening -/

theorem keepsRun (h : full.PartlyIndexed root job d) (hfull : full.Caches m root job runs now)
    (hr : r ∈ runs) : d.KeepsRun root job r.id (d.place root ++ [logsRoot, job, r.id]) := by
  have hleads := h.leadsTo hfull hr List.prefix_rfl
  obtain ⟨closed, hdir⟩ := hleads.dir
  refine ⟨hfull.isName, (h.takes_logs hfull hdir).names r.id (by simp), hleads,
    fun rel e hget s hs => ?_⟩
  rw [List.append_assoc] at hget
  have htakes := h.takes_logs hfull hget
  have hmem : s ∈ logsRoot :: ([job, r.id] ++ rel) := by simp [hs]
  exact ⟨htakes.names s hmem, Disk.no_nul_of_accept htakes.accepted htakes.names s hmem⟩

/-- Each run is opened. -/
theorem openCache_ok (h : full.PartlyIndexed root job d) (hfull : full.Caches m root job runs now)
    (hr : r ∈ runs) : ∃ opened, Run.openCache d root job r.id = .ok opened ∧
      opened.origin = .cache root ∧ opened.descriptorPath = some (ofDescriptor job r.id) := by
  have hkeeps := h.keepsRun hfull hr
  have hwalk := hkeeps.leads.walk_ok fun rel closed hget => by
    rw [List.append_assoc] at hget
    rw [CachePath.ofRun_eq, ← List.foldl_append]
    exact (h.takes_logs hfull hget).accepted
  obtain ⟨names, hopen, _⟩ := hkeeps.openCache hwalk
  exact ⟨_, hopen, rfl, rfl⟩

/-! ### The runs that are found -/

/-- The directory of the job holds the runs of the cache. -/
theorem holdsRun_iff (h : full.PartlyIndexed root job d) (hfull : full.Caches m root job runs now) :
    d.HoldsRun (CachePath.ofJob root job) (d.place root ++ [logsRoot, job]) id ↔
      id ∈ runs.map (·.id) := by
  rw [List.mem_map]
  constructor
  · intro hholds
    obtain ⟨bytes, time, hget⟩ := hholds.file
    rw [List.append_assoc, List.cons_append, h.get_logs] at hget
    exact hfull.exists_run hget
  · rintro ⟨r, hr, rfl⟩
    obtain ⟨closed, hdir⟩ := (h.leadsTo hfull hr List.prefix_rfl).dir
    have htaken := Disk.accept_of_locate
      (Disk.locate_of_stat (h.stat_descriptor hfull hr true))
    refine ⟨⟨closed, ?_⟩, ⟨m.bytes (ofDescriptor job r.id), now, ?_⟩, htaken⟩
    · rw [List.append_assoc]
      exact hdir
    · rw [List.append_assoc]
      exact (h.get_logs _).trans (hfull.get_descriptor hr)

/-- The runs that are found are those of the cache. -/
theorem cachedIds_perm (h : full.PartlyIndexed root job d) (hfull : full.Caches m root job runs now) :
    ∃ ids, cachedIds d root job = .ok ids ∧ ids.Perm (runs.map (·.id)) := by
  cases hdir : d.isDir (CachePath.ofJob root job) with
  | false =>
    -- Without a directory of the job there are no runs.
    refine ⟨[], by simp [cachedIds, hdir], ?_⟩
    have hnone : runs = [] := by
      refine List.eq_nil_iff_forall_not_mem.mpr fun r hr => ?_
      have hthere : d.isDir ([logsRoot, job].foldl Path.join root) = true :=
        (h.leadsTo hfull hr (by simp)).isDir
      rw [← CachePath.ofJob_eq, hdir] at hthere
      cases hthere
    rw [hnone]
    exact List.Perm.nil
  | true =>
    have hleads := h.stands.tree.leadsTo_ofJob hfull.isName hdir
    obtain ⟨ids, hids, hnodup, hmem⟩ := mem_cachedIds hleads fun name e hget => by
      rw [List.append_assoc] at hget
      exact (h.takes_logs hfull hget).names name (by simp)
    -- Neither list repeats an id, so it is enough that they have the same ones.
    refine ⟨ids, hids, (List.perm_ext_iff_of_nodup hnodup hfull.ids).mpr fun id => ?_⟩
    rw [hmem, h.holdsRun_iff hfull]

end Disk.PartlyIndexed

end RunCache
