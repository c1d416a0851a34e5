import RunCache.Proofs.Bucket.Memory
import RunCache.Proofs.Cache.Answered
import RunCache.Proofs.Cache.Mirrored
import RunCache.Proofs.Scan.Regrouped

/-! # Caching a cache

    A cache is a bucket on disk.  Caching the job once more from there finds
    the same runs and leaves the same files.

    * **`runPass_ok`**, **`runPass_of_inTurn`**: passes that succeed.
    * **`fitsBelow_of_wrote`**: what has been written into a directory fits
      below it.
    * **`groups_of_listed`**: the runs of a cache that is listed.
    * **`Disk.Filled.answers`**: what is read from a cache while another one
      is written.
    * **`cached_again`**: both passes. -/

namespace RunCache

open Disk (Stands Takes Filled)
open Writing (Wrote)
open ObjectName (steps logsRoot)

variable {store : Store} {m : Memory} {o : PassOptions} {w w' : World} {root root' : Path}
  {runs : List Run}

/-! ## Passes that succeed -/

/-- A pass that succeeds has scanned to the end and written all runs. -/
theorem runPass_ok {s : Summary} (h : runPass store o w = (.ok s, w')) :
    ∃ options runs w₁ told, o.scanOptions w.disk = .ok options ∧
      scan store options o.job w = (.ok runs, w₁) ∧ InTurn store o.workingDir runs w₁ told w' ∧
      s = ⟨runs.length, runs.length, entryCount told⟩ := by
  have hbucket : ∀ options, ∀ r ∈ scannedRuns (scan store options o.job w).1,
      r.origin = .bucket [] := by
    intro options r hr
    rw [(scannedRuns_groupsInto store options o.job w).records r hr]
    rfl
  rw [runPass_eq] at h
  split at h
  · cases h
  · next options hoptions =>
    specialize hbucket options
    generalize hscan : scan store options o.job w = answer at h hbucket
    obtain ⟨found, w₁⟩ := answer
    cases found with
    | error e =>
      -- A scan that breaks ends the pass with an error, even where all runs are written.
      exfalso
      split at h
      · cases (Prod.mk.inj h).1
      · obtain ⟨_, _, _, _, _, _, _, ⟨_, _, hresult⟩ | ⟨_, _, _, _, _, _, hresult⟩, _⟩ :=
          cacheRuns_inTurn hbucket h
        · cases hresult
        · cases hresult
    | ok runs =>
      have h : cacheRuns store o.workingDir runs none w₁ = (.ok s, w') := h
      obtain ⟨done, rest, told, w₂, _, hruns, hturn, hend, _⟩ := cacheRuns_inTurn hbucket h
      rcases hend with ⟨rfl, rfl, hresult⟩ | ⟨_, _, _, _, _, _, hresult⟩
      · obtain rfl : runs = done := hruns.trans (List.append_nil done)
        exact ⟨options, runs, w₁, told, hoptions, hscan, hturn, Except.ok.inj hresult⟩
      · cases hresult

theorem writeRuns_of_inTurn {told : List Written} (h : InTurn store root runs w told w')
    (s : Summary) :
    writeRuns store root runs s w =
      (.ok ⟨s.discovered, s.cached + runs.length, s.indexed + entryCount told⟩, w') := by
  induction h generalizing s with
  | nil => rfl
  | cons hwrite _ ih =>
    unfold writeRuns
    rw [hwrite]
    simp only
    rw [ih, entryCount_cons, List.length_cons]
    simp only [Prod.mk.injEq, Except.ok.injEq, Summary.mk.injEq, true_and, and_true]
    omega

/-- A pass that scans to the end and writes all runs succeeds. -/
theorem runPass_of_inTurn {w₁ : World} {told : List Written} (hresume : o.resume = false)
    (hscan : scan store o.scan o.job w = (.ok runs, w₁))
    (hturn : InTurn store o.workingDir runs w₁ told w') :
    runPass store o w = (.ok ⟨runs.length, runs.length, entryCount told⟩, w') := by
  have hoptions : o.scanOptions w.disk = .ok o.scan := by simp [PassOptions.scanOptions, hresume]
  unfold runPass
  simp only [hoptions, hscan, cacheRuns, writeRuns_of_inTurn hturn, Nat.zero_add]

/-! ## Files that fit -/

variable {files : List (List String × ByteArray)} {d d' : Disk} {now : Int} {names : List String}

/-- Files that have been written into an empty directory fit below it. -/
theorem fitsBelow_of_wrote (h : Wrote (targets root files) now d d') (hd : d'.Filled root files now)
    (hnames : ∀ f ∈ files, f.1 ≠ [] ∧ ∀ s ∈ f.1, IsName s) : FitsBelow root files := by
  have hthere : ∀ f ∈ files, ∃ bytes, d'.get? (d'.place root ++ f.1) = some (.file bytes now) := by
    intro f hf
    cases hlast : lastAt? files f.1 with
    | some bytes => exact ⟨bytes, hd.file _ _ hlast⟩
    | none => exact absurd rfl (lastAt_eq_none_iff.mp hlast f hf)
  refine ⟨fun f hf => ?_, fun f hf g hg hpre => ?_⟩
  · obtain ⟨bytes, hget⟩ := hthere f hf
    obtain ⟨_, _, _, hstat⟩ := h.found _ (List.mem_map_of_mem hf)
    obtain ⟨hne, hf⟩ := hnames f hf
    exact ⟨hne, hf, fun s hs => h.tree.fits _ _ hget s (List.mem_append_right _ hs),
      Disk.accept_of_locate (Disk.locate_of_stat hstat)⟩
  · -- What lies below a file would lie in a directory.
    by_contra hdiff
    obtain ⟨_, hget⟩ := hthere f hf
    obtain ⟨_, hget'⟩ := hthere g hg
    obtain ⟨closed, hdir⟩ := h.tree.dir_above hget'
      ((List.prefix_append_right_inj (d'.place root)).mpr hpre) (by simpa using hdiff)
    rw [hget] at hdir
    cases hdir

/-! ## The runs of a bucket -/

/-- The runs of a job with a plain name, in a bucket. -/
theorem runs_of_listing {options : ScanOptions} {now : Int} {job : String} (hjob : IsName job)
    (h : GroupsInto options now job (m.listing (options.query job)) runs) :
    ∀ r ∈ runs, r.job = job ∧ r.origin = .bucket [] ∧ r.IsListed ∧
      ∀ p ∈ r.paths, ∃ tail, tail ≠ [] ∧ steps p = logsRoot :: r.job :: tail := by
  intro r hr
  have hadmits : ∀ x ∈ m.listing (options.query job), (options.query job).admits x.name = true := by
    intro x hx
    obtain ⟨e, he, rfl⟩ := List.mem_map.mp hx
    exact (List.mem_filter.mp he).2
  obtain ⟨hrjob, hrlisted⟩ := Run.isListed_of_groups h hadmits hr
  refine ⟨hrjob, by rw [h.records r hr]; rfl, hrlisted, fun p hp => ?_⟩
  have hid := h.runId_of_mem_paths hr hp
  rw [h.records r hr] at hp
  obtain ⟨x, hx, rfl, _⟩ := ScanOptions.listed_paths hp
  rw [hrjob]
  exact ObjectKind.exists_steps_below hjob (hadmits x hx) hid

/-- In a bucket of objects that are named without empty segments, the objects of its runs are named
    so. -/
theorem segments_of_bucket {options : ScanOptions} {now : Int} {job : String}
    (hsegs : ∀ e ∈ m.objects, "" ∉ Text.segments e.1)
    (h : GroupsInto options now job (m.listing (options.query job)) runs) :
    ∀ r ∈ runs, ∀ p ∈ r.paths, "" ∉ Text.segments p := by
  intro r hr p hp
  rw [h.records r hr] at hp
  obtain ⟨x, hx, rfl, _⟩ := ScanOptions.listed_paths hp
  obtain ⟨e, he, rfl⟩ := List.mem_map.mp hx
  exact hsegs e (List.mem_filter.mp he).1

/-! ## The runs of a cache -/

/-- A cache of some runs that is listed as a bucket holds these runs. -/
theorem groups_of_listed {now now₁ now' : Int} {options o' : ScanOptions} {job : String}
    {xs ys : List Listed} (hinside : ∀ r ∈ runs, r.IsInside ∧ ∃ desc, r.parsed? m = some desc)
    (hsegs : ∀ r ∈ runs, r.job = job ∧ ∀ p ∈ r.paths, "" ∉ Text.segments p)
    (h : GroupsInto options now job xs runs) (hxs : InNameOrder xs) (hys : InNameOrder ys)
    (hlisted : ∀ y, y ∈ ys ↔ ∃ rel bytes,
      lastAt? (runs.flatMap (Run.keeps m)) (logsRoot :: job :: rel) = some bytes ∧
        y = ⟨Text.joined (logsRoot :: job :: rel), now₁⟩)
    (hwindow : ys ≠ [] → now' - now₁ ≤ o'.window) (hleast : o'.leastId = none) :
    GroupsInto o' now' job ys runs := by
  have hinside' : ∀ r ∈ runs, r.IsInside := fun r hr => (hinside r hr).1
  have hsegs' : ∀ r ∈ runs, ∀ p ∈ r.paths, "" ∉ Text.segments p := fun r hr => (hsegs r hr).2
  refine h.regroup hxs ⟨hys, fun y hy => ?_, hleast, fun y hy => ?_, fun r hr p hp => ?_⟩
  · obtain ⟨rel, bytes, _, rfl⟩ := (hlisted y).mp hy
    exact hwindow (List.ne_nil_of_mem hy)
  · obtain ⟨rel, bytes, hlast, rfl⟩ := (hlisted y).mp hy
    exact Run.kind_of_kept hinside' hsegs' hlast rfl
  · obtain ⟨desc, hparsed⟩ := (hinside r hr).2
    have hlast := Run.lastAt_object hinside' hsegs' hr hparsed hp
    obtain ⟨tail, _, htail⟩ := (hinside' r hr).below p hp
    refine ⟨⟨p, now₁⟩, (hlisted _).mpr ⟨tail, m.bytes p, ?_, ?_⟩, rfl⟩
    · rw [← hlast, htail, (hsegs r hr).1]
    · rw [← (hsegs r hr).1, ← htail, ObjectName.steps_eq_segments (hsegs' r hr p hp),
        Text.joined_segments]

/-! ## Both passes -/

/-- A directory with nothing in it. -/
structure Disk.IsEmptyDir (d : Disk) (p : Path) : Prop where
  isDir : d.isDir p = true
  empty : ∀ names, names ≠ [] → d.get? (d.place p ++ names) = none

/-- A pass that succeeds has written the files of all runs that it has found. -/
theorem pass_wrote {s : Summary} (hstore : store.Serves m) (hjob : IsName o.job)
    (hd : w.disk.IsTree) (hpass : runPass store o w = (.ok s, w')) :
    ∃ options runs w₁, o.scanOptions w.disk = .ok options ∧
      scan store options o.job w = (.ok runs, w₁) ∧
      GroupsInto options w.now o.job (m.listing (options.query o.job)) runs ∧
      (∀ r ∈ runs, r.job = o.job ∧ r.origin = .bucket [] ∧ r.IsInside ∧
        ∃ desc, r.parsed? m = some desc) ∧
      s = ⟨runs.length, runs.length, (runs.filter (Run.isIndexed m)).length⟩ ∧
      Wrote (targets o.workingDir (runs.flatMap (Run.keeps m))) w.now w.disk w'.disk := by
  obtain ⟨options, runs, w₁, told, hoptions, hscan, hturn, rfl⟩ := runPass_ok hpass
  have hgroups := hstore.scan_found (w := w) (by rw [hscan])
  have hruns := runs_of_listing hjob hgroups
  obtain ⟨hdisk, hnow⟩ : w₁.disk = w.disk ∧ w₁.now = w.now := by
    obtain ⟨_, w₀, heq, _, hcalls⟩ := scan_eq store options o.job w
    rw [hscan] at heq
    rw [(Prod.mk.inj heq).2]
    exact ⟨hcalls.disk, hcalls.now⟩
  obtain ⟨hall, hcount, hwrote⟩ := hturn.wrote hstore
    (fun r hr => ⟨(hruns r hr).2.1, (hruns r hr).2.2.1, (hruns r hr).1 ▸ hjob,
      (hruns r hr).2.2.2⟩) (hdisk ▸ hd)
  rw [hdisk, hnow] at hwrote
  exact ⟨options, runs, w₁, hoptions, hscan, hgroups,
    fun r hr => ⟨(hruns r hr).1, (hruns r hr).2.1, hall r hr⟩, by rw [hcount], hwrote⟩

/-- What has been written into an empty directory fills it, and fits below it. -/
theorem Disk.IsEmptyDir.filled (hempty : d.IsEmptyDir root) (hd : d.IsTree)
    (hruns : ∀ r ∈ runs, r.IsInside)
    (hwrote : Wrote (targets root (runs.flatMap (Run.keeps m))) now d d') :
    FitsBelow root (runs.flatMap (Run.keeps m)) ∧
      d'.Filled root (runs.flatMap (Run.keeps m)) now := by
  have hnames : ∀ f ∈ runs.flatMap (Run.keeps m), f.1 ≠ [] ∧ ∀ s ∈ f.1, IsName s := by
    intro f hf
    obtain ⟨r, hr, hf⟩ := List.mem_flatMap.mp hf
    exact (hruns r hr).names_of_mem_keeps hf
  have hfilled := hwrote.filled ⟨hd, hempty.isDir⟩ hempty.empty hnames
  exact ⟨fitsBelow_of_wrote hwrote hfilled hnames, hfilled⟩

/-- What a pass into an empty directory has found and left there. -/
theorem first_pass {s : Summary} (hstore : store.Serves m)
    (hsegs : ∀ e ∈ m.objects, "" ∉ Text.segments e.1) (hjob : IsName o.job)
    (hd : w.disk.IsTree) (hempty : w.disk.IsEmptyDir o.workingDir)
    (hpass : runPass store o w = (.ok s, w')) :
    ∃ options now runs, GroupsInto options now o.job (m.listing (options.query o.job)) runs ∧
      (∀ r ∈ runs, r.job = o.job ∧ r.origin = .bucket [] ∧
        (∀ p ∈ r.paths, "" ∉ Text.segments p) ∧ r.IsInside ∧ ∃ desc, r.parsed? m = some desc) ∧
      s = ⟨runs.length, runs.length, (runs.filter (Run.isIndexed m)).length⟩ ∧
      FitsBelow o.workingDir (runs.flatMap (Run.keeps m)) ∧
      w'.disk.Filled o.workingDir (runs.flatMap (Run.keeps m)) now := by
  obtain ⟨options, runs, _, _, _, hgroups, hruns, hs, hwrote⟩ :=
    pass_wrote hstore hjob hd hpass
  obtain ⟨hfits, hfilled⟩ := hempty.filled hd (fun r hr => (hruns r hr).2.2.1) hwrote
  refine ⟨options, _, runs, hgroups, fun r hr => ?_, hs, hfits, hfilled⟩
  obtain ⟨hrjob, horigin, hinside⟩ := hruns r hr
  exact ⟨hrjob, horigin, segments_of_bucket hsegs hgroups r hr, hinside⟩

/-- While runs are written into another directory, which is empty at first, the cache answers as the
    bucket did: its objects are files that this does not touch. -/
theorem Disk.Filled.answers {second : Path} {now' : Int} {done : List Run}
    (h : d.Filled root (runs.flatMap (Run.keeps m)) now)
    (hfits : FitsBelow root (runs.flatMap (Run.keeps m))) (hempty : d.IsEmptyDir second)
    (hruns : ∀ r ∈ runs, (∀ p ∈ r.paths, "" ∉ Text.segments p) ∧ r.IsInside ∧
      ∃ desc, r.parsed? m = some desc)
    (hdone : done ⊆ runs)
    (hwrote : Wrote (targets second (done.flatMap (Run.keeps m))) now' d d') :
    ∀ r ∈ runs, (Folder.store root).Answers m d' r.paths := by
  rintro r hr w rfl p hp
  obtain ⟨hsegs, _, desc, hparsed⟩ := hruns r hr
  have hlast := Run.lastAt_object (fun r hr => (hruns r hr).2.1) (fun r hr => (hruns r hr).1) hr
    hparsed hp
  have hget := h.file _ _ hlast
  obtain ⟨hne, htakes⟩ := hfits.takes _ (mem_of_lastAt hlast)
  -- A file that is written lies in the other directory, where there was nothing.
  have hkept := hwrote.grows.kept hget (by
    rintro ⟨f, hf, hloc⟩
    obtain ⟨g, hg, rfl⟩ := List.mem_map.mp hf
    obtain ⟨s, hs, hg⟩ := List.mem_flatMap.mp hg
    obtain ⟨hgne, hgnames⟩ := (hruns s (hdone hs)).2.1.names_of_mem_keeps hg
    rw [hloc, Disk.place_foldl_join hgnames, hempty.empty _ hgne] at hget
    cases hget)
  rw [← Disk.place_congr hwrote.grows.home] at hkept
  have hbody := Folder.body_of_file (h.stands.grows hwrote.tree hwrote.grows) htakes hne hkept
  rw [ObjectName.steps_eq_segments (hsegs p hp), Text.joined_segments] at hbody
  rw [← hbody]
  rfl

/-- **A cache is a fixed point of caching.**  A pass that succeeds in an empty directory leaves a
    cache from which, for as long as nothing changes there, a pass over the same job succeeds in
    another empty directory, with the same summary and the same files.  The path of the second
    directory, as it stands before a name, is no longer than that of the first one: whatever was
    short enough for the system below the first is so below the second. -/
theorem cached_again {s : Summary} {w₂ : World} {second : Path} {window : Int}
    (hstore : store.Serves m) (hsorted : m.objects.Sorted)
    (hsegs : ∀ e ∈ m.objects, "" ∉ Text.segments e.1) (hjob : IsName o.job)
    (hd : w.disk.IsTree) (hempty : w.disk.IsEmptyDir o.workingDir)
    (hpass : runPass store o w = (.ok s, w'))
    (hd₂ : w₂.disk.IsTree) (hquiet : w₂.IsQuiet) (hdir : w₂.disk.isDir o.workingDir = true)
    (hsame : ∀ names, names ≠ [] → w₂.disk.get? (w₂.disk.place o.workingDir ++ names) =
      w'.disk.get? (w'.disk.place o.workingDir ++ names))
    (hwindow : ∀ names bytes time, w₂.disk.get? (w₂.disk.place o.workingDir ++ names) =
      some (.file bytes time) → w₂.now - time ≤ window)
    (hempty₂ : w₂.disk.IsEmptyDir second)
    (hopen : w₂.disk.get? (w₂.disk.place second) = some (.dir false))
    (hlen : (second.join "").text.utf8ByteSize ≤ (o.workingDir.join "").text.utf8ByteSize) :
    ∃ w₂', runPass (Folder.store o.workingDir)
        { job := o.job, workingDir := second, scan := { window } } w₂ = (.ok s, w₂') ∧
      ∀ names bytes,
        (∃ time, w₂'.disk.get? (w₂'.disk.place second ++ names) = some (.file bytes time)) ↔
          ∃ time, w'.disk.get? (w'.disk.place o.workingDir ++ names) =
            some (.file bytes time) := by
  obtain ⟨options, now, runs, hgroups, hruns, rfl, hfits, hfilled⟩ :=
    first_pass hstore hsegs hjob hd hempty hpass
  have hcache : w₂.disk.Filled o.workingDir (runs.flatMap (Run.keeps m)) now := by
    refine ⟨⟨hd₂, hdir⟩, fun names bytes hlast => ?_, fun names e hne hlast hget => ?_⟩
    · rw [hsame names (hfits.names _ (mem_of_lastAt hlast)).1]
      exact hfilled.file names bytes hlast
    · rw [hsame names hne] at hget
      exact hfilled.other names e hne hlast hget
  -- The cache is listed as the bucket of what has been written, which holds the same runs.
  obtain ⟨xs, hitems, hxs, hlisted⟩ := Folder.items_of_filled hcache hfits hjob (by
    intro f hf hlogs
    obtain ⟨r, hr, hf⟩ := List.mem_flatMap.mp hf
    rw [← (hruns r hr).1]
    exact (hruns r hr).2.2.2.1.below_job_of_mem_keeps hf hlogs)
  have hgroups₂ : GroupsInto { window } w₂.now o.job xs runs := by
    refine groups_of_listed (fun r hr => (hruns r hr).2.2.2)
      (fun r hr => ⟨(hruns r hr).1, (hruns r hr).2.2.1⟩) hgroups
      (Memory.listing_sorted hsorted _) hxs hlisted (fun hne => ?_) rfl
    obtain ⟨y, hy⟩ := List.exists_mem_of_ne_nil xs hne
    obtain ⟨rel, bytes, hlast, _⟩ := (hlisted y).mp hy
    exact hwindow _ _ _ (hcache.file _ _ hlast)
  obtain ⟨w₃, hscan, hdisk₃, hnow₃, hquiet₃⟩ :=
    @scan_quiet (Folder.store o.workingDir) { window } o.job _ _ _ hquiet
      (by simp [Folder.store, ScanOptions.query, hitems]) hgroups₂
  have hstands : w₂.disk.Stands second := ⟨hd₂, hempty₂.isDir⟩
  have hfits₂ : FitsBelow second (runs.flatMap (Run.keeps m)) := by
    obtain ⟨_, _, hacc, _⟩ := hstands.walk
    refine ⟨fun f hf => ?_, hfits.apart⟩
    obtain ⟨hne, htakes⟩ := hfits.takes f hf
    exact ⟨hne, htakes.of_length hne hacc hlen⟩
  have hkept : ∀ r ∈ runs, (∀ p ∈ r.paths, "" ∉ Text.segments p) ∧ r.IsInside ∧
      ∃ desc, r.parsed? m = some desc := fun r hr => (hruns r hr).2.2
  have hans : ∀ done ⊆ runs, ∀ d',
      Wrote (targets second (done.flatMap (Run.keeps m))) w₂.now w₂.disk d' →
      ∀ r ∈ runs, (Folder.store o.workingDir).Answers m d' r.paths :=
    fun done hdone d' hwrote => hcache.answers hfits hempty₂ hkept hdone hwrote
  obtain ⟨told, w₂', hturn, hcount, hwrote⟩ := exists_inTurn hfits₂ hstands hopen hempty₂.empty
    (fun r hr => ⟨(hruns r hr).2.1, (hruns r hr).2.2.2⟩) hans
    (List.nil_subset _) (List.Subset.refl _) hnow₃ hquiet₃ (by
      rw [hdisk₃]
      exact .refl hd₂ _)
  have hpass₂ := runPass_of_inTurn
    (o := { job := o.job, workingDir := second, scan := { window } }) rfl hscan hturn
  rw [hcount] at hpass₂
  refine ⟨w₂', hpass₂, fun names bytes => ?_⟩
  have hfilled₂ := hwrote.filled hstands hempty₂.empty hfits₂.names
  rw [hfilled₂.file_iff, hfilled.file_iff]
  rfl

/-! ### One run, cached twice -/

namespace OneRun

/-- A bucket with one run: its descriptor, a test result and a log that is not kept. -/
def bucket : Memory where
  objects :=
    [("logs/job/1/artifacts/e2e/junit_a.xml", ⟨"<testsuite/>".toUTF8, 0⟩),
     ("logs/job/1/build-log.txt", ⟨"done".toUTF8, 0⟩),
     ("logs/job/1/prowjob.json", ⟨"\x7b\"metadata\":\x7b\"name\":\"nightly\"\x7d\x7d".toUTF8, 0⟩)]

/-- The first pass. -/
def pass : PassOptions where
  job := "job"
  workingDir := ⟨"/a"⟩

/-- Where the second pass caches the cache. -/
def second : Path := ⟨"/b"⟩

/-- The world before the first pass, with two empty directories. -/
def start : World := { disk := { entries := [(["a"], .dir false), (["b"], .dir false)] } }

/-- The world between the passes. -/
def between : World := (runPass bucket.store pass start).2

/-- What evaluation tells of the first pass. -/
theorem evaluated : (runPass bucket.store pass start).1.isOk = true ∧ between.IsQuiet ∧
    between.disk.place pass.workingDir = ["a"] ∧ between.disk.place second = ["b"] ∧
    between.disk.isDir second = true ∧
    (∀ e ∈ between.disk.entries, ["b"] <+: e.1 → e.1 = ["b"]) ∧
    (between.disk.entries.all fun e => match e.2 with
      | .file _ time => decide (between.now - time ≤ 0)
      | _ => true) = true ∧
    (match between.disk.get? (between.disk.place second) with
      | some (.dir closed) => !closed
      | _ => false) = true := by
  unfold World.IsQuiet
  decide +kernel

/-- The first pass succeeds. -/
theorem pass_ok : ∃ s, runPass bucket.store pass start = (.ok s, between) := by
  have hok := evaluated.1
  unfold between
  generalize runPass bucket.store pass start = first at hok ⊢
  obtain ⟨result, w⟩ := first
  cases result with
  | error e => cases hok
  | ok s => exact ⟨s, rfl⟩

/-- A disk is empty below a place that no key goes on from. -/
theorem empty_of_keys {d : Disk} {loc : Location}
    (h : ∀ e ∈ d.entries, loc <+: e.1 → e.1 = loc) {names : List String} (hne : names ≠ []) :
    d.get? (loc ++ names) = none := by
  cases hget : d.get? (loc ++ names) with
  | none => rfl
  | some e =>
    have hkey := h _ (Disk.mem_of_get (by simp [hne]) hget) (List.prefix_append _ _)
    exact absurd (List.append_right_eq_self.mp hkey) hne

theorem start_isTree : start.disk.IsTree := by
  have ha : (({} : Disk).put ([] ++ ["a"]) (.dir false)).IsTree :=
    Disk.IsTree.empty.put_new ⟨false, rfl⟩ rfl (by decide) rfl
  exact @Disk.IsTree.put_new _ (.dir false) [] "b" ha ⟨false, rfl⟩ rfl (by decide) rfl

theorem start_isEmptyDir : start.disk.IsEmptyDir pass.workingDir where
  isDir := by decide +kernel
  empty names hne := by
    have hplace : start.disk.place pass.workingDir = ["a"] := by decide +kernel
    rw [hplace]
    exact empty_of_keys (by decide +kernel) hne

theorem between_isEmptyDir : between.disk.IsEmptyDir second := by
  obtain ⟨_, _, _, hplace, hdir, hkeys, _⟩ := evaluated
  refine ⟨hdir, fun names hne => ?_⟩
  rw [hplace]
  exact empty_of_keys hkeys hne

theorem between_open : between.disk.get? (between.disk.place second) = some (.dir false) := by
  obtain ⟨_, _, _, _, _, _, _, hopen⟩ := evaluated
  split at hopen
  · next closed hget =>
    rw [hget, (Bool.not_eq_true' _).mp hopen]
  · cases hopen

end OneRun

/-- The cache of one run, cached once more: the same run is found in it and the same files are
    left. -/
theorem cached_again_one_run : ∃ s w', runPass OneRun.bucket.store OneRun.pass OneRun.start =
      (.ok s, OneRun.between) ∧
    runPass (Folder.store ⟨"/a"⟩) { job := "job", workingDir := ⟨"/b"⟩, scan := { window := 0 } }
      OneRun.between = (.ok s, w') ∧
    ∀ names bytes, (∃ time, w'.disk.get? (w'.disk.place ⟨"/b"⟩ ++ names) =
      some (.file bytes time)) ↔ ∃ time, OneRun.between.disk.get?
        (OneRun.between.disk.place ⟨"/a"⟩ ++ names) = some (.file bytes time) := by
  obtain ⟨s, hpass⟩ := OneRun.pass_ok
  have hsegs : ∀ e ∈ OneRun.bucket.objects, "" ∉ Text.segments e.1 := by decide +kernel
  have hjob : IsName OneRun.pass.job := by decide
  obtain ⟨_, _, _, _, _, _, _, hfilled⟩ := first_pass OneRun.bucket.store_serves hsegs hjob
    OneRun.start_isTree OneRun.start_isEmptyDir hpass
  obtain ⟨_, hquiet, hplace, _, _, _, htimes, _⟩ := OneRun.evaluated
  have hsorted : OneRun.bucket.objects.Sorted := by
    unfold Fields.Sorted
    decide +kernel
  obtain ⟨w', hagain, hfiles⟩ := cached_again OneRun.bucket.store_serves hsorted hsegs hjob
    OneRun.start_isTree OneRun.start_isEmptyDir hpass hfilled.stands.tree hquiet
    hfilled.stands.found (fun _ _ => rfl)
    (fun names bytes time hget => of_decide_eq_true
      (List.all_eq_true.mp htimes _ (Disk.mem_of_get (by simp [hplace]) hget)))
    OneRun.between_isEmptyDir OneRun.between_open (by decide +kernel)
  exact ⟨s, w', hpass, hagain, hfiles⟩

end RunCache
