import RunCache.Cache.Opened
import RunCache.Proofs.Cache.Contents
import RunCache.Proofs.Cache.Place
import RunCache.Proofs.Disk.Length
import RunCache.Proofs.Disk.Walk

/-! # Opening any cached run

    The directory of a run may hold more than has been written there, and
    need not have been written at all.  Opening finds all test results in
    it under the names that lead back to their files.

    * **`resultNames_of_ok`**: what opening finds among visits.
    * **`ObjectName.inRun`**, **`CachePath.ofObject_inRun`**: from a file to
      its name and back.
    * **`Disk.KeepsRun`**: disks that keep the directory of a run.
    * **`KeepsRun.openCache`**: what opening finds there.
    * **`KeepsRun.content`**: what is read by these names.
    * **`opened_reads_back`**: opening and reading.
    * **`opened_not_read`**: a test result whose path is too long. -/

namespace RunCache

open Text (joined segments)

/-! ## Visits -/

/-- The name of a test result that a visit shows. -/
def resultOf (jobDir : Path) (job : String) : Except WalkFault Visit → Option String
  | .ok v => resultName? jobDir job v
  | .error _ => none

/-- Where no visit is a fault, opening takes the names from all visits in turn. -/
theorem resultNames_of_ok (jobDir : Path) (job : String) {visits : List (Except WalkFault Visit)}
    (h : ∀ x ∈ visits, ∃ v, x = .ok v) :
    resultNames jobDir job visits = .ok (visits.filterMap (resultOf jobDir job)) := by
  induction visits with
  | nil => rfl
  | cons x rest ih =>
    obtain ⟨v, rfl⟩ := h x (by simp)
    rw [resultNames, ih fun x hx => h x (List.mem_cons_of_mem _ hx), List.filterMap_cons, resultOf]
    cases resultName? jobDir job v <;> rfl

/-- A file some names below the directory of a job has the name of an object of the job. -/
theorem bucketName_foldl_join {jobDir : Path} {job : String} {segs : List String}
    (hsegs : ∀ s ∈ segs, IsName s) :
    bucketName? jobDir job (segs.foldl Path.join jobDir) =
      some (Text.joined (ObjectName.logsRoot :: job :: segs)) := by
  have hparts := Path.parts_foldl_join (p := jobDir) hsegs
  rw [bucketName?, if_pos (Path.isBelow_of_parts hparts), hparts, List.drop_left]

/-! ## Names in the directory of a run -/

/-- The name in the bucket of what some names lead to from the directory of a run. -/
def ObjectName.inRun (job id : String) (rel : List String) : String :=
  joined (logsRoot :: job :: id :: rel)

/-- The directory of a run in a cache. -/
def CachePath.ofRun (root : Path) (job id : String) : Path := (ofJob root job).join id

theorem CachePath.ofRun_eq (root : Path) (job id : String) :
    ofRun root job id = [ObjectName.logsRoot, job, id].foldl Path.join root := rfl

section Names

variable {job id : String} {rel : List String}

theorem isName_of_mem_inRun (hjob : IsName job) (hid : IsName id) (hrel : ∀ s ∈ rel, IsName s) :
    ∀ s ∈ ObjectName.logsRoot :: job :: id :: rel, IsName s := by
  intro s hs
  simp only [List.mem_cons] at hs
  rcases hs with rfl | rfl | rfl | hs
  · exact CachePath.isName_logsRoot
  · exact hjob
  · exact hid
  · exact hrel s hs

theorem ObjectName.segments_inRun (hjob : IsName job) (hid : IsName id)
    (hrel : ∀ s ∈ rel, IsName s) : segments (inRun job id rel) = logsRoot :: job :: id :: rel :=
  Text.segments_joined (by simp) fun s hs => (isName_of_mem_inRun hjob hid hrel s hs).2.2.2

/-- Different files have different names. -/
theorem ObjectName.inRun_inj {rel' : List String} (hjob : IsName job) (hid : IsName id)
    (hrel : ∀ s ∈ rel, IsName s) (hrel' : ∀ s ∈ rel', IsName s)
    (h : inRun job id rel = inRun job id rel') : rel = rel' := by
  have hsegs := congrArg segments h
  rw [segments_inRun hjob hid hrel, segments_inRun hjob hid hrel'] at hsegs
  simpa using hsegs

/-- A name that is made of plain names stays inside. -/
theorem ObjectName.staysInside_of_segments {name : String} (h : ∀ s ∈ segments name, IsName s) :
    staysInside name = true := by
  have hne : name ≠ "" := by
    rintro rfl
    exact (h "" (by decide)).1 rfl
  simp only [staysInside, Bool.and_eq_true, Bool.not_eq_true', String.isEmpty_eq_false_iff,
    List.any_eq_false, Bool.or_eq_true, decide_eq_true_eq, not_or]
  exact ⟨hne, fun s hs => ⟨(h s hs).2.1, (h s hs).2.2.1⟩⟩

/-- A name leads back to the file it stands for. -/
theorem CachePath.ofObject_inRun (hjob : IsName job) (hid : IsName id) (hrel : ∀ s ∈ rel, IsName s)
    (root : Path) :
    ofObject root (ObjectName.inRun job id rel) = rel.foldl Path.join (ofRun root job id) := by
  have hnames := isName_of_mem_inRun hjob hid hrel
  have hsegs := ObjectName.segments_inRun hjob hid hrel
  have hfull : "" ∉ segments (ObjectName.inRun job id rel) := by
    rw [hsegs]
    exact fun hempty => (hnames "" hempty).1 rfl
  rw [ofObject_eq, ObjectName.steps_eq_segments hfull, hsegs]
  rfl

end Names

/-! ## The directory of a run -/

/-- A disk that keeps the directory of a run at a location, whatever links lead there. The job and
    the id of the run are plain names, and so is what has a name below the directory. -/
structure Disk.KeepsRun (d : Disk) (root : Path) (job id : String) (loc : Location) : Prop where
  jobName : IsName job
  idName : IsName id
  leads : d.LeadsTo (CachePath.ofRun root job id) loc
  names : ∀ rel e, d.get? (loc ++ rel) = some e → ∀ s ∈ rel, IsName s ∧ '\x00' ∉ s.toList

namespace Disk.KeepsRun

open CachePath (ofJob ofObject ofRun)
open ObjectName (inRun isTestResult)

variable {d : Disk} {root : Path} {job id : String} {loc : Location} {rel : List String} {e : Entry}
  {bytes : ByteArray} {time : Int}

theorem of_leadsTo (hnames : ∀ x ∈ d.entries, ∀ s ∈ x.1, IsName s ∧ '\x00' ∉ s.toList)
    (hjob : IsName job) (hid : IsName id) (h : d.LeadsTo (ofRun root job id) loc) :
    d.KeepsRun root job id loc := by
  refine ⟨hjob, hid, h, fun rel e hget s hs => ?_⟩
  have hloc := List.mem_append_right loc hs
  exact hnames _ (Disk.mem_of_get (List.ne_nil_of_mem hloc) hget) s hloc

/-- In a tree without links, with plain names, the directory of a run is at its own place. -/
theorem of_isTree (hd : d.IsTree)
    (hnames : ∀ x ∈ d.entries, ∀ s ∈ x.1, IsName s ∧ '\x00' ∉ s.toList) (hjob : IsName job)
    (hid : IsName id) (hdir : d.isDir (ofRun root job id) = true) :
    d.KeepsRun root job id (d.place (ofRun root job id)) :=
  .of_leadsTo hnames hjob hid (.of_isTree hd hdir)

theorem isName (h : d.KeepsRun root job id loc) (hget : d.get? (loc ++ rel) = some e) :
    ∀ s ∈ rel, IsName s := fun s hs => (h.names rel e hget s hs).1

/-! ### Opening -/

/-- A visit shows a test result if it is one of a file with such a name. -/
theorem resultOf_visit (h : d.KeepsRun root job id loc) (hget : d.get? (loc ++ rel) = some e)
    (p : String) :
    resultOf (ofJob root job) job
        (.ok ⟨rel.foldl Path.join (ofRun root job id), rel, e⟩) = some p ↔
      e.isFile = true ∧ isTestResult p = true ∧ p = inRun job id rel := by
  have hsegs : ∀ s ∈ id :: rel, IsName s := by
    simpa using ⟨h.idName, h.isName hget⟩
  have hbucket : bucketName? (ofJob root job) job
      (rel.foldl Path.join (ofRun root job id)) = some (inRun job id rel) := by
    rw [inRun, ← @bucketName_foldl_join (ofJob root job) job _ hsegs, List.foldl_cons,
      ofRun]
  rw [resultOf, resultName?, hbucket]
  by_cases hfile : e.isFile = true
  · rw [if_pos hfile, Option.filter_eq_some_iff, Option.some_inj]
    constructor
    · rintro ⟨rfl, htest⟩
      exact ⟨hfile, htest, rfl⟩
    · rintro ⟨_, htest, rfl⟩
      exact ⟨rfl, htest⟩
  · simp [hfile]

/-- A visit that shows a test result is one of a file in the directory. -/
theorem file_of_resultOf (h : d.KeepsRun root job id loc)
    (hwalks : d.WalksFiles (ofRun root job id) loc) {x : Except WalkFault Visit} {p : String}
    (hx : x ∈ d.walk (ofRun root job id)) (hp : resultOf (ofJob root job) job x = some p) :
    ∃ rel bytes time, d.get? (loc ++ rel) = some (.file bytes time) ∧
      x = .ok ⟨rel.foldl Path.join (ofRun root job id), rel, .file bytes time⟩ ∧
      isTestResult p = true ∧ p = inRun job id rel := by
  obtain ⟨rel, e, rfl, hget⟩ := hwalks.visits x hx
  have hfile : e.isFile = true := by
    cases hfile : e.isFile with
    | true => rfl
    | false => simp [resultOf, resultName?, hfile] at hp
  obtain ⟨bytes, time, rfl⟩ := Entry.eq_file_of_isFile hfile
  obtain ⟨_, htest, hname⟩ := (h.resultOf_visit (hget rfl) p).mp hp
  exact ⟨rel, bytes, time, hget rfl, rfl, htest, hname⟩

/-- The walk finds the test results in the directory, each once. -/
theorem resultNames (h : d.KeepsRun root job id loc)
    (hwalk : ∀ x ∈ d.walk (ofRun root job id), ∃ v, x = .ok v) :
    ∃ names, RunCache.resultNames (ofJob root job) job (d.walk (ofRun root job id)) = .ok names ∧
      names.Nodup ∧ ∀ p, p ∈ names ↔ isTestResult p = true ∧
        ∃ rel bytes time, d.get? (loc ++ rel) = some (.file bytes time) ∧ p = inRun job id rel := by
  have hwalks := h.leads.walksFiles hwalk
  refine ⟨_, resultNames_of_ok _ _ hwalk, ?_, fun p => ?_⟩
  · -- No place is visited twice, and different places have different names.
    refine List.pairwise_filterMap.mpr (hwalks.nodup.imp_of_mem fun hx hy hne p hp q hq => ?_)
    obtain ⟨rel, bytes, time, hget, rfl, _, rfl⟩ := h.file_of_resultOf hwalks hx hp
    obtain ⟨rel', bytes', time', hget', rfl, _, rfl⟩ := h.file_of_resultOf hwalks hy hq
    intro heq
    obtain rfl := ObjectName.inRun_inj h.jobName h.idName (h.isName hget) (h.isName hget') heq
    rw [hget, Option.some_inj] at hget'
    exact hne (by rw [hget'])
  · rw [List.mem_filterMap]
    constructor
    · rintro ⟨x, hx, hp⟩
      obtain ⟨rel, bytes, time, hget, _, htest, hname⟩ := h.file_of_resultOf hwalks hx hp
      exact ⟨htest, rel, bytes, time, hget, hname⟩
    · rintro ⟨htest, rel, bytes, time, hget, hname⟩
      exact ⟨_, hwalks.files rel bytes time hget,
        (h.resultOf_visit hget p).mpr ⟨rfl, htest, hname⟩⟩

/-- Opening finds the test results in the directory, each once. -/
theorem openCache (h : d.KeepsRun root job id loc)
    (hwalk : ∀ x ∈ d.walk (ofRun root job id), ∃ v, x = .ok v) :
    ∃ names, Run.openCache d root job id =
        .ok { job, id, descriptorPath := some (ObjectName.ofDescriptor job id),
              resultPaths := names, origin := .cache root } ∧
      names.Nodup ∧ ∀ p, p ∈ names ↔ isTestResult p = true ∧
        ∃ rel bytes time, d.get? (loc ++ rel) = some (.file bytes time) ∧ p = inRun job id rel := by
  obtain ⟨names, hnames, hnodup, hmem⟩ := h.resultNames hwalk
  refine ⟨names, ?_, hnodup, hmem⟩
  rw [Run.openCache]
  exact congrArg (Except.map _) hnames

/-! ### Reading -/

/-- A file in the directory is found by its path, unless that is too long. -/
theorem readFile (h : d.KeepsRun root job id loc)
    (hget : d.get? (loc ++ rel) = some (.file bytes time)) :
    d.readFile (rel.foldl Path.join (ofRun root job id)) =
      if (rel.foldl Path.join (ofRun root job id)).text.utf8ByteSize < pathLimit then
        .ok bytes
      else .error .nameTooLong := by
  obtain ⟨closed, hdir⟩ := h.leads.dir
  have hnames := h.isName hget
  have hacc := accept_foldl_join h.leads.taken (h.names _ _ hget)
  by_cases hlong : (rel.foldl Path.join (ofRun root job id)).text.utf8ByteSize < pathLimit
  · rw [if_pos hlong] at hacc ⊢
    -- The directory itself is no file, so the path ends with a name.
    have hne : rel ≠ [] := by
      rintro rfl
      rw [List.append_nil, hdir] at hget
      cases hget
    have hslash := Path.endsWithSlash_foldl_join (p := ofRun root job id) hnames hne
    have hstat := h.leads.stat_below hne hnames (Path.isAbsolute_foldl_join hnames)
      (steps_foldl_join hnames _) hacc (fun hend => by rw [hslash] at hend; cases hend) hget true
    rw [Disk.readFile, hstat]
  · rw [if_neg hlong] at hacc ⊢
    simp [Disk.readFile, stat, lookup, locate, hacc]

/-- In a quiet world a run that has been opened reads the bytes that the file holds by then. -/
theorem content {w : World} {s : Run} (h : w.disk.KeepsRun root job id loc) (store : Store)
    (hs : s.origin = .cache root) (hquiet : w.IsQuiet)
    (hget : w.disk.get? (loc ++ rel) = some (.file bytes time)) :
    (s.content store (inRun job id rel) w).1 =
      if (ofObject root (inRun job id rel)).text.utf8ByteSize < pathLimit then .ok bytes
      else .error (.fetch (inRun job id rel) "File name too long (os error 36)") := by
  have hnames := h.isName hget
  have hstays : ObjectName.staysInside (inRun job id rel) = true := by
    refine ObjectName.staysInside_of_segments ?_
    rw [ObjectName.segments_inRun h.jobName h.idName hnames]
    exact isName_of_mem_inRun h.jobName h.idName hnames
  obtain ⟨w', hcall, _⟩ := hquiet.call (.openFile (ofObject root (inRun job id rel)))
    (Run.openCached w.disk root (inRun job id rel))
  rw [Run.content_opens store hs hstays, hcall, Run.openCached,
    CachePath.ofObject_inRun h.jobName h.idName hnames, h.readFile hget]
  by_cases hlong : (rel.foldl Path.join (ofRun root job id)).text.utf8ByteSize < pathLimit
  · simp only [if_pos hlong]
  · simp only [if_neg hlong, Fault.message]

end Disk.KeepsRun

/-! ## Opening and reading -/

/-- Opening a run whose directory can be walked finds the test results below the directory, each
    once, under the names that lead back to their files. What is read by these names then is what
    the files hold at that time. Only a file whose path is too long for the system is not read: a
    walk opens directories and no files. -/
theorem opened_reads_back {d : Disk} {root : Path} {job id : String} {loc : Location}
    (h : d.KeepsRun root job id loc)
    (hwalk : ∀ x ∈ d.walk (CachePath.ofRun root job id), ∃ v, x = .ok v) :
    ∃ s, Run.openCache d root job id = .ok s ∧ s.resultPaths.Nodup ∧
      (∀ p, p ∈ s.resultPaths ↔ ObjectName.isTestResult p = true ∧ ∃ rel bytes time,
        d.get? (loc ++ rel) = some (.file bytes time) ∧ p = ObjectName.inRun job id rel) ∧
      ∀ (store : Store) (w : World) (loc' : Location) (rel : List String) bytes time, w.IsQuiet →
        w.disk.KeepsRun root job id loc' →
        w.disk.get? (loc' ++ rel) = some (.file bytes time) →
        (s.content store (ObjectName.inRun job id rel) w).1 =
        if (CachePath.ofObject root (ObjectName.inRun job id rel)).text.utf8ByteSize <
            Disk.pathLimit then .ok bytes
        else .error (.fetch (ObjectName.inRun job id rel) "File name too long (os error 36)") := by
  obtain ⟨names, hopen, hnodup, hmem⟩ := h.openCache hwalk
  refine ⟨_, hopen, hnodup, hmem, fun store w loc' rel bytes time hquiet hkeeps hget => ?_⟩
  exact hkeeps.content store rfl hquiet hget

/-! ### A run that changes after it has been opened -/

namespace Rewritten

/-- A run with a test result and a file that is none. -/
def disk : Disk where
  entries :=
    [(["w"], .dir false), (["w", "logs"], .dir false), (["w", "logs", "job"], .dir false),
      (["w", "logs", "job", "1"], .dir false), (["w", "logs", "job", "1", "a"], .dir false),
      (["w", "logs", "job", "1", "a", "junit_x.xml"], .file "one".toUTF8 0),
      (["w", "logs", "job", "1", "notes.xml"], .file "two".toUTF8 0)]

/-- The test result is written anew. -/
def later : Disk :=
  disk.put ["w", "logs", "job", "1", "a", "junit_x.xml"] (.file "three".toUTF8 1)

theorem keepsRun : disk.KeepsRun ⟨"/w"⟩ "job" "1" ["w", "logs", "job", "1"] :=
  .of_isTree (.of_entries (by decide) (by decide) (by decide))
    (by decide) (by decide) (by decide) (by decide)

theorem later_keepsRun : later.KeepsRun ⟨"/w"⟩ "job" "1" ["w", "logs", "job", "1"] :=
  .of_isTree (.of_entries (by decide) (by decide) (by decide))
    (by decide) (by decide) (by decide) (by decide)

end Rewritten

/-- The test result is found, the other file is not, and what is read is what is there by then. -/
theorem opened_reads_back_rewritten :
    ∃ s, Run.openCache Rewritten.disk ⟨"/w"⟩ "job" "1" = .ok s ∧
      "logs/job/1/a/junit_x.xml" ∈ s.resultPaths ∧ "logs/job/1/notes.xml" ∉ s.resultPaths ∧
      ∀ store, (s.content store "logs/job/1/a/junit_x.xml" { disk := Rewritten.later }).1 =
        .ok "three".toUTF8 := by
  have hwalk := Rewritten.keepsRun.leads.walk_ok_of_entries (by simp) (by decide)
  obtain ⟨s, hopen, _, hmem, hread⟩ := opened_reads_back Rewritten.keepsRun hwalk
  refine ⟨s, hopen, (hmem _).mpr ⟨by decide, ["a", "junit_x.xml"], _, _, rfl, by decide⟩, ?_,
    fun store => ?_⟩
  · intro hin
    have htest : ObjectName.isTestResult "logs/job/1/notes.xml" = true := ((hmem _).mp hin).1
    exact absurd htest (by decide)
  · have hlater := hread store { disk := Rewritten.later } _ ["a", "junit_x.xml"]
      "three".toUTF8 1 ⟨rfl, rfl⟩ Rewritten.later_keepsRun rfl
    rwa [if_pos (by decide)] at hlater

/-! ### A path that is too long -/

namespace TooLong

/-- A run with one test result. -/
def disk : Disk where
  entries :=
    [(["w"], .dir false), (["w", "logs"], .dir false), (["w", "logs", "job"], .dir false),
      (["w", "logs", "job", "1"], .dir false),
      (["w", "logs", "job", "1", "junit.xml"], .file "one".toUTF8 0)]

theorem disk_isTree : disk.IsTree :=
  .of_entries (by decide) (by decide) (by decide)

/-- No directory but that of the run itself lies there. -/
theorem dirs_below : ∀ x ∈ disk.entries, ["w", "logs", "job", "1"] <+: x.1 → x.2.isDir = true →
    x.1.drop ["w", "logs", "job", "1"].length = [] := by
  decide

variable {n : Nat}

/-- The directory of the run is found by its path, if the system takes that. -/
theorem leadsTo_ofRun (hn : n ≠ 0) (h : n + 12 < Disk.pathLimit) :
    disk.LeadsTo (CachePath.ofRun (root n) "job" "1") ["w", "logs", "job", "1"] := by
  have hsize : (joined [ObjectName.logsRoot, "job", "1"]).utf8ByteSize = 10 := by decide
  have hshort : n + 2 + (joined [ObjectName.logsRoot, "job", "1"]).utf8ByteSize < Disk.pathLimit := by
    omega
  rw [CachePath.ofRun_eq]
  exact leadsTo disk_isTree hn (by simp) (by decide) hshort ⟨false, rfl⟩

/-- The path of the test result is longer than that of the directory. -/
theorem size_result (hn : n ≠ 0) :
    (CachePath.ofObject (root n) "logs/job/1/junit.xml").text.utf8ByteSize = n + 22 := by
  have hsize : (joined [ObjectName.logsRoot, "job", "1", "junit.xml"]).utf8ByteSize = 20 := by
    decide
  have hsteps : ObjectName.steps "logs/job/1/junit.xml" =
      [ObjectName.logsRoot, "job", "1", "junit.xml"] := by decide
  rw [CachePath.ofObject_eq, hsteps, size_below hn (by decide) (by simp), hsize]

end TooLong

/-- A test result is found in a directory whose path the system takes, and is not read there, since
    its own path is too long. -/
theorem opened_not_read :
    TooLong.disk.IsTree ∧ IsName "job" ∧ IsName "1" ∧
      TooLong.disk.isDir (CachePath.ofRun (TooLong.root 4078) "job" "1") = true ∧
      (∀ x ∈ TooLong.disk.walk (CachePath.ofRun (TooLong.root 4078) "job" "1"), ∃ v, x = .ok v) ∧
      TooLong.disk.get? ["w", "logs", "job", "1", "junit.xml"] = some (.file "one".toUTF8 0) ∧
      ∃ s, Run.openCache TooLong.disk (TooLong.root 4078) "job" "1" = .ok s ∧
        "logs/job/1/junit.xml" ∈ s.resultPaths ∧
        ∀ store, (s.content store "logs/job/1/junit.xml" { disk := TooLong.disk }).1 =
          .error (.fetch "logs/job/1/junit.xml" "File name too long (os error 36)") := by
  have hn : 4078 ≠ 0 := by decide
  have hleads := TooLong.leadsTo_ofRun hn (by decide)
  have hkeeps : TooLong.disk.KeepsRun (TooLong.root 4078) "job" "1" ["w", "logs", "job", "1"] :=
    .of_leadsTo (by decide) (by decide) (by decide) hleads
  have hwalk := hleads.walk_ok_of_entries (by simp) fun x hx hpre hisDir => by
    rw [TooLong.dirs_below x hx hpre hisDir, List.foldl_nil]
    exact hleads.taken
  obtain ⟨names, hopen, _, hmem⟩ := hkeeps.openCache hwalk
  refine ⟨TooLong.disk_isTree, by decide, by decide, hleads.isDir, hwalk, rfl, _, hopen,
    (hmem _).mpr ⟨by decide, ["junit.xml"], _, _, rfl, by decide⟩, fun store => ?_⟩
  have hname : ObjectName.inRun "job" "1" ["junit.xml"] = "logs/job/1/junit.xml" := by decide
  have hread : ∀ s : Run, s.origin = .cache (TooLong.root 4078) →
      (s.content store "logs/job/1/junit.xml" { disk := TooLong.disk }).1 =
        .error (.fetch "logs/job/1/junit.xml" "File name too long (os error 36)") := by
    intro s hs
    have hcontent := @Disk.KeepsRun.content _ _ _ _ ["junit.xml"] _ _ { disk := TooLong.disk } s
      hkeeps store hs ⟨rfl, rfl⟩ rfl
    rw [hname, TooLong.size_result hn, if_neg (by decide)] at hcontent
    exact hcontent
  exact hread _ rfl

end RunCache
