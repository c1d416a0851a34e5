import RunCache.Cache.Index
import RunCache.Cache.Pass
import RunCache.Proofs.Script.Basic

/-! # The scripts of the operations

    Each operation is written down as a script, which does with a store
    what the operation does.

    * **`Run.contentScript`**, **`Run.descriptorScript`**,
      **`Run.contentsScript`**, **`Run.writeScript`**: those of a run.
    * **`scanScript`**, **`passScript`**: those of a job.
    * **`reindexScript`**: rebuilding the by-name index. -/

namespace RunCache

/-! ## Runs -/

/-- What an operation of a run leaves: result and run, and the world. -/
def Outcome.split {α : Type} (x : Outcome α) : (Except Error α × Run) × World :=
  ((x.1, x.2.1), x.2.2)

/-- Writes files to the disk. -/
def writeAllScript (files : List (Path × ByteArray)) : Script (Except Error Unit) :=
  .onDisk (fun d now => (writeAll d now files).2) fun d now => .done (writeAll d now files).1

@[simp] theorem writeAllScript_run (store : Store) (files : List (Path × ByteArray)) (w : World) :
    (writeAllScript files).run store w = w.writeAll files := rfl

namespace Run

/-- Reads the bytes of one path. -/
def contentScript (path : String) (r : Run) : Script (Except Error ByteArray × Run) :=
  if path.isEmpty then .done (.error .emptyPath, r)
  else match r.origin with
    | .bucket memo =>
      match memo.get? path with
      | some bytes => .done (.ok bytes, r)
      | none => .heed (.read path) fun
        | .error e => .done (.error e, r)
        | .ok bytes => .done (.ok bytes, { r with origin := .bucket (memo.insert path bytes) })
    | .cache root =>
      if !ObjectName.staysInside path then
        .done (.error (.fetch path "path escapes the working directory"), r)
      else .heed (.openFile root path) fun answer => .done (answer, r)

/-- Reads the descriptor. -/
def descriptorScript (r : Run) : Script (Except Error Descriptor × Run) :=
  match r.descriptorPath with
  | none => .done (.error (.noDescriptorPath r.id), r)
  | some path => (r.contentScript path).bind fun
    | (.error e, r) => .done (.error e, r)
    | (.ok bytes, r) => .done (parseDescriptor bytes, r)

/-- Reads paths one after the other. -/
def sweepScript : List String → Failures → Fields ByteArray → Run →
    Script (Except Error (Fields ByteArray) × Run)
  | [], failures, contents, r => .done (failures.check.map fun _ => contents, r)
  | path :: paths, failures, contents, r => (r.contentScript path).bind fun
    | (.ok bytes, r) => sweepScript paths failures.countTry (contents.insert path bytes) r
    | (.error .cancelled, r) => .done (.error .cancelled, r)
    | (.error e, r) => sweepScript paths (failures.countTry.add path e) contents r

/-- Reads the bytes of all paths. -/
def contentsScript (r : Run) : Script (Except Error (Fields ByteArray) × Run) :=
  match r.descriptorPath with
  | none => .done (.error (.noDescriptorPath r.id), r)
  | some _ => sweepScript r.paths {} [] r

/-- Writes a run whose contents have been read. -/
def writeContentsScript (root : Path) (r : Run) (d : Descriptor) (contents : Fields ByteArray) :
    Script (Except Error Written) :=
  match escaping? contents with
  | some name =>
    .done (.error (.write (CachePath.ofObject root name).text (.other escapeText)))
  | none => (writeAllScript (r.files root d contents)).bind fun
    | .error e => .done (.error e)
    | .ok () => .done (.ok ⟨(r.files root d contents).length, indexPlace? root r.job d⟩)

/-- Writes a run. -/
def writeScript (root : Path) (r : Run) : Script (Except Error Written × Run) :=
  r.descriptorScript.bind fun
    | (.error e, r) => .done (.error e, r)
    | (.ok d, r) => r.contentsScript.bind fun
      | (.error e, r) => .done (.error e, r)
      | (.ok contents, r) => (r.writeContentsScript root d contents).bind fun result =>
        .done (result, r)

variable {store : Store} {root : Path} {r : Run} {w : World}

theorem contentScript_run (store : Store) (path : String) (r : Run) (w : World) :
    (r.contentScript path).run store w = (r.content store path w).split := by
  unfold contentScript content
  by_cases hpath : path.isEmpty = true
  · rw [if_pos hpath, if_pos hpath]
    rfl
  · rw [if_neg hpath, if_neg hpath]
    cases r.origin with
    | bucket memo =>
      simp only [bucketContent]
      cases memo.get? path with
      | some bytes => rfl
      | none =>
        simp only [Script.run, World.pass]
        rcases w.read store path with ⟨e | bytes, w'⟩
        · rfl
        · rfl
    | cache root =>
      simp only [cachedContent]
      by_cases hstays : (!ObjectName.staysInside path) = true
      · rw [if_pos hstays, if_pos hstays]
        rfl
      · rw [if_neg hstays, if_neg hstays]
        rfl

theorem descriptorScript_run (store : Store) (r : Run) (w : World) :
    r.descriptorScript.run store w = (r.descriptor store w).split := by
  unfold descriptorScript descriptor
  cases r.descriptorPath with
  | none => rfl
  | some path =>
    simp only [Script.run_bind, contentScript_run]
    rcases r.content store path w with ⟨e | bytes, r', w'⟩
    · rfl
    · rfl

theorem sweepScript_run (store : Store) (paths : List String) (failures : Failures)
    (contents : Fields ByteArray) (r : Run) (w : World) :
    (sweepScript paths failures contents r).run store w =
      (sweep store paths failures contents r w).split := by
  induction paths generalizing failures contents r w with
  | nil => rfl
  | cons path rest ih =>
    unfold sweepScript sweep
    rw [Script.run_bind, contentScript_run]
    rcases r.content store path w with ⟨e | bytes, r', w'⟩
    · cases e with
      | cancelled => rfl
      | _ => exact ih _ _ _ _
    · exact ih _ _ _ _

theorem contentsScript_run (store : Store) (r : Run) (w : World) :
    r.contentsScript.run store w = (r.contents store w).split := by
  unfold contentsScript contents
  cases r.descriptorPath with
  | none => rfl
  | some path => exact sweepScript_run store r.paths {} [] r w

theorem writeContentsScript_run (store : Store) (root : Path) (r : Run) (d : Descriptor)
    (contents : Fields ByteArray) (w : World) :
    (r.writeContentsScript root d contents).run store w = r.writeContents root d contents w := by
  unfold writeContentsScript writeContents
  cases escaping? contents with
  | some name => rfl
  | none =>
    simp only [Script.run_bind, writeAllScript_run]
    rcases w.writeAll (r.files root d contents) with ⟨e | _, w'⟩
    · rfl
    · rfl

theorem writeScript_run (store : Store) (root : Path) (r : Run) (w : World) :
    (r.writeScript root).run store w = (r.write store root w).split := by
  unfold writeScript write
  rw [Script.run_bind, descriptorScript_run]
  rcases r.descriptor store w with ⟨e | d, r', w'⟩
  · rfl
  · show Script.run store (r'.contentsScript.bind _) w' = _
    rw [Script.run_bind, contentsScript_run]
    simp only
    rcases r'.contents store w' with ⟨e | contents, r'', w''⟩
    · rfl
    · show Script.run store ((r''.writeContentsScript root d contents).bind _) w'' = _
      rw [Script.run_bind, writeContentsScript_run]
      rfl

end Run

/-! ## Scans -/

/-- Takes the items of a listing in turn. -/
def takeItemsScript (o : ScanOptions) (job : String) (now : Int) :
    List Delivery → Grouping → Script (Grouping × Option Error)
  | [], g => .heed .lastItem fun
    | .error e => .done (g, some e)
    | .ok _ => .done (g, none)
  | x :: rest, g => .heed (.item x) fun
    | .error e => .done (g, some e)
    | .ok _ =>
      match x.item with
      | .error e => .done (g, some e)
      | .ok object => takeItemsScript o job now rest (g.add o job now object)

/-- What a scan comes to when it has taken items. -/
def scanned (job : String) : Grouping × Option Error → Except BrokenScan (List Run)
  | (g, some source) => .error ⟨job, g.complete, source⟩
  | (g, none) => .ok g.complete

/-- Scans a job at a time. -/
def scanAtScript (o : ScanOptions) (job : String) (now : Int) :
    Script (Except BrokenScan (List Run)) :=
  .heed (.list (o.query job)) fun
    | .error source => .done (.error ⟨job, [], source⟩)
    | .ok items => (takeItemsScript o job now items []).bind fun taken => .done (scanned job taken)

/-- Scans a job. -/
def scanScript (o : ScanOptions) (job : String) : Script (Except BrokenScan (List Run)) :=
  .onDisk (fun d _ => d) fun _ now => scanAtScript o job now

theorem takeItemsScript_run (store : Store) (o : ScanOptions) (job : String)
    (items : List Delivery) (g : Grouping) (w : World) :
    (takeItemsScript o job w.now items g).run store w =
      (((takeItems o job items g w).1, (takeItems o job items g w).2.1),
        (takeItems o job items g w).2.2) := by
  induction items generalizing g w with
  | nil =>
    unfold takeItemsScript takeItems
    simp only [Script.run, World.pass]
    by_cases hw : w.signal.fired = true
    · rw [if_pos hw, if_pos hw]
      rfl
    · rw [if_neg hw, if_neg hw]
      rfl
  | cons x rest ih =>
    unfold takeItemsScript takeItems
    simp only [Script.run, World.pass]
    by_cases hw : w.signal.fired = true
    · rw [if_pos hw, if_pos hw]
      rfl
    · rw [if_neg hw, if_neg hw]
      -- The signal may fire with an item, and that does not change the time.
      have hnow : (if x.fires then w.fire else w).now = w.now := by
        split
        · exact w.fire_now
        · rfl
      simp only
      rw [← hnow]
      cases x.item with
      | error e => rfl
      | ok object => exact ih _ _

theorem scanAtScript_run (store : Store) (o : ScanOptions) (job : String) (w : World) :
    (scanAtScript o job w.now).run store w = scan store o job w := by
  unfold scanAtScript scan
  have hnow : (w.list store (o.query job)).2.now = w.now := (w.list_calls store _).now
  simp only [Script.run, World.pass]
  rw [← hnow]
  rcases w.list store (o.query job) with ⟨e | items, w'⟩
  · rfl
  · simp only [Script.run_bind, takeItemsScript_run]
    rcases takeItems o job items [] w' with ⟨g, _ | e, w''⟩
    · rfl
    · rfl

theorem scanScript_run (store : Store) (o : ScanOptions) (job : String) (w : World) :
    (scanScript o job).run store w = scan store o job w :=
  scanAtScript_run store o job w

/-! ## Passes -/

/-- Writes runs in turn, counting on from a summary. -/
def writeRunsScript (root : Path) : List Run → Summary → Script (Except Error Summary)
  | [], s => .done (.ok s)
  | r :: runs, s => (r.writeScript root).bind fun
    | (.error e, _) => .done (.error e)
    | (.ok written, _) =>
      writeRunsScript root runs
        { s with
          cached := s.cached + 1
          indexed := s.indexed + written.byName.toList.length }

/-- Writes the runs of a scan and ends with its error, if it has one. -/
def cacheRunsScript (root : Path) (runs : List Run) (broken : Option Error) :
    Script (Except Error Summary) :=
  (writeRunsScript root runs ⟨runs.length, 0, 0⟩).bind fun
    | .error e => .done (.error e)
    | .ok s =>
      match broken with
      | some e => .done (.error e)
      | none => .done (.ok s)

/-- Caches the runs of a job. -/
def passScript (o : PassOptions) : Script (Except Error Summary) :=
  .onDisk (fun d _ => d) fun d _ =>
    match o.scanOptions d with
    | .error e => .done (.error e)
    | .ok options => (scanScript options o.job).bind fun
      | .ok runs => cacheRunsScript o.workingDir runs none
      | .error e =>
        if e.source.isCancelled then .done (.error e.source)
        else cacheRunsScript o.workingDir e.runs (some e.source)

theorem writeRunsScript_run (store : Store) (root : Path) (runs : List Run) (s : Summary)
    (w : World) : (writeRunsScript root runs s).run store w = writeRuns store root runs s w := by
  induction runs generalizing s w with
  | nil => rfl
  | cons r runs ih =>
    unfold writeRunsScript writeRuns
    rw [Script.run_bind, Run.writeScript_run]
    rcases r.write store root w with ⟨e | written, r', w'⟩
    · rfl
    · exact ih _ _

theorem cacheRunsScript_run (store : Store) (root : Path) (runs : List Run)
    (broken : Option Error) (w : World) :
    (cacheRunsScript root runs broken).run store w = cacheRuns store root runs broken w := by
  unfold cacheRunsScript cacheRuns
  rw [Script.run_bind, writeRunsScript_run]
  rcases writeRuns store root runs ⟨runs.length, 0, 0⟩ w with ⟨e | s, w'⟩
  · rfl
  · cases broken with
    | some e => rfl
    | none => rfl

theorem passScript_run (store : Store) (o : PassOptions) (w : World) :
    (passScript o).run store w = runPass store o w := by
  unfold passScript runPass
  simp only [Script.run]
  cases o.scanOptions w.disk with
  | error e => rfl
  | ok options =>
    simp only [Script.run_bind, scanScript_run]
    rcases scan store options o.job w with ⟨e | runs, w'⟩
    · simp only
      split
      · rfl
      · exact cacheRunsScript_run store _ _ _ _
    · exact cacheRunsScript_run store _ _ _ _

/-! ## The by-name index -/

theorem Run.openCache_origin {d : Disk} {root : Path} {job id : String} {r : Run}
    (h : Run.openCache d root job id = .ok r) : r.origin = .cache root := by
  simp only [Run.openCache] at h
  cases hnames : resultNames (CachePath.ofJob root job) job
      (d.walk ((CachePath.ofJob root job).join id)) with
  | error e =>
    rw [hnames] at h
    cases h
  | ok names =>
    rw [hnames] at h
    obtain rfl := Except.ok.inj h
    rfl

/-- A cached run does not ask the store. -/
theorem Run.descriptor_of_cache {r : Run} {root : Path} (hr : r.origin = .cache root)
    (store : Store) (w : World) : r.descriptor store w = r.descriptor noStore w := by
  unfold Run.descriptor Run.content
  rw [hr]

/-- Writes the entry of a descriptor in the by-name index, if it has one. -/
def writeIndexScript (root : Path) (job : String) (d : Descriptor) :
    Script (Except Error (Option Path)) :=
  match indexPlace? root job d with
  | none => .done (.ok none)
  | some target => (writeAllScript [(target, d.render)]).bind fun
    | .error e => .done (.error e)
    | .ok () => .done (.ok (some target))

/-- Writes the entry of a cached run, if it has one. -/
def indexRunScript (root : Path) (job id : String) : Script (Except Error (Option Path)) :=
  .onDisk (fun d _ => d) fun d _ =>
    match Run.openCache d root job id with
    | .error e => .done (.error e)
    | .ok r => r.descriptorScript.bind fun
      | (.error (.noSuchObject _), _) => .done (.ok none)
      | (.error e, _) => .done (.error e)
      | (.ok d, _) => writeIndexScript root job d

/-- Writes the entries of cached runs in turn. -/
def indexRunsScript (root : Path) (job : String) :
    List String → (indexed : Nat) → Script (Except Error Nat)
  | [], indexed => .done (.ok indexed)
  | id :: ids, indexed => .heed (.entry id) fun
    | .error e => .done (.error e)
    | .ok _ => (indexRunScript root job id).bind fun
      | .error e => .done (.error e)
      | .ok entry => indexRunsScript root job ids (indexed + entry.toList.length)

/-- Writes the entries of all cached runs of a job and counts them. -/
def reindexScript (root : Path) (job : String) : Script (Except Error Nat) :=
  .onDisk (fun d _ => d) fun d _ =>
    match cachedIds d root job with
    | .error e => .done (.error e)
    | .ok ids => indexRunsScript root job ids 0

theorem writeIndexScript_run (store : Store) (root : Path) (job : String) (d : Descriptor)
    (w : World) : (writeIndexScript root job d).run store w = writeIndex root job d w := by
  unfold writeIndexScript writeIndex
  cases indexPlace? root job d with
  | none => rfl
  | some target =>
    simp only [Script.run_bind, writeAllScript_run]
    rcases w.writeAll [(target, d.render)] with ⟨e | _, w'⟩
    · rfl
    · rfl

theorem indexRunScript_run (store : Store) (root : Path) (job id : String) (w : World) :
    (indexRunScript root job id).run store w = indexRun root job id w := by
  unfold indexRunScript indexRun
  simp only [Script.run]
  cases hopen : Run.openCache w.disk root job id with
  | error e => rfl
  | ok r =>
    simp only [Script.run_bind, Run.descriptorScript_run,
      Run.descriptor_of_cache (Run.openCache_origin hopen) store]
    rcases r.descriptor noStore w with ⟨e | d, r', w'⟩
    · cases e with
      | _ => rfl
    · exact writeIndexScript_run store root job d w'

section Unfolding

-- One step of the loop is to be seen, and not what it does with its run.
attribute [local irreducible] indexRun

theorem indexRuns_cons (root : Path) (job id : String) (ids : List String) (indexed : Nat)
    (w : World) : indexRuns root job (id :: ids) indexed w =
      if w.signal.fired then (.error .cancelled, w)
      else match indexRun root job id (w.note (.indexRun id)) with
        | (.error e, w) => (.error e, w)
        | (.ok entry, w) => indexRuns root job ids (indexed + entry.toList.length) w := rfl

end Unfolding

theorem indexRunsScript_run (store : Store) (root : Path) (job : String) (ids : List String)
    (indexed : Nat) (w : World) :
    (indexRunsScript root job ids indexed).run store w = indexRuns root job ids indexed w := by
  induction ids generalizing indexed w with
  | nil => rfl
  | cons id ids ih =>
    rw [indexRuns_cons]
    unfold indexRunsScript
    simp only [Script.run, World.pass]
    by_cases hw : w.signal.fired = true
    · rw [if_pos hw, if_pos hw]
      rfl
    · rw [if_neg hw, if_neg hw]
      simp only [Script.run_bind, indexRunScript_run]
      rcases indexRun root job id (w.note (.indexRun id)) with ⟨e | entry, w'⟩
      · rfl
      · exact ih _ _

theorem reindexScript_run (store : Store) (root : Path) (job : String) (w : World) :
    (reindexScript root job).run store w = reindex root job w := by
  unfold reindexScript reindex
  simp only [Script.run]
  cases cachedIds w.disk root job with
  | error e => rfl
  | ok ids => exact indexRunsScript_run store root job ids 0 w

end RunCache
