import RunCache.Cache.Place
import RunCache.Bucket.Store
import RunCache.Descriptor.Codec
import RunCache.Text.Quoted

/-! # Runs

    A run is known by its job and its id, the path of its descriptor and
    the paths of its test results.  Its contents are read from a bucket,
    each object at most once, or from a cache on disk, each time anew.

    * **`Run.content`**: the bytes of one path.
    * **`Run.descriptor`**: the descriptor.
    * **`Run.contents`**: the bytes of all paths, or the failures of all
      that could not be read. -/

namespace RunCache

/-- Where the contents of a run come from: a bucket, with what has been read so far, or a cache
    below a directory. -/
inductive Origin where
  | bucket (memo : Fields ByteArray)
  | cache (root : Path)

/-- A run. -/
structure Run where
  job : String
  id : String
  descriptorPath : Option String := none
  resultPaths : List String := []
  origin : Origin := .bucket []

/-- What an operation that may read contents leaves: its result, the run and the world. -/
abbrev Outcome (α : Type) := Except Error α × Run × World

namespace Run

/-- Sets the path of the descriptor. -/
def withDescriptor (r : Run) (path : String) : Run := { r with descriptorPath := some path }

/-- Adds the path of a test result. -/
def withResult (r : Run) (path : String) : Run := { r with resultPaths := r.resultPaths ++ [path] }

/-- The path of the descriptor and those of the test results. -/
def paths (r : Run) : List String := r.descriptorPath.toList ++ r.resultPaths

/-- The contents read so far from a bucket. -/
def memo (r : Run) : Fields ByteArray :=
  match r.origin with
  | .bucket memo => memo
  | .cache _ => []

/-- Whether a path has been read from a bucket. -/
def isRead (r : Run) (path : String) : Bool := (r.memo.get? path).isSome

/-- How a run of a bucket is shown in diagnostics. -/
def inspect (r : Run) : String :=
  "BucketJobRun \x7b job_name: " ++ Text.quoted r.job ++ ", job_run_id: " ++ Text.quoted r.id ++
    ", prow_job_path: " ++
    r.descriptorPath.elim "None" (fun path => "Some(" ++ Text.quoted path ++ ")") ++
    ", junit_paths: " ++ Text.quotedList r.resultPaths ++
    ", cached_paths: " ++ toString r.memo.length ++ " \x7d"

/-! ## One path -/

/-- The bytes of an object of the bucket. What has been read once is not read again. -/
def bucketContent (store : Store) (memo : Fields ByteArray) (path : String) (r : Run)
    (w : World) : Outcome ByteArray :=
  match memo.get? path with
  | some bytes => (.ok bytes, r, w)
  | none =>
    match w.read store path with
    | (.error e, w) => (.error e, r, w)
    | (.ok bytes, w) => (.ok bytes, { r with origin := .bucket (memo.insert path bytes) }, w)

/-- The answer to opening the file of an object in a cache. -/
def openCached (d : Disk) (root : Path) (path : String) : Except Error ByteArray :=
  match d.readFile (CachePath.ofObject root path) with
  | .ok bytes => .ok bytes
  | .error .missing => .error (.noSuchObject path)
  | .error f => .error (.fetch path f.message)

/-- The bytes of an object kept in a cache. -/
def cachedContent (root : Path) (path : String) (w : World) : Except Error ByteArray × World :=
  if !ObjectName.staysInside path then
    (.error (.fetch path "path escapes the working directory"), w)
  else
    w.call (.openFile (CachePath.ofObject root path))
      { outcome := some (openCached w.disk root path) }

/-- The bytes of one path. -/
def content (store : Store) (path : String) (r : Run) (w : World) : Outcome ByteArray :=
  if path.isEmpty then (.error .emptyPath, r, w)
  else match r.origin with
    | .bucket memo => bucketContent store memo path r w
    | .cache root =>
      match cachedContent root path w with
      | (result, w) => (result, r, w)

/-! ## The descriptor -/

/-- Reads a descriptor out of bytes. -/
def parseDescriptor (bytes : ByteArray) : Except Error Descriptor :=
  (Descriptor.parse bytes).mapError fun f => .parse f.message

/-- The descriptor. -/
def descriptor (store : Store) (r : Run) (w : World) : Outcome Descriptor :=
  match r.descriptorPath with
  | none => (.error (.noDescriptorPath r.id), r, w)
  | some path =>
    match r.content store path w with
    | (.error e, r, w) => (.error e, r, w)
    | (.ok bytes, r, w) => (parseDescriptor bytes, r, w)

/-! ## All paths -/

/-- Reads paths one after the other. A failure is noted and the next path is tried, but a fired
    signal ends the sweep. -/
def sweep (store : Store) : List String → Failures → Fields ByteArray → Run → World →
    Outcome (Fields ByteArray)
  | [], failures, contents, r, w => (failures.check.map fun _ => contents, r, w)
  | path :: paths, failures, contents, r, w =>
    match r.content store path w with
    | (.ok bytes, r, w) => sweep store paths failures.countTry (contents.insert path bytes) r w
    | (.error .cancelled, r, w) => (.error .cancelled, r, w)
    | (.error e, r, w) => sweep store paths (failures.countTry.add path e) contents r w

/-- The bytes of all paths. -/
def contents (store : Store) (r : Run) (w : World) : Outcome (Fields ByteArray) :=
  match r.descriptorPath with
  | none => (.error (.noDescriptorPath r.id), r, w)
  | some _ => sweep store r.paths {} [] r w

end Run

end RunCache
