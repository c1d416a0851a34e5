import RunCache.Bucket.Folder
import RunCache.Cache.Pass
import RunCache.Text.Blank

/-! # Settings

    * **`Settings`**: what a command works with.
    * **`Settings.check`**: the first thing that is wrong with them.
    * **`Settings.masked`**: settings that may be shown.
    * **`Settings.source`**, **`Settings.passOptions`**: where runs are
      read from, and the pass. -/

namespace RunCache

/-- The kind of a store. -/
inductive StoreKind where
  | s3
  | folder
deriving DecidableEq, Repr, Inhabited

/-- The form of log output. -/
inductive LogFormat where
  | text
  | json
deriving DecidableEq, Repr, Inhabited

/-- The name of a kind of store. -/
def StoreKind.name : StoreKind → String
  | .s3 => "s3"
  | .folder => "local"

/-- The kind of store of a name. -/
def StoreKind.ofName? (name : String) : Option StoreKind :=
  if name = "s3" then some .s3 else if name = "local" then some .folder else none

/-- The name of a form of log output. -/
def LogFormat.name : LogFormat → String
  | .text => "text"
  | .json => "json"

/-- The form of log output of a name. -/
def LogFormat.ofName? (name : String) : Option LogFormat :=
  if name = "text" then some .text else if name = "json" then some .json else none

/-- What a command works with. -/
structure Settings where
  jobName : String := ""
  workingDir : Path := ⟨"job-aggregator-working-dir"⟩
  store : StoreKind := .s3
  bucket : String := "origin-ci-test"
  endpointUrl : String := "https://storage.googleapis.com"
  region : String := "auto"
  accessKeyId : Option String := none
  secretAccessKey : Option String := none
  mirrorDir : Option Path := none
  recencyWindowHours : UInt32 := 24
  resume : Bool := false
  timeoutSecs : Option UInt64 := none
  logFormat : LogFormat := .text
deriving DecidableEq, Repr, Inhabited

namespace Settings

/-! ## Validity -/

/-- A job needs a name. -/
def checkJob (s : Settings) : Except Error Unit :=
  if Text.isBlankText s.jobName then .error (.config "job name must not be empty") else .ok ()

/-- A store needs what leads to it. -/
def checkStore (s : Settings) : Except Error Unit :=
  match s.store with
  | .s3 =>
    if s.accessKeyId.isNone || s.secretAccessKey.isNone then
      .error (.config "s3 store requires access_key_id and secret_access_key")
    else .ok ()
  | .folder =>
    if s.mirrorDir.isNone then .error (.config "local store requires mirror_dir") else .ok ()

/-- The first thing that is wrong. -/
def check (s : Settings) : Except Error Unit :=
  match s.checkJob with
  | .error e => .error e
  | .ok () =>
    if s.recencyWindowHours = 0 then
      .error (.config "recency_window_hours must be greater than zero")
    else s.checkStore

/-! ## Use -/

/-- What stands in the place of a secret. -/
def mask : String := "***"

/-- The settings with their secrets masked. -/
def masked (s : Settings) : Settings :=
  { s with
    accessKeyId := s.accessKeyId.map fun _ => mask
    secretAccessKey := s.secretAccessKey.map fun _ => mask }

/-- Where runs are read from: a bucket behind a service, or a directory. -/
inductive Source where
  | service
  | folder (root : Path)
deriving DecidableEq, Repr

/-- Where runs are read from. -/
def source (s : Settings) : Except Error Source :=
  match s.store with
  | .s3 =>
    if s.accessKeyId.isSome && s.secretAccessKey.isSome then .ok .service
    else .error (.config "missing s3 credentials")
  | .folder =>
    match s.mirrorDir with
    | some root => .ok (.folder root)
    | none => .error (.config "missing mirror_dir")

/-- An hour in milliseconds. -/
def hour : Nat := 3600000

/-- The pass. -/
def passOptions (s : Settings) : PassOptions :=
  { job := s.jobName
    workingDir := s.workingDir
    scan := { window := s.recencyWindowHours.toNat * hour }
    resume := s.resume }

end Settings

end RunCache
