import RunCache.Disk.Fault

/-! # Errors

    * **`Error`**: why an operation ends without its result.
    * **`Error.message`**: the wording of an error.
    * **`Failures`**: the fetches that failed in one sweep over the paths
      of a run, and how many paths the sweep has tried. -/

namespace RunCache

/-- Why an operation ends without its result. -/
inductive Error where
  | listing (under : String) (message : String)
  | noSuchObject (path : String)
  | fetch (path : String) (message : String)
  | fetches (tried : Nat) (failed : List (String × Error))
  | noDescriptorPath (runId : String)
  | emptyPath
  | parse (message : String)
  | serialization (message : String)
  | write (path : String) (cause : Disk.Fault)
  | cancelled
  | config (message : String)
  | io (cause : Disk.Fault)
  | internal (message : String)
deriving Inhabited

namespace Error

/-- Whether the error comes from a fired signal. -/
def isCancelled : Error → Bool
  | .cancelled => true
  | _ => false

/-- The wording of the cause beneath an error, where there is one. -/
def cause? : Error → Option String
  | .write _ cause | .io cause => some cause.message
  | _ => none

/-! ## Wording -/

mutual

/-- The wording of an error. -/
def message : Error → String
  | .listing under m => "Listing failed under " ++ under ++ ": " ++ m
  | .noSuchObject path => "Object not found: " ++ path
  | .fetch path m => "Failed to fetch " ++ path ++ ": " ++ m
  | .fetches tried failed =>
    "failed to fetch " ++ toString failed.length ++ " of " ++
      toString (max tried failed.length) ++ " paths: [" ++
      ", ".intercalate (messages failed) ++ "]"
  | .noDescriptorPath runId => "Job run " ++ runId ++ " has no prowjob path"
  | .emptyPath => "Missing content path"
  | .parse m => "Failed to parse prowjob: " ++ m
  | .serialization m => "Serialization error: " ++ m
  | .write path cause => "Failed to write " ++ path ++ ": " ++ cause.message
  | .cancelled => "Operation cancelled"
  | .config m => "Invalid configuration: " ++ m
  | .io cause => "IO error: " ++ cause.message
  | .internal m => "Internal error: " ++ m

/-- The wordings of failed fetches, each behind its path. -/
def messages : List (String × Error) → List String
  | [] => []
  | (path, e) :: rest => (path ++ ": " ++ message e) :: messages rest

end

end Error

/-! ## Failures of a sweep -/

/-- The failed fetches of a sweep in the order of the attempts. -/
structure Failures where
  tried : Nat := 0
  failed : List (String × Error) := []

namespace Failures

/-- Counts one more path that is tried. -/
def countTry (f : Failures) : Failures := { f with tried := f.tried + 1 }

/-- Adds a path that failed. -/
def add (f : Failures) (path : String) (e : Error) : Failures :=
  { f with failed := f.failed ++ [(path, e)] }

/-- The paths that failed. -/
def paths (f : Failures) : List String := f.failed.map (·.1)

/-- The failures as one error. -/
def toError (f : Failures) : Error := .fetches f.tried f.failed

/-- An error where any fetch failed. -/
def check (f : Failures) : Except Error Unit :=
  if f.failed.isEmpty then .ok () else .error f.toError

end Failures

end RunCache
