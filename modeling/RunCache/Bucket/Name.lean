import RunCache.Text.Segments

/-! # Names of objects

    The objects of a run are named `logs/<job>/<run id>/…`.  The run's
    descriptor and its test results are told by their names.

    * **`ObjectName.ofJob`**, **`ObjectName.ofDescriptor`**: the names that
      belong to a job and a run.
    * **`ObjectName.staysInside`**: whether following a name from a
      directory never leaves it.
    * **`ObjectKind.ofName`**: what an object is, and to which run it
      belongs. -/

namespace RunCache

open Text (segments)

namespace ObjectName

/-! ## Parts of names -/

/-- The directory of the logs. -/
def logsRoot : String := "logs"

/-- The last segment of a descriptor's name. -/
def descriptorFile : String := "prowjob.json"

/-- How the name of a test result ends. -/
def resultEnding : String := ".xml"

/-- What the name of a test result holds. -/
def resultMarker : String := "/junit"

/-! ## Names of jobs and runs -/

/-- How the names of all objects of a job begin. -/
def ofJob (job : String) : String := logsRoot ++ "/" ++ job ++ "/"

/-- The directory of a run. -/
def ofRun (job id : String) : String := logsRoot ++ "/" ++ job ++ "/" ++ id

/-- The name of a run's descriptor. -/
def ofDescriptor (job id : String) : String := ofRun job id ++ "/" ++ descriptorFile

/-! ## Properties of names -/

/-- Whether a name is not empty and following it segment by segment never leads up. -/
def staysInside (name : String) : Bool :=
  !name.isEmpty && !(segments name).any fun s => s = "." || s = ".."

/-- Whether a name is that of a test result. -/
def isTestResult (name : String) : Bool :=
  Text.endsWith name resultEnding && Text.holds name resultMarker

end ObjectName

/-! ## Kinds of objects -/

/-- What an object is, and the id of the run it belongs to. -/
inductive ObjectKind where
  | descriptor (id : String)
  | result (id : String)
  | other
deriving DecidableEq, Repr

namespace ObjectKind

/-- A descriptor belongs to the run named by the directory around it. -/
def ofDescriptor? (segs : List String) : Option ObjectKind :=
  match segs.reverse with
  | file :: id :: _ =>
    if file = ObjectName.descriptorFile then some (if id.isEmpty then .other else .descriptor id)
    else none
  | _ => none

/-- A test result belongs to the run named by its third segment. -/
def ofResult (segs : List String) : ObjectKind :=
  match segs with
  | _ :: _ :: id :: _ :: _ => if id.isEmpty then .other else .result id
  | _ => .other

/-- What an object is, by its name. -/
def ofName (name : String) : ObjectKind :=
  match ofDescriptor? (segments name) with
  | some kind => kind
  | none => if ObjectName.isTestResult name then ofResult (segments name) else .other

/-- The id of the run an object belongs to. -/
def runId? : ObjectKind → Option String
  | .descriptor id | .result id => some id
  | .other => none

end ObjectKind

end RunCache
