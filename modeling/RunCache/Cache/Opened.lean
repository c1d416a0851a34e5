import RunCache.Cache.Run
import RunCache.Disk.Walk

/-! # Runs in a cache

    A cached run is opened by walking its directory for test results; its
    paths are those that the objects have in the bucket. -/

namespace RunCache

open Text (joined)

/-- The name in the bucket of a file below the directory of a job. -/
def bucketName? (jobDir : Path) (job : String) (file : Path) : Option String :=
  if file.isBelow jobDir then
    some (joined (ObjectName.logsRoot :: job :: file.parts.drop jobDir.parts.length))
  else none

/-- The name in the bucket of a visited test result. -/
def resultName? (jobDir : Path) (job : String) (v : Visit) : Option String :=
  if v.entry.isFile then (bucketName? jobDir job v.path).filter ObjectName.isTestResult else none

/-- The names of the test results among visits, unless one is a fault. -/
def resultNames (jobDir : Path) (job : String) :
    List (Except WalkFault Visit) → Except Error (List String)
  | [] => .ok []
  | .error f :: _ => .error (.io f.fault)
  | .ok v :: rest =>
    (resultNames jobDir job rest).map fun names => (resultName? jobDir job v).toList ++ names

/-- Opens a cached run. -/
def Run.openCache (d : Disk) (root : Path) (job id : String) : Except Error Run :=
  let jobDir := CachePath.ofJob root job
  (resultNames jobDir job (d.walk (jobDir.join id))).map fun resultPaths =>
    { job, id, descriptorPath := some (ObjectName.ofDescriptor job id), resultPaths,
      origin := .cache root }

end RunCache
