import RunCache.Cache.Place
import RunCache.Cache.RunId
import RunCache.Disk.Basic
import RunCache.Error

/-! # The newest cached run

    * **`cachedIds`**: the ids of the runs of a job that have a descriptor
      in the cache, oldest first.
    * **`newestCached?`**: the last of them. -/

namespace RunCache

/-- Whether a directory's entry is a run with a descriptor. -/
def isCachedRun (d : Disk) (jobDir : Path) (child : String × Entry) : Bool :=
  child.2.isDir && d.isFile ((jobDir.join child.1).join ObjectName.descriptorFile)

/-- The ids of the cached runs of a job, oldest first. The error is that of a directory which cannot
    be listed; a `Disk`, which knows no permissions, has none. -/
def cachedIds (d : Disk) (root : Path) (job : String) : Except Error (List String) :=
  let jobDir := CachePath.ofJob root job
  if !d.isDir jobDir then .ok []
  else match d.readDir jobDir with
    | .error f => .error (.io f)
    | .ok children =>
      .ok (((children.filter (isCachedRun d jobDir)).map (·.1)).mergeSort RunId.le)

/-- The id of the newest cached run of a job. -/
def newestCached? (d : Disk) (root : Path) (job : String) : Except Error (Option String) :=
  (cachedIds d root job).map (·.getLast?)

end RunCache
