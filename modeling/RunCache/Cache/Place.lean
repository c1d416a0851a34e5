import RunCache.Bucket.Name
import RunCache.Disk.Path

/-! # Places in the cache

    A cache is a directory with the objects of the bucket under their
    names, and a second tree where runs are found by label and name.

    * **`CachePath.ofObject`**: the file of an object.
    * **`CachePath.ofIndexEntry`**: the entry of a run in the by-name
      index. -/

namespace RunCache.CachePath

/-- The file name of a descriptor in its one written form. -/
def copyFile : String := "prowjob.yaml"

/-- The directory of the by-name index. -/
def indexRoot : String := "by-name"

/-- Whether a text is the name of one directory. -/
def isOneDirectory (s : String) : Bool :=
  !s.isEmpty && s ≠ "." && s ≠ ".." && !s.toList.any fun c => c = '/' || c = '\\'

/-- The directory of a job. -/
def ofJob (root : Path) (job : String) : Path := (root.join ObjectName.logsRoot).join job

/-- The file of an object: its name's segments followed from the root, the empty ones left out. -/
def ofObject (root : Path) (name : String) : Path :=
  ((Text.segments name).filter (!·.isEmpty)).foldl Path.join root

/-- The entry of the by-name index for a label and the name of a descriptor. -/
def ofIndexEntry (root : Path) (job label name : String) : Path :=
  ((((root.join indexRoot).join job).join label).join name).join copyFile

end RunCache.CachePath
