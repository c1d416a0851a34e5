import RunCache.Cache.Run

/-! # Writing runs

    A run is written as the files of its objects, a copy of its descriptor
    in the one written form, and an entry in the by-name index where its
    descriptor has the label for it.  Everything is read before the first
    file is written, and where writing fails, the directories it made are
    removed again.

    * **`Writing.file`**: one file, and the directories made for it.
    * **`writeAll`**: several files, one after the other.
    * **`Run.write`**: a run.
    * **`writeIndex`**: the entry of a descriptor in the by-name index. -/

namespace RunCache

/-! ## Files and the directories made for them -/

/-- A disk that is being written to, and the directories made so far, the latest first; of
    directories inside one another only the outermost is noted. -/
structure Writing where
  disk : Disk
  made : List Path := []

namespace Writing

/-- Whether a path leads to anything; a fault of the disk is one of writing. -/
def probe (d : Disk) (p : Path) : Except Error Bool :=
  (d.exists? p).mapError fun f => .write p.text f

/-- The outermost missing path, going up from one that is missing. -/
def outermost (d : Disk) (p : Path) : (above : List Path) → Except Error Path
  | [] => .ok p
  | q :: above =>
    if q.text.isEmpty then .ok p
    else match probe d q with
      | .error e => .error e
      | .ok true => .ok p
      | .ok false => outermost d q above

/-- Notes a path, unless it lies in one that is noted. -/
def note (x : Writing) (p : Path) : Writing :=
  if x.made.any p.isBelow then x else { x with made := p :: x.made }

/-- Notes the outermost missing directory on the way to one that is about to be made. -/
def plan (x : Writing) (dir : Path) : Except Error Writing :=
  match probe x.disk dir with
  | .error e => .error e
  | .ok true => .ok x
  | .ok false => (outermost x.disk dir dir.ancestors.tail).map x.note

/-- Makes a directory and those above it. -/
def makeDirs (x : Writing) (dir : Path) : Except Error Unit × Writing :=
  match x.plan dir with
  | .error e => (.error e, x)
  | .ok x =>
    match x.disk.makeDirs dir with
    | (result, disk) => (result.mapError fun f => .write dir.text f, { x with disk })

/-- Writes the bytes of a file. -/
def put (x : Writing) (now : Int) (target : Path) (bytes : ByteArray) :
    Except Error Unit × Writing :=
  match x.disk.writeFile now target bytes with
  | .error f => (.error (.write target.text f), x)
  | .ok disk => (.ok (), { x with disk })

/-- Writes a file in a directory that is made if it is missing. -/
def file (x : Writing) (now : Int) (target : Path) (bytes : ByteArray) :
    Except Error Unit × Writing :=
  match target.parent? with
  | none => x.put now target bytes
  | some dir =>
    match x.makeDirs dir with
    | (.error e, x) => (.error e, x)
    | (.ok (), x) => x.put now target bytes

/-- Writes files one after the other up to the first that fails. -/
def files (x : Writing) (now : Int) : List (Path × ByteArray) → Except Error Unit × Writing
  | [] => (.ok (), x)
  | (target, bytes) :: rest =>
    match x.file now target bytes with
    | (.error e, x) => (.error e, x)
    | (.ok (), x) => x.files now rest

/-- Removes a directory; where that fails, it stays. -/
def removed (d : Disk) (p : Path) : Disk :=
  match d.remove p with
  | .ok d => d
  | .error _ => d

/-- The disk with the directories removed that were made, the latest first. -/
def undone (x : Writing) : Disk := x.made.foldl removed x.disk

end Writing

/-- Writes files one after the other. Where one fails, the directories made for any are removed. -/
def writeAll (d : Disk) (now : Int) (files : List (Path × ByteArray)) :
    Except Error Unit × Disk :=
  match (Writing.mk d []).files now files with
  | (.ok (), x) => (.ok (), x.disk)
  | (.error e, x) => (.error e, x.undone)

/-- Writes files to the disk of a world. -/
def World.writeAll (w : World) (files : List (Path × ByteArray)) : Except Error Unit × World :=
  match RunCache.writeAll w.disk w.now files with
  | (result, disk) => (result, { w with disk })

/-! ## The by-name index -/

/-- The entry of a descriptor in the by-name index: it needs the label, and the label and the name
    must each be the name of one directory. -/
def indexPlace? (root : Path) (job : String) (d : Descriptor) : Option Path :=
  match d.analysisLabel with
  | some label =>
    if CachePath.isOneDirectory label && CachePath.isOneDirectory d.name then
      some (CachePath.ofIndexEntry root job label d.name)
    else none
  | none => none

/-- Writes the entry of a descriptor in the by-name index, if it has one. -/
def writeIndex (root : Path) (job : String) (d : Descriptor) (w : World) :
    Except Error (Option Path) × World :=
  match indexPlace? root job d with
  | none => (.ok none, w)
  | some target =>
    match w.writeAll [(target, d.render)] with
    | (.error e, w) => (.error e, w)
    | (.ok (), w) => (.ok (some target), w)

/-! ## Runs -/

/-- What writing a run made: the count of files, and the entry in the by-name index. -/
structure Written where
  files : Nat
  byName : Option Path
deriving DecidableEq, Repr

namespace Run

/-- The file of an object, and behind that of the descriptor its copy in the one written form. -/
def filesOf (root : Path) (descriptorPath : String) (normalized : ByteArray) (path : String)
    (bytes : ByteArray) : List (Path × ByteArray) :=
  let target := CachePath.ofObject root path
  (target, bytes) ::
    if path = descriptorPath then [(target.withFileName CachePath.copyFile, normalized)] else []

/-- The files of a run in the order in which they are written. -/
def files (root : Path) (r : Run) (d : Descriptor) (contents : Fields ByteArray) :
    List (Path × ByteArray) :=
  contents.flatMap (fun e => filesOf root (r.descriptorPath.getD "") d.render e.1 e.2) ++
    (indexPlace? root r.job d).toList.map fun target => (target, d.render)

/-- The first name that leads out of the cache. -/
def escaping? (contents : Fields ByteArray) : Option String :=
  (contents.map (·.1)).find? (!ObjectName.staysInside ·)

/-- The wording for a name that leads out of the cache. -/
def escapeText : String := "object name escapes the cache root"

/-- Writes a run whose contents have been read. -/
def writeContents (root : Path) (r : Run) (d : Descriptor) (contents : Fields ByteArray)
    (w : World) : Except Error Written × World :=
  match escaping? contents with
  | some name =>
    (.error (.write (CachePath.ofObject root name).text (.other escapeText)), w)
  | none =>
    let files := r.files root d contents
    match w.writeAll files with
    | (.error e, w) => (.error e, w)
    | (.ok (), w) => (.ok ⟨files.length, indexPlace? root r.job d⟩, w)

/-- Writes a run below a directory. -/
def write (store : Store) (root : Path) (r : Run) (w : World) : Outcome Written :=
  match r.descriptor store w with
  | (.error e, r, w) => (.error e, r, w)
  | (.ok d, r, w) =>
    match r.contents store w with
    | (.error e, r, w) => (.error e, r, w)
    | (.ok contents, r, w) =>
      match r.writeContents root d contents w with
      | (result, w) => (result, r, w)

end Run

end RunCache
