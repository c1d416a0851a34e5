import RunCache.Bucket.Store
import RunCache.Disk.Walk

/-! # A bucket on disk

    Objects are the files below a directory, named by the path from there
    and created when the file was last changed.

    * **`Folder.items`**: a listing.  Only the directory that holds all
      matching names is walked.
    * **`Folder.body`**: the body of an object. -/

namespace RunCache.Folder

open Text (segments joined)

/-- The file of an object. A name that starts at the root, with a dot or goes up has none. -/
def file? (root : Path) (name : String) : Option Path :=
  let p : Path := ⟨name⟩
  if p.parts.any fun s => s = Path.rootPart || s = "." || s = ".." then none
  else some (root.join name)

/-- The directory that holds all objects whose names begin with a text. -/
def startOf (root : Path) (under : String) : Path :=
  match segments under with
  | [] | [_] => root
  | segs => root.join (joined segs.dropLast)

/-- The name of the object in a file. -/
def nameOf? (root file : Path) : Option String :=
  if file.isBelow root then some (joined (file.parts.drop root.parts.length)) else none

/-- The object a visited place is, if it is one of the query. -/
def object? (root : Path) (q : Query) (v : Visit) : Option Listed :=
  match v.entry with
  | .file _ modified =>
    match nameOf? root v.path with
    | some name => if q.admits name then some ⟨name, modified⟩ else none
    | none => none
  | _ => none

/-- The objects of visits up to the first fault, and that fault. -/
def collect (root : Path) (q : Query) : List (Except WalkFault Visit) →
    List Listed × Option WalkFault
  | [] => ([], none)
  | .error f :: _ => ([], some f)
  | .ok v :: rest =>
    let (objects, fault) := collect root q rest
    ((object? root q v).toList ++ objects, fault)

/-- The items of a listing, in the order of names; a fault of the walk comes last. -/
def items (d : Disk) (root : Path) (q : Query) : List (Except Error Listed) :=
  let start := startOf root q.under
  match d.stat true start with
  | .error _ => []
  | .ok _ =>
    let (objects, fault) := collect root q (d.walk start)
    (objects.mergeSort fun a b => !decide (b.name < a.name)).map .ok ++
      fault.toList.map fun f => .error (.listing q.under f.message)

/-- The body of an object. -/
def body (d : Disk) (root : Path) (name : String) : Except Error ByteArray :=
  match file? root name with
  | none => .error (.fetch name "object name is not a plain relative path")
  | some p =>
    match d.readFile p with
    | .ok bytes => .ok bytes
    | .error .missing => .error (.noSuchObject name)
    | .error f => .error (.fetch name f.message)

/-- The store of the files below a directory. -/
def store (root : Path) : Store where
  list w q := { outcome := some (.ok ((items w.disk root q).map fun item => { item })) }
  read w name := { outcome := some (body w.disk root name) }

end RunCache.Folder
