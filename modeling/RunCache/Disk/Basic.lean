import RunCache.Disk.Fault
import RunCache.Disk.Path

/-! # Disks

    A disk holds files, directories and symbolic links at locations, which
    are the names that lead there from the root.

    * **`Disk.get?`**: what is at a location.
    * **`Disk.lookup`**: the place a path leads to, by way of links.
    * **`Disk.stat`**, **`Disk.exists?`**, **`Disk.readFile`**: reading.
    * **`Disk.makeDirs`**, **`Disk.writeFile`**, **`Disk.remove`**:
      changing.

    A disk refuses what its names and entries tell: a path that is too long
    or leads nowhere, a file or a directory in the way, a directory that
    takes no entries.  Faults of permission and of resources are left out.
    A directory that is found can be listed, a file that is found can be
    read and written over, what can be reached can be removed, and a file
    is written as a whole or not at all. -/

namespace RunCache

/-- The names that lead to a place from the root. -/
abbrev Location := List String

/-- What is at a location. A closed directory takes no entries. -/
inductive Entry where
  | file (content : ByteArray) (modified : Int)
  | dir (closed : Bool)
  | link (target : Path)

namespace Entry

/-- Whether an entry is a directory. -/
def isDir : Entry → Bool
  | .dir _ => true
  | _ => false

/-- Whether an entry is a file. -/
def isFile : Entry → Bool
  | .file .. => true
  | _ => false

end Entry

/-- Files, directories and links, and the directory where paths that are not absolute start. Each
    location is held once; the order is the one in which directories list their entries. -/
structure Disk where
  entries : List (Location × Entry) := []
  home : Location := []
deriving Inhabited

namespace Disk

/-! ## Locations -/

/-- What is at a location. The root is always a directory. -/
def get? (d : Disk) (loc : Location) : Option Entry :=
  if loc = [] then some (.dir false) else (d.entries.find? (·.1 = loc)).map (·.2)

/-- Puts an entry at a location. -/
def put (d : Disk) (loc : Location) (e : Entry) : Disk :=
  if d.entries.any (·.1 = loc) then
    { d with entries := d.entries.map fun x => if x.1 = loc then (loc, e) else x }
  else { d with entries := d.entries ++ [(loc, e)] }

/-- Takes a location and everything below it away. -/
def erase (d : Disk) (loc : Location) : Disk :=
  { d with entries := d.entries.filter fun x => !loc.isPrefixOf x.1 }

/-- The names in a directory and what they stand for, in the order the disk lists them. -/
def children (d : Disk) (loc : Location) : List (String × Entry) :=
  d.entries.filterMap fun x =>
    if x.1.dropLast = loc then x.1.getLast?.map (·, x.2) else none

/-! ## Looking up paths -/

/-- The length in bytes that a path must stay below. -/
def pathLimit : Nat := 4096

/-- The greatest length in bytes of a name. -/
def nameLimit : Nat := 255

/-- How many links one look-up follows. -/
def linkLimit : Nat := 40

/-- Where a path leads: to an entry, or to a name that a directory does not hold. -/
inductive Place where
  | found (loc : Location) (entry : Entry)
  | absent (dir : Location) (name : String)

/-- The segments of a path that are not empty. -/
def steps (p : Path) : List String := p.body.filter (!·.isEmpty)

/-- Follows segments from a directory; `onLink` goes on from the directory of a link to its target
    and the segments behind it. A link in the last place is followed only where `follow` is set. -/
def walkWith (d : Disk) (follow : Bool)
    (onLink : Location → Path → List String → Except Fault Place) :
    Location → List String → Except Fault Place
  | here, [] => .ok (.found here ((d.get? here).getD (.dir false)))
  | here, s :: rest =>
    if s = "." then walkWith d follow onLink here rest
    else if s = ".." then walkWith d follow onLink here.dropLast rest
    else if s.utf8ByteSize > nameLimit then .error .nameTooLong
    else match d.get? (here ++ [s]) with
      | none => if rest.isEmpty then .ok (.absent here s) else .error .missing
      | some (.dir _) => walkWith d follow onLink (here ++ [s]) rest
      | some (.file content modified) =>
        if rest.isEmpty then .ok (.found (here ++ [s]) (.file content modified))
        else .error .notDirectory
      | some (.link target) =>
        if rest.isEmpty && !follow then .ok (.found (here ++ [s]) (.link target))
        else onLink here target rest

/-- Follows segments from a directory by way of at most so many links. -/
def walkFrom (d : Disk) (follow : Bool) : (links : Nat) → Location → List String →
    Except Fault Place
  | 0, here, segs => d.walkWith follow (fun _ _ _ => .error .tooManyLinks) here segs
  | links + 1, here, segs =>
    d.walkWith follow
      (fun here target rest =>
        walkFrom d follow links (if target.isAbsolute then [] else here) (steps target ++ rest))
      here segs

/-- Whether the system takes a path at all. -/
def accept (p : Path) : Except Fault Unit :=
  if p.text.toList.contains '\x00' then .error .nulInName
  else if p.text.isEmpty then .error .missing
  else if p.text.utf8ByteSize ≥ pathLimit then .error .nameTooLong
  else .ok ()

/-- Where a path leads, leaving a slash at its end aside. -/
def locate (d : Disk) (follow : Bool) (p : Path) : Except Fault Place :=
  match accept p with
  | .error f => .error f
  | .ok () => d.walkFrom follow linkLimit (if p.isAbsolute then [] else d.home) (steps p)

/-- Where a path leads. With a slash at its end it leads to a directory, by way of a link too. -/
def lookup (d : Disk) (follow : Bool) (p : Path) : Except Fault Place :=
  match d.locate (follow || p.endsWithSlash) p with
  | .ok (.found loc e) =>
    if p.endsWithSlash && !e.isDir then .error .notDirectory else .ok (.found loc e)
  | r => r

/-! ## Reading -/

/-- What a path leads to. -/
def stat (d : Disk) (follow : Bool) (p : Path) : Except Fault (Location × Entry) :=
  match d.lookup follow p with
  | .error f => .error f
  | .ok (.absent ..) => .error .missing
  | .ok (.found loc e) => .ok (loc, e)

/-- Whether a path leads to anything. -/
def exists? (d : Disk) (p : Path) : Except Fault Bool :=
  match d.stat true p with
  | .ok _ => .ok true
  | .error .missing => .ok false
  | .error f => .error f

/-- Whether a path leads to a directory. -/
def isDir (d : Disk) (p : Path) : Bool :=
  match d.stat true p with
  | .ok (_, e) => e.isDir
  | .error _ => false

/-- Whether a path leads to a file. -/
def isFile (d : Disk) (p : Path) : Bool :=
  match d.stat true p with
  | .ok (_, e) => e.isFile
  | .error _ => false

/-- The content of a file. -/
def readFile (d : Disk) (p : Path) : Except Fault ByteArray :=
  match d.stat true p with
  | .error f => .error f
  | .ok (_, .file content _) => .ok content
  | .ok _ => .error .isDirectory

/-- The entries of a directory, in the order the disk lists them. There are no permissions, so no
    directory refuses to be listed. -/
def readDir (d : Disk) (p : Path) : Except Fault (List (String × Entry)) :=
  match d.stat true p with
  | .error f => .error f
  | .ok (loc, .dir _) => .ok (d.children loc)
  | .ok _ => .error .notDirectory

/-! ## Changing -/

/-- Puts an entry under a new name. -/
def create (d : Disk) (parent : Location) (name : String) (e : Entry) : Except Fault Disk :=
  match d.get? parent with
  | some (.dir false) => .ok (d.put (parent ++ [name]) e)
  | _ => .error .missing

/-- Makes a directory. -/
def makeDir (d : Disk) (p : Path) : Except Fault Disk :=
  match d.locate false p with
  | .error f => .error f
  | .ok (.found ..) => .error .present
  | .ok (.absent parent name) => d.create parent name (.dir false)

/-- Makes the first of a list of paths as a directory, each one lying in the next. What has been
    made stays where a later step fails. -/
def makeChain (d : Disk) : List Path → Except Fault Unit × Disk
  | [] => (.error (.other "failed to create whole tree"), d)
  | p :: rest =>
    if p.text.isEmpty then (.ok (), d)
    else match d.makeDir p with
      | .ok d => (.ok (), d)
      | .error .missing =>
        match d.makeChain rest with
        | (.error f, d) => (.error f, d)
        | (.ok (), d) =>
          match d.makeDir p with
          | .ok d => (.ok (), d)
          | .error f => if d.isDir p then (.ok (), d) else (.error f, d)
      | .error f => if d.isDir p then (.ok (), d) else (.error f, d)

/-- Makes a directory and those above it that are missing. -/
def makeDirs (d : Disk) (p : Path) : Except Fault Unit × Disk := d.makeChain p.ancestors

/-- Writes a file, which is made if it is missing. -/
def writeFile (d : Disk) (now : Int) (p : Path) (content : ByteArray) : Except Fault Disk :=
  match d.locate true p with
  | .error f => .error f
  | .ok place =>
    if p.endsWithSlash then .error .isDirectory
    else match place with
      | .found loc (.file ..) => .ok (d.put loc (.file content now))
      | .found .. => .error .isDirectory
      | .absent parent name => d.create parent name (.file content now)

/-- Removes what a path leads to: a link itself, a directory with everything below it. -/
def remove (d : Disk) (p : Path) : Except Fault Disk :=
  (d.stat false p).map fun (loc, _) => d.erase loc

end Disk

end RunCache
