import RunCache.Disk.Basic

/-! # Walks

    A walk visits a place and everything below it, a directory before what
    it holds, and what it holds in the order of names.  Links below the
    start are visited but not followed.

    * **`Disk.walk`**: the visits, and the faults of directories that cannot
      be opened. -/

namespace RunCache

/-- A visited place: its path, the names that lead there from the start of the walk, and what is
    there. -/
structure Visit where
  path : Path
  names : List String
  entry : Entry

/-- A fault of a walk and the path it came up at. -/
structure WalkFault where
  path : Path
  fault : Disk.Fault

/-- The wording of a fault of a walk. -/
def WalkFault.message (f : WalkFault) : String :=
  "IO error for operation on " ++ f.path.text ++ ": " ++ f.fault.message

namespace Disk

/-- The names in a directory and what they stand for, in the order of names. -/
def sortedChildren (d : Disk) (loc : Location) : List (String × Entry) :=
  (d.children loc).mergeSort fun a b => !decide (b.1 < a.1)

/-- Visits what a directory holds; directories are nested at most `depth` deep. -/
def walkBelow (d : Disk) : (depth : Nat) → Location → Path → List String →
    List (Except WalkFault Visit)
  | 0, _, _, _ => []
  | depth + 1, loc, path, names =>
    match accept path with
    | .error fault => [.error ⟨path, fault⟩]
    | .ok () =>
      (d.sortedChildren loc).flatMap fun (name, e) =>
        .ok ⟨path.join name, names ++ [name], e⟩ ::
          if e.isDir then
            walkBelow d depth (loc ++ [name]) (path.join name) (names ++ [name])
          else []

/-- Visits a place and everything below it. -/
def walk (d : Disk) (start : Path) : List (Except WalkFault Visit) :=
  let below (loc : Location) (e : Entry) :=
    if e.isDir then d.walkBelow (d.entries.length + 1) loc start [] else []
  match d.stat false start with
  | .error fault => [.error ⟨start, fault⟩]
  | .ok (loc, e) =>
    match e with
    | .link _ =>
      match d.stat true start with
      | .error fault => [.error ⟨start, fault⟩]
      | .ok (loc, target) => .ok ⟨start, [], e⟩ :: below loc target
    | _ => .ok ⟨start, [], e⟩ :: below loc e

end Disk

end RunCache
