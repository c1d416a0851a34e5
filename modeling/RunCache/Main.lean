import RunCache.Command.Run

/-! # The program

    The files that a command may need are read into a disk, the command
    runs on that disk, and what it has changed there is written back. -/

namespace RunCache.Main

open Command

/-! ## Reading -/

/-- How deep directories are read. -/
def depthLimit : Nat := 64

/-- A time of the system in milliseconds. -/
def milliseconds (t : IO.FS.SystemTime) : Int := t.sec * 1000 + t.nsec.toNat / 1000000

/-- The current time: that of a file made now. -/
def currentTime : IO Int := do
  let (_, file) ← IO.FS.createTempFile
  let time := milliseconds (← file.metadata).modified
  IO.FS.removeFile file
  return time

/-- Adds what a path leads to, and everything below it. -/
def readTree : (depth : Nat) → Disk → Path → IO Disk
  | 0, d, _ => return d
  | depth + 1, d, p => do
    let file := (← IO.currentDir) / p.text
    if ← file.isDir then
      let mut d := (d.makeDirs p).2
      for child in ← file.readDir do
        d ← readTree depth d (p.join child.fileName)
      return d
    else if ← file.pathExists then
      let d := (d.makeDirs (p.parent?.getD p)).2
      let time := milliseconds (← file.metadata).modified
      return (d.writeFile time p (← IO.FS.readBinFile file)).toOption.getD d
    else return d

/-- The disk of the working directory, without files. -/
def emptyDisk : IO Disk := do
  let here := (← IO.currentDir).toString
  let d : Disk := { home := (Text.segments here).filter (!·.isEmpty) }
  return (d.makeDirs ⟨here⟩).2

/-- The user's own settings file. -/
def userFile : IO Path := do
  let home : Path := ⟨(← IO.getEnv "HOME").getD ""⟩
  let base := ((← IO.getEnv "XDG_CONFIG_HOME").map Path.mk).getD (home.join ".config")
  return (base.join "job-run-aggregator").join "config.yaml"

/-- The directories that a command with these settings works in. -/
def placesOf (s : Settings) : List Path := s.workingDir :: s.mirrorDir.toList

/-- The disk that a command works on. -/
def readDisk (i : Invocation) (userFile : Path) : IO Disk := do
  let d ← readTree depthLimit (← emptyDisk) (i.config.getD userFile)
  match Settings.load d i.config userFile with
  | .error _ => return d
  | .ok s => (placesOf (i.settings s)).foldlM (readTree depthLimit) d

/-! ## Writing back -/

/-- Whether two entries are the same directory or file. -/
def isSame : Option Entry → Entry → Bool
  | some (.dir _), .dir _ => true
  | some (.file old _), .file new _ => old == new
  | some (.link old), .link new => old = new
  | _, _ => false

/-- Writes what has changed on a disk. -/
def writeBack (before after : Disk) : IO Unit := do
  for (loc, e) in after.entries do
    unless isSame (before.get? loc) e do
      let file := "/" ++ Text.joined loc
      match e with
      | .dir _ => IO.FS.createDirAll file
      | .file content _ => IO.FS.writeBinFile file content
      | .link _ => return

/-! ## Running -/

/-- The store of a service that no connection leads to. -/
def unreachable (s : Settings) : Store where
  list _ q := { outcome := some (.error (.listing q.under ("no connection to " ++ s.endpointUrl))) }
  read _ name := { outcome := some (.error (.fetch name ("no connection to " ++ s.endpointUrl))) }

/-- Runs an invocation. -/
def run (i : Invocation) : IO UInt32 := do
  let userFile ← userFile
  let disk ← readDisk i userFile
  let (report, w) := i.run { service := unreachable, userFile } { disk, now := ← currentTime }
  writeBack disk w.disk
  IO.print report.output
  if let some complaint := report.complaint? then IO.eprintln complaint
  return report.status.toUInt32

end RunCache.Main

/-- Runs the command of the command line. -/
def main (args : List String) : IO UInt32 := do
  match RunCache.Command.Invocation.ofArguments args with
  | some i => RunCache.Main.run i
  | none =>
    IO.eprint RunCache.Command.usage
    return RunCache.Command.misuseStatus.toUInt32
