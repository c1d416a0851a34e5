import RunCache.Cache.Index
import RunCache.Command.Arguments
import RunCache.Settings.Document

/-! # Running commands

    * **`Report`**: what a command prints, and why it failed.
    * **`runCache`**, **`runIndex`**, **`showConfig`**: the commands.
    * **`Invocation.run`**: a command with the settings of its file and
      its flags. -/

namespace RunCache.Command

/-- Why a command fails. -/
inductive Failure where
  | load (fault : Settings.LoadFault)
  | error (e : Error)

/-- The wording of a failure. -/
def Failure.message : Failure → String
  | .load fault => fault.message
  | .error e => e.message

/-- What a command prints, and why it failed if it did. -/
structure Report where
  output : String := ""
  failure : Option Failure := none

/-- What is printed on failure, on a stream of its own. -/
def Report.complaint? (r : Report) : Option String :=
  r.failure.map fun f => "Error: " ++ f.message

/-- The exit status. -/
def Report.status (r : Report) : UInt8 := if r.failure.isSome then 1 else 0

/-- The exit status where the arguments are misused. -/
def misuseStatus : UInt8 := 2

/-- The report of a command that fails before it prints anything. -/
def Report.failed (e : Error) : Report := { failure := some (.error e) }

/-! ## Commands -/

/-- What a command has around it: the store of a service, and the user's own settings file. -/
structure Surroundings where
  service : Settings → Store
  userFile : Path

/-- The store that settings name. -/
def Surroundings.store (x : Surroundings) (s : Settings) : Settings.Source → Store
  | .service => x.service s
  | .folder root => Folder.store root

/-- Gives the signal the time that settings allow. -/
def withDeadline (s : Settings) (w : World) : World :=
  { w with signal := { w.signal with remaining := s.timeoutSecs.map fun n => n.toNat * 1000 } }

/-- What is printed when a pass begins. -/
def announcement (job : String) : String := "▶ Caching job runs of " ++ job ++ "\n"

/-- What is printed when a pass has come to its end. -/
def passSummary (s : Settings) (x : Summary) : String :=
  "✓ Cached " ++ toString x.cached ++ " of " ++ toString x.discovered ++ " runs into " ++
    s.workingDir.text ++ "\n  by-name entries: " ++ toString x.indexed ++ "\n"

/-- What is printed when an index has been rebuilt. -/
def indexSummary (s : Settings) (indexed : Nat) : String :=
  "✓ Wrote " ++ toString indexed ++ " by-name entries for " ++ s.jobName ++ "\n"

/-- Caches the recent runs of a job. -/
def runCache (x : Surroundings) (s : Settings) (w : World) : Report × World :=
  match s.check, s.source with
  | .error e, _ => (.failed e, w)
  | .ok (), .error e => (.failed e, w)
  | .ok (), .ok source =>
    match runPass (x.store s source) s.passOptions (withDeadline s w) with
    | (.error e, w) => ({ output := announcement s.jobName, failure := some (.error e) }, w)
    | (.ok summary, w) => ({ output := announcement s.jobName ++ passSummary s summary }, w)

/-- Rebuilds the by-name index of a job. -/
def runIndex (s : Settings) (w : World) : Report × World :=
  match s.checkJob with
  | .error e => (.failed e, w)
  | .ok () =>
    match reindex s.workingDir s.jobName (withDeadline s w) with
    | (.error e, w) => (.failed e, w)
    | (.ok indexed, w) => ({ output := indexSummary s indexed }, w)

/-- Shows the settings, and where the user's own file is. -/
def showConfig (x : Surroundings) (s : Settings) : Report :=
  { output := s.masked.render ++ "\n# Config file: " ++ x.userFile.text ++ "\n" }

/-- How the command line is used. -/
def usage : String :=
  "Usage: job-run-aggregator [-c FILE] [--log-format text|json] cache|index|config show\n"

/-- The name and the version of the program. -/
def versionLine : String := "job-run-aggregator 0.1.0\n"

/-! ## Invocations -/

/-- The settings of an invocation: those of the file, and what the flags say put over them. -/
def Invocation.settings (i : Invocation) (s : Settings) : Settings :=
  let s := { s with logFormat := i.logFormat.getD s.logFormat }
  match i.action with
  | .cache job source => source.over (job.over s)
  | .index job => job.over s
  | .showConfig | .help | .version => s

/-- Runs a command. -/
def Invocation.run (i : Invocation) (x : Surroundings) (w : World) : Report × World :=
  match i.action with
  | .help => ({ output := usage }, w)
  | .version => ({ output := versionLine }, w)
  | action =>
    match Settings.load w.disk i.config x.userFile with
    | .error fault => ({ failure := some (.load fault) }, w)
    | .ok s =>
      match action with
      | .cache .. => runCache x (i.settings s) w
      | .index _ => runIndex (i.settings s) w
      | .showConfig | .help | .version => (showConfig x (i.settings s), w)

end RunCache.Command
