import RunCache.Settings.Basic

/-! # Arguments

    A command line names a command and gives flags to it.

    * **`Flag`**: the flags, and which of them each command takes.
    * **`Level`**: how far the command is named.
    * **`Invocation.ofArguments`**: the command and what its flags say. -/

namespace RunCache.Command

/-! ## Flags -/

/-- A flag. -/
inductive Flag where
  | config
  | logFormat
  | job
  | workingDir
  | store
  | bucket
  | endpointUrl
  | mirrorDir
  | recencyWindowHours
  | resume
  | timeoutSecs
  | help
  | version
deriving DecidableEq, Repr

namespace Flag

/-- The flag of a long name. -/
def ofLong? (name : String) : Option Flag :=
  ([("config", .config), ("log-format", .logFormat), ("job", .job), ("working-dir", .workingDir),
    ("store", .store), ("bucket", .bucket), ("endpoint-url", .endpointUrl),
    ("mirror-dir", .mirrorDir), ("recency-window-hours", .recencyWindowHours),
    ("resume", .resume), ("timeout-secs", .timeoutSecs), ("help", .help),
    ("version", .version)].find? (·.1 = name)).map (·.2)

/-- The flag of a letter. -/
def ofShort? : Char → Option Flag
  | 'c' => some .config
  | 'j' => some .job
  | 'w' => some .workingDir
  | 'h' => some .help
  | 'V' => some .version
  | _ => none

/-- Whether a flag is an action of its own. Nothing behind it is read. -/
def isAction (f : Flag) : Bool := f = .help || f = .version

/-- Whether a flag has a value. -/
def takesValue (f : Flag) : Bool := f ≠ .resume && !f.isAction

/-- Whether every command takes a flag. -/
def isGlobal (f : Flag) : Bool := f = .config || f = .logFormat || f = .help

end Flag

/-! ## Commands -/

/-- How far the command is named. -/
inductive Level where
  | none
  | cache
  | index
  | config
  | showConfig
deriving DecidableEq, Repr

/-- Whether a flag may stand where the command is named so far. -/
def Level.takes (l : Level) (f : Flag) : Bool :=
  f.isGlobal || match l with
    | .none => f = .version
    | .cache => f ≠ .version
    | .index => f = .job || f = .workingDir
    | _ => false

/-- The level that a word leads to. -/
def Level.enter? (l : Level) (word : String) : Option Level :=
  match l with
  | .none =>
    if word = "cache" then some .cache
    else if word = "index" then some .index
    else if word = "config" then some .config
    else Option.none
  | .config => if word = "show" then some .showConfig else Option.none
  | _ => Option.none

/-! ## Reading arguments -/

/-- A flag as it was given: the level where it stands, and its value. -/
structure Given where
  level : Level
  flag : Flag
  value : String
deriving DecidableEq, Repr

/-- How an argument reads. -/
inductive Shape where
  | escape
  | flag (f : Option Flag) (value : Option String)
  | word
deriving DecidableEq, Repr

/-- A long name and, behind an equals sign, a value. -/
def longShape (cs : List Char) : Shape :=
  let name := cs.takeWhile (· ≠ '=')
  .flag (Flag.ofLong? (String.ofList name))
    (match cs.dropWhile (· ≠ '=') with
      | _ :: value => some (String.ofList value)
      | [] => none)

/-- A letter and, right behind it or behind an equals sign, a value. Behind a flag without a value
    further letters are not read. -/
def shortShape (c : Char) (cs : List Char) : Shape :=
  let f := Flag.ofShort? c
  if f.any (·.takesValue) then
    .flag f
      (match cs with
        | [] => none
        | '=' :: value => some (String.ofList value)
        | value => some (String.ofList value))
  else .flag f none

/-- How an argument reads. -/
def Shape.ofArgument (arg : String) : Shape :=
  match arg.toList with
  | ['-', '-'] => .escape
  | '-' :: '-' :: cs => longShape cs
  | '-' :: c :: cs => shortShape c cs
  | _ => .word

/-- Reads arguments in turn: the level they lead to, and the flags given on the way. -/
def readArguments (level : Level) : List String → Option (Level × List Given)
  | [] => some (level, [])
  | arg :: rest =>
    match Shape.ofArgument arg with
    | .escape => if rest.isEmpty then some (level, []) else none
    | .word =>
      match level.enter? arg with
      | some next => readArguments next rest
      | none => none
    | .flag none _ => none
    | .flag (some f) value =>
      if !level.takes f then none
      else
        let given (value : String) (r : Option (Level × List Given)) :=
          r.map fun (last, flags) => (last, ⟨level, f, value⟩ :: flags)
        if f.takesValue then
          match value, rest with
          | some value, rest => given value (readArguments level rest)
          | none, [] => none
          | none, next :: rest =>
            if Shape.ofArgument next = .word then given next (readArguments level rest) else none
        else if value.isSome then none
        else if f.isAction then some (level, [⟨level, f, ""⟩])
        else given "" (readArguments level rest)

/-! ## Values of flags -/

/-- A path is not empty. -/
def pathOf? (s : String) : Option Path := if s.isEmpty then none else some ⟨s⟩

/-- A number below a bound. -/
def numberBelow? (bound : Nat) (s : String) : Option Nat := (natOfText? s).filter (· < bound)

/-- A number of hours; a zero may have a minus sign. -/
def hours? (s : String) : Option UInt32 :=
  match s.toList with
  | '-' :: zeros => if !zeros.isEmpty && zeros.all (· = '0') then some 0 else none
  | _ => (numberBelow? (twoTo 32) s).map UInt32.ofNat

/-- Whether a value suits its flag. -/
def Given.isValid (g : Given) : Bool :=
  match g.flag with
  | .config | .workingDir | .mirrorDir => (pathOf? g.value).isSome
  | .logFormat => (LogFormat.ofName? g.value).isSome
  | .store => (StoreKind.ofName? g.value).isSome
  | .recencyWindowHours => (hours? g.value).isSome
  | .timeoutSecs => (numberBelow? (twoTo 64) g.value).isSome
  | .job | .bucket | .endpointUrl | .resume | .help | .version => true

/-- Whether no flag is given twice at one level. -/
def areDistinct : List Given → Bool
  | [] => true
  | g :: rest => !rest.any (fun h => h.level = g.level ∧ h.flag = g.flag) && areDistinct rest

/-- The value of a flag; one given at a later level counts. -/
def valueOf? (given : List Given) (f : Flag) : Option String :=
  (given.reverse.find? (·.flag = f)).map (·.value)

/-! ## Flags that change settings -/

/-- Which job, and where its cache lies. -/
structure JobFlags where
  jobName : Option String := none
  workingDir : Option Path := none
deriving DecidableEq, Repr

/-- Where runs are read from, and how far back. -/
structure SourceFlags where
  store : Option StoreKind := none
  bucket : Option String := none
  endpointUrl : Option String := none
  mirrorDir : Option Path := none
  recencyWindowHours : Option UInt32 := none
  resume : Bool := false
  timeoutSecs : Option UInt64 := none
deriving DecidableEq, Repr

/-- Settings with what the flags say put over them. -/
def JobFlags.over (f : JobFlags) (s : Settings) : Settings :=
  { s with
    jobName := f.jobName.getD s.jobName
    workingDir := f.workingDir.getD s.workingDir }

/-- Settings with what the flags say put over them. -/
def SourceFlags.over (f : SourceFlags) (s : Settings) : Settings :=
  { s with
    store := f.store.getD s.store
    bucket := f.bucket.getD s.bucket
    endpointUrl := f.endpointUrl.getD s.endpointUrl
    mirrorDir := f.mirrorDir <|> s.mirrorDir
    recencyWindowHours := f.recencyWindowHours.getD s.recencyWindowHours
    resume := f.resume || s.resume
    timeoutSecs := f.timeoutSecs <|> s.timeoutSecs }

/-- The flags about the job. -/
def JobFlags.ofGiven (given : List Given) : JobFlags :=
  { jobName := valueOf? given .job
    workingDir := (valueOf? given .workingDir).bind pathOf? }

/-- The flags about the source. -/
def SourceFlags.ofGiven (given : List Given) : SourceFlags :=
  { store := (valueOf? given .store).bind StoreKind.ofName?
    bucket := valueOf? given .bucket
    endpointUrl := valueOf? given .endpointUrl
    mirrorDir := (valueOf? given .mirrorDir).bind pathOf?
    recencyWindowHours := (valueOf? given .recencyWindowHours).bind hours?
    resume := (valueOf? given .resume).isSome
    timeoutSecs := ((valueOf? given .timeoutSecs).bind (numberBelow? (twoTo 64))).map UInt64.ofNat }

/-! ## Invocations -/

/-- What is to be done. -/
inductive Action where
  | cache (job : JobFlags) (source : SourceFlags)
  | index (job : JobFlags)
  | showConfig
  | help
  | version
deriving DecidableEq, Repr

/-- A command with what holds for every command. -/
structure Invocation where
  config : Option Path := none
  logFormat : Option LogFormat := none
  action : Action
deriving DecidableEq, Repr

/-- The action of a level. -/
def Action.ofGiven? (level : Level) (given : List Given) : Option Action :=
  match level with
  | .cache => some (.cache (.ofGiven given) (.ofGiven given))
  | .index => some (.index (.ofGiven given))
  | .showConfig => some .showConfig
  | .none | .config => none

/-- The invocation of a list of arguments; none where they are misused. -/
def Invocation.ofArguments (args : List String) : Option Invocation :=
  match readArguments .none args with
  | none => none
  | some (level, given) =>
    if !given.all (·.isValid) || !areDistinct given then none
    else if given.any (·.flag = .help) then some { action := .help }
    else if given.any (·.flag = .version) then some { action := .version }
    else (Action.ofGiven? level given).map fun action =>
      { config := (valueOf? given .config).bind pathOf?
        logFormat := (valueOf? given .logFormat).bind LogFormat.ofName?
        action }

end RunCache.Command
