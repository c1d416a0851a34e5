import RunCache.Cache.Run
import RunCache.Cache.RunId

/-! # Scans

    A scan lists the objects of a job and groups the recent ones into
    runs.  Of several descriptors of a run the first counts, and a run
    without one is no run.

    * **`ScanOptions.kind?`**: whether an object counts, and as what.
    * **`Grouping.add`**: one object more.
    * **`scan`**: the runs of a listing, or those of the part before it
      broke. -/

namespace RunCache

/-! ## Objects that count -/

/-- Which objects a scan takes: how old they may be, in milliseconds, the name where the listing
    starts, and the id that run ids do not stay below. -/
structure ScanOptions where
  window : Int := 24 * 3600000
  offset : Option String := none
  leastId : Option String := none
deriving DecidableEq, Repr, Inhabited

namespace ScanOptions

/-- Whether a run id stays below the least one. -/
def isBelow (o : ScanOptions) (id : String) : Bool :=
  o.leastId.any fun least => RunId.order id least = .lt

/-- What an object counts as, if it is recent enough. -/
def kind? (o : ScanOptions) (now : Int) (x : Listed) : Option ObjectKind :=
  if now - x.created > o.window then none
  else
    let kind := ObjectKind.ofName x.name
    if kind.runId?.any o.isBelow then none else some kind

/-- The query of a scan. -/
def query (o : ScanOptions) (job : String) : Query := ⟨ObjectName.ofJob job, o.offset⟩

end ScanOptions

/-! ## Grouping -/

/-- The runs met so far, in the order in which they were first met. -/
abbrev Grouping := List Run

namespace Grouping

/-- Changes the run of an id, which is met now if it has not been before. -/
def update (job id : String) (change : Run → Run) : Grouping → Grouping
  | [] => [change { job, id }]
  | r :: rest => if r.id = id then change r :: rest else r :: update job id change rest

/-- Adds an object of a kind. -/
def addKind (job : String) (name : String) (g : Grouping) : ObjectKind → Grouping
  | .descriptor id =>
    g.update job id fun r => if r.descriptorPath.isNone then r.withDescriptor name else r
  | .result id => g.update job id (·.withResult name)
  | .other => g

/-- Adds an object, if it counts. -/
def add (o : ScanOptions) (job : String) (now : Int) (g : Grouping) (x : Listed) : Grouping :=
  match o.kind? now x with
  | some kind => g.addKind job x.name kind
  | none => g

/-- The runs that have a descriptor. -/
def complete (g : Grouping) : List Run := g.filter (·.descriptorPath.isSome)

end Grouping

/-! ## Scanning -/

/-- A scan that broke: the runs complete before, and why it broke. -/
structure BrokenScan where
  job : String
  runs : List Run
  source : Error

/-- The wording of a broken scan. -/
def BrokenScan.message (e : BrokenScan) : String :=
  "scan of " ++ e.job ++ " failed after " ++ toString e.runs.length ++ " complete runs: " ++
    e.source.message

/-- Takes the items of a listing in turn. The signal is watched before each one, and before the
    end. -/
def takeItems (o : ScanOptions) (job : String) : List Delivery → Grouping → World →
    Grouping × Option Error × World
  | [], g, w => if w.signal.fired then (g, some .cancelled, w) else (g, none, w)
  | x :: rest, g, w =>
    if w.signal.fired then (g, some .cancelled, w)
    else
      let w := if x.fires then w.fire else w
      match x.item with
      | .error e => (g, some e, w)
      | .ok object => takeItems o job rest (g.add o job w.now object) w

/-- The runs of a job. -/
def scan (store : Store) (o : ScanOptions) (job : String) (w : World) :
    Except BrokenScan (List Run) × World :=
  match w.list store (o.query job) with
  | (.error source, w) => (.error ⟨job, [], source⟩, w)
  | (.ok items, w) =>
    match takeItems o job items [] w with
    | (g, some source, w) => (.error ⟨job, g.complete, source⟩, w)
    | (g, none, w) => (.ok g.complete, w)

end RunCache
