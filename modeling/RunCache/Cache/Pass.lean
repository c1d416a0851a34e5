import RunCache.Cache.Newest
import RunCache.Cache.Scan
import RunCache.Cache.Write

/-! # Caching passes

    A pass scans a job and writes every run it finds.  A listing that
    breaks still leaves the runs complete before, and the pass then ends
    with the error of the listing.

    * **`PassOptions.scanOptions`**: how the pass scans; resumed, it leaves
      out the runs below the newest one in the cache.
    * **`writeRuns`**: the runs in turn, up to the first that fails.
    * **`runPass`**: the pass. -/

namespace RunCache

/-- What a pass caches, where to, and whether it leaves out runs older than the newest one
    cached. -/
structure PassOptions where
  job : String
  workingDir : Path
  scan : ScanOptions := {}
  resume : Bool := false
deriving DecidableEq, Repr, Inhabited

/-- What a pass has done: the runs found and written, and the entries made in the by-name index. -/
structure Summary where
  discovered : Nat
  cached : Nat
  indexed : Nat
deriving DecidableEq, Repr

/-- How a pass scans. -/
def PassOptions.scanOptions (o : PassOptions) (d : Disk) : Except Error ScanOptions :=
  if o.resume && o.scan.leastId.isNone then
    (newestCached? d o.workingDir o.job).map fun mark => { o.scan with leastId := mark }
  else .ok o.scan

/-- Writes runs in turn, counting on from a summary. -/
def writeRuns (store : Store) (root : Path) : List Run → Summary → World →
    Except Error Summary × World
  | [], s, w => (.ok s, w)
  | r :: runs, s, w =>
    match r.write store root w with
    | (.error e, _, w) => (.error e, w)
    | (.ok written, _, w) =>
      writeRuns store root runs
        { s with
          cached := s.cached + 1
          indexed := s.indexed + written.byName.toList.length } w

/-- Writes the runs of a scan and ends with its error, if it has one. -/
def cacheRuns (store : Store) (root : Path) (runs : List Run) (broken : Option Error)
    (w : World) : Except Error Summary × World :=
  match writeRuns store root runs ⟨runs.length, 0, 0⟩ w with
  | (.error e, w) => (.error e, w)
  | (.ok s, w) =>
    match broken with
    | some e => (.error e, w)
    | none => (.ok s, w)

/-- Caches the runs of a job. -/
def runPass (store : Store) (o : PassOptions) (w : World) : Except Error Summary × World :=
  match o.scanOptions w.disk with
  | .error e => (.error e, w)
  | .ok options =>
    match scan store options o.job w with
    | (.ok runs, w) => cacheRuns store o.workingDir runs none w
    | (.error e, w) =>
      if e.source.isCancelled then (.error e.source, w)
      else cacheRuns store o.workingDir e.runs (some e.source) w

end RunCache
