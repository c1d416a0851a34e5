import RunCache.Cache.Newest
import RunCache.Cache.Opened
import RunCache.Cache.Write

/-! # Rebuilding the by-name index

    * **`indexRun`**: the entry of one cached run.
    * **`reindex`**: the entries of all cached runs of a job, oldest
      run first. -/

namespace RunCache

/-- A store that is never asked: cached runs are read from disk. -/
def noStore : Store where
  list _ q := { outcome := some (.error (.listing q.under "no store")) }
  read _ name := { outcome := some (.error (.noSuchObject name)) }

/-- Writes the entry of a cached run, if it has one. A run whose descriptor is gone has none. -/
def indexRun (root : Path) (job id : String) (w : World) : Except Error (Option Path) × World :=
  match Run.openCache w.disk root job id with
  | .error e => (.error e, w)
  | .ok r =>
    match r.descriptor noStore w with
    | (.error (.noSuchObject _), _, w) => (.ok none, w)
    | (.error e, _, w) => (.error e, w)
    | (.ok d, _, w) => writeIndex root job d w

/-- Writes the entries of cached runs in turn. The signal is watched before each one. -/
def indexRuns (root : Path) (job : String) : List String → (indexed : Nat) → World →
    Except Error Nat × World
  | [], indexed, w => (.ok indexed, w)
  | id :: ids, indexed, w =>
    if w.signal.fired then (.error .cancelled, w)
    else match indexRun root job id (w.note (.indexRun id)) with
      | (.error e, w) => (.error e, w)
      | (.ok entry, w) => indexRuns root job ids (indexed + entry.toList.length) w

/-- Writes the entries of all cached runs of a job and counts them. -/
def reindex (root : Path) (job : String) (w : World) : Except Error Nat × World :=
  match cachedIds w.disk root job with
  | .error e => (.error e, w)
  | .ok ids => indexRuns root job ids 0 w

end RunCache
