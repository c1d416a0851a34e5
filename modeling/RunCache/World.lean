import RunCache.Bucket.Query
import RunCache.Disk.Basic
import RunCache.Error

/-! # The world around an operation

    Operations work on a disk, watch a signal that may end them at any
    call, and leave a trace of the calls they make.

    * **`Signal`**: fired, or to be fired within a number of milliseconds.
    * **`Reply`**: what a call is answered, and when.
    * **`World.call`**: makes a call, unless the signal forbids it.

    A call is never begun once the signal has fired.  A call that is under
    way when the signal fires is cancelled, but a result that is there at
    that moment still counts. -/

namespace RunCache

/-! ## Signals -/

/-- A signal that ends operations. -/
structure Signal where
  fired : Bool := false
  remaining : Option Nat := none
deriving DecidableEq, Repr, Inhabited

/-- Whether the signal fires before so many milliseconds are over. -/
def Signal.firesWithin (s : Signal) (delay : Nat) : Bool :=
  s.remaining.any (· ≤ delay)

/-- The signal after so many milliseconds. -/
def Signal.after (s : Signal) (delay : Nat) : Signal :=
  { s with remaining := s.remaining.map (· - delay) }

/-! ## Events -/

/-- What leaves a trace. -/
inductive Event where
  | list (query : Query)
  | read (name : String)
  | openFile (path : Path)
  | indexRun (runId : String)
  | fired
deriving DecidableEq, Repr

/-! ## Worlds -/

/-- A disk, a signal, the time in milliseconds, and the events so far, oldest first. -/
structure World where
  disk : Disk
  signal : Signal := {}
  now : Int := 0
  trace : List Event := []
deriving Inhabited

/-- The answer to a call: its outcome, unless it never comes, how many milliseconds it takes, and
    whether the signal fires just as it comes. -/
structure Reply (α : Type) where
  outcome : Option (Except Error α)
  delay : Nat := 0
  fires : Bool := false

namespace World

/-- Notes an event. -/
def note (w : World) (e : Event) : World := { w with trace := w.trace ++ [e] }

/-- Fires the signal. -/
def fire (w : World) : World :=
  if w.signal.fired then w else { w.note .fired with signal := { fired := true } }

/-- Lets time pass. -/
def wait (w : World) (delay : Nat) : World := { w with signal := w.signal.after delay }

/-- Waits for the answer to a call that has begun. One that never comes is ended by the signal. -/
def await {α : Type} (w : World) (reply : Reply α) : Except Error α × World :=
  if w.signal.firesWithin reply.delay then (.error .cancelled, w.fire)
  else
    let w := w.wait reply.delay
    let w := if reply.fires then w.fire else w
    match reply.outcome with
    | some result => (result, w)
    | none => (.error .cancelled, w.fire)

/-- Makes a call. -/
def call {α : Type} (w : World) (e : Event) (reply : Reply α) : Except Error α × World :=
  if w.signal.fired then (.error .cancelled, w) else (w.note e).await reply

end World

end RunCache
