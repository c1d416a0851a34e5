import RunCache.Bucket.Store
import RunCache.Document.Value

/-! # Objects in memory

    A bucket whose objects are given one by one, and whose reads and
    listings can be made to fail.

    * **`Memory.items`**: a listing in the order of names.
    * **`Memory.body`**: the body of an object. -/

namespace RunCache

/-- A body and the time of its creation. -/
structure Stored where
  body : ByteArray
  created : Int

/-- The objects of a bucket, and how it fails. -/
structure Memory where
  objects : Fields Stored := []
  brokenReads : List String := []
  brokenAfter : Option Nat := none
  delay : Nat := 0

namespace Memory

/-- Stores an object; one of the same name is replaced. -/
def put (m : Memory) (name : String) (body : ByteArray) (created : Int) : Memory :=
  { m with objects := m.objects.insert name ⟨body, created⟩ }

/-- The objects inside a query, in the order of names. -/
def listing (m : Memory) (q : Query) : List Listed :=
  (m.objects.filter fun e => q.admits e.1).map fun e => ⟨e.1, e.2.created⟩

/-- The items of a listing. One that is made to fail ends with an error in the place of the objects
    after a number of them, unless there are fewer. -/
def items (m : Memory) (q : Query) : List (Except Error Listed) :=
  let all := m.listing q
  match m.brokenAfter with
  | some n =>
    if n ≤ all.length then
      (all.take n).map .ok ++ [.error (.listing q.under "injected listing failure")]
    else all.map .ok
  | none => all.map .ok

/-- The body of an object. -/
def body (m : Memory) (name : String) : Except Error ByteArray :=
  if m.brokenReads.contains name then .error (.fetch name "injected read failure")
  else match m.objects.get? name with
    | some stored => .ok stored.body
    | none => .error (.noSuchObject name)

/-- The store of these objects. -/
def store (m : Memory) : Store where
  list _ q := { outcome := some (.ok ((m.items q).map fun item => { item })) }
  read _ name := { outcome := some (m.body name), delay := m.delay }

end Memory

end RunCache
