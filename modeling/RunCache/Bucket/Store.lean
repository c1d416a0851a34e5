import RunCache.World

/-! # Stores

    A store lists the objects inside a query and reads the body of one.
    Its answers may depend on all that has happened before.

    * **`Store`**: the two calls.
    * **`World.list`**, **`World.read`**: making them. -/

namespace RunCache

/-- One item of a listing, and whether the signal fires as it is handed over. An error ends the
    listing. -/
structure Delivery where
  item : Except Error Listed
  fires : Bool := false

/-- A store of objects. -/
structure Store where
  list : World → Query → Reply (List Delivery)
  read : World → String → Reply ByteArray

/-- Lists the objects inside a query. -/
def World.list (w : World) (store : Store) (q : Query) : Except Error (List Delivery) × World :=
  w.call (.list q) (store.list w q)

/-- Reads the body of an object. -/
def World.read (w : World) (store : Store) (name : String) : Except Error ByteArray × World :=
  w.call (.read name) (store.read w name)

end RunCache
