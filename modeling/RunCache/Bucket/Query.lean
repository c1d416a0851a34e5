import RunCache.Text.Segments

/-! # Listing queries -/

namespace RunCache

/-- A request for the objects whose names begin with a text and, with an offset, do not sort before
    it. -/
structure Query where
  under : String
  offset : Option String := none
deriving DecidableEq, Repr, Inhabited

/-- Whether an object's name is inside the query. -/
def Query.admits (q : Query) (name : String) : Bool :=
  Text.startsWith name q.under && q.offset.all fun offset => !decide (name < offset)

/-- A listed object: its name and its time of creation, in milliseconds. -/
structure Listed where
  name : String
  created : Int
deriving DecidableEq, Repr, Inhabited

end RunCache
