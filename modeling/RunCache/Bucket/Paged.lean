import RunCache.Bucket.Store

/-! # A bucket behind a service

    A service answers listings page by page and may leave out what it
    knows of an entry, or refuse a page.

    * **`Service`**: what the service answers.
    * **`Service.items`**: the listing, the pages put together.
    * **`Service.requests`**: the pages asked for. -/

namespace RunCache

/-- An entry of a page; its time of change is in milliseconds. -/
structure PageEntry where
  key : Option String
  modified : Option Int

/-- A page of a listing. -/
inductive Page where
  | entries (xs : List PageEntry)
  | refused (message : String)

/-- A request for a page: how names begin, the name they sort behind, and which page it is. -/
structure PageRequest where
  under : String
  startAfter : Option String
  page : Nat
deriving DecidableEq, Repr

/-- The answer to a request for an object. -/
inductive ObjectAnswer where
  | body (bytes : ByteArray)
  | noSuchKey
  | failed (message : String)

/-- What a service answers: the pages of a listing whose names begin with a text and sort behind
    another one, and objects. -/
structure Service where
  pages : String → Option String → List Page
  object : String → ObjectAnswer

/-! ## Times -/

/-- The first and the last second, from 1970 on, that have a date. -/
def firstSecond : Int := -8334601228800
def lastSecond : Int := 8210266876799

/-- Whether a time in milliseconds has a date. -/
def hasDate (ms : Int) : Bool :=
  let s := ms / 1000
  decide (firstSecond ≤ s) && decide (s ≤ lastSecond)

/-- The object of an entry whose name and time are known. -/
def PageEntry.listed? (e : PageEntry) : Option Listed :=
  match e.key, e.modified with
  | some name, some ms => if hasDate ms then some ⟨name, ms⟩ else none
  | _, _ => none

/-! ## Listings -/

/-- The items of pages in turn; a refused page ends them. -/
def Page.items (q : Query) : List Page → List (Except Error Listed)
  | [] => []
  | .refused message :: _ => [.error (.listing q.under message)]
  | .entries xs :: rest =>
    ((xs.filterMap PageEntry.listed?).filter fun x => q.admits x.name).map .ok ++ items q rest

/-- How many pages are asked for: all up to the first refused one. -/
def Page.asked : List Page → Nat
  | [] => 0
  | .refused _ :: _ => 1
  | .entries _ :: rest => 1 + asked rest

namespace Service

/-- The pages that answer a query. The offset of a query belongs to it, but the service is asked for
    the names behind it. -/
def pagesOf (s : Service) (q : Query) : List Page := s.pages q.under q.offset

/-- The items of a listing. -/
def items (s : Service) (q : Query) : List (Except Error Listed) := Page.items q (s.pagesOf q)

/-- The requests of a listing that is taken to its end. -/
def requests (s : Service) (q : Query) : List PageRequest :=
  (List.range (Page.asked (s.pagesOf q))).map fun page => ⟨q.under, q.offset, page⟩

/-- The body of an object. -/
def body (s : Service) (name : String) : Except Error ByteArray :=
  match s.object name with
  | .body bytes => .ok bytes
  | .noSuchKey => .error (.noSuchObject name)
  | .failed message => .error (.fetch name message)

/-- The store of a service. -/
def store (s : Service) : Store where
  list _ q := { outcome := some (.ok ((s.items q).map fun item => { item })) }
  read _ name := { outcome := some (s.body name) }

end Service

/-- The store of a service that never answers. -/
def silentStore : Store where
  list _ _ := { outcome := none }
  read _ _ := { outcome := none }

end RunCache
