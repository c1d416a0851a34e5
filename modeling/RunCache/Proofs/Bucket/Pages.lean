import RunCache.Proofs.Bucket.Paged

/-! # Pages put together

    A listing is read from its pages in turn, up to the first that is
    refused.  What an entry is worth does not depend on its page, so it does
    not matter how the entries are split.

    * **`PageEntry.StandsFor`**: the entries that are objects of a query.
    * **`PageEntry.Lists`**: the objects of entries, in the order of these.
    * **`Page.entriesBefore`**, **`Page.refusal?`**: what is read of pages.
    * **`Page.exists_items`**: the items of pages.
    * **`listing_of_pages`**: what a service lists, and what it is asked. -/

namespace RunCache

/-! ## Entries -/

namespace PageEntry

variable {q : Query} {e : PageEntry} {x y : Listed} {es : List PageEntry} {xs ys : List Listed}

/-- An entry stands for an object of a query: it has the name and the time of the object, the time
    is one that has a date, and the name is inside the query. -/
structure StandsFor (q : Query) (e : PageEntry) (x : Listed) : Prop where
  key : e.key = some x.name
  modified : e.modified = some x.created
  dated : firstSecond ≤ x.created / 1000 ∧ x.created / 1000 ≤ lastSecond
  inside : Text.startsWith x.name q.under = true ∧
    ∀ offset, q.offset = some offset → offset ≤ x.name

theorem StandsFor.unique (h : StandsFor q e x) (h' : StandsFor q e y) : x = y := by
  obtain ⟨name, created⟩ := x
  obtain ⟨name', created'⟩ := y
  have hname : name = name' := Option.some.inj (h.key.symm.trans h'.key)
  have hcreated : created = created' := Option.some.inj (h.modified.symm.trans h'.modified)
  rw [hname, hcreated]

/-- The objects that entries stand for, each at its place; entries that stand for none are passed
    over. -/
inductive Lists (q : Query) : List PageEntry → List Listed → Prop
  | none : Lists q [] []
  | object {e : PageEntry} {x : Listed} {es : List PageEntry} {xs : List Listed}
      (h : StandsFor q e x) (hrest : Lists q es xs) : Lists q (e :: es) (x :: xs)
  | passed {e : PageEntry} {es : List PageEntry} {xs : List Listed}
      (h : ∀ x, ¬ StandsFor q e x) (hrest : Lists q es xs) : Lists q (e :: es) xs

/-- Entries stand for one list of objects. -/
theorem Lists.unique (h : Lists q es xs) (h' : Lists q es ys) : xs = ys := by
  induction h generalizing ys with
  | none =>
    cases h'
    rfl
  | object hstands _ ih =>
    cases h' with
    | object hstands' hrest' => rw [hstands.unique hstands', ih hrest']
    | passed hnone _ => exact absurd hstands (hnone _)
  | passed hnone _ ih =>
    cases h' with
    | object hstands _ => exact absurd hstands (hnone _)
    | passed _ hrest' => exact ih hrest'

/-- The object of an entry that is inside a query is the one that the entry stands for. -/
theorem standsFor_iff : StandsFor q e x ↔ e.listed? = some x ∧ q.admits x.name = true := by
  obtain ⟨key, modified⟩ := e
  constructor
  · intro h
    obtain rfl := h.key
    obtain rfl := h.modified
    have hdate : hasDate x.created = true := by simpa [hasDate] using h.dated
    exact ⟨by simp [listed?, hdate], Service.admits_iff.mpr h.inside⟩
  · rintro ⟨hlisted, hinside⟩
    unfold listed? at hlisted
    split at hlisted
    · next name ms hkey hmodified =>
      split at hlisted
      · next hdate =>
        obtain rfl := Option.some.inj hlisted
        refine ⟨hkey, hmodified, by simpa [hasDate] using hdate, Service.admits_iff.mp hinside⟩
      · cases hlisted
    · cases hlisted

/-- The objects of entries that are inside a query are those that the entries stand for. -/
theorem lists_filter (q : Query) (es : List PageEntry) :
    Lists q es ((es.filterMap listed?).filter fun x => q.admits x.name) := by
  induction es with
  | nil => exact .none
  | cons e es ih =>
    cases hlisted : e.listed? with
    | none =>
      rw [List.filterMap_cons_none hlisted]
      refine .passed (fun x hx => ?_) ih
      rw [(standsFor_iff.mp hx).1] at hlisted
      cases hlisted
    | some x =>
      rw [List.filterMap_cons_some hlisted]
      by_cases hinside : q.admits x.name = true
      · rw [List.filter_cons, if_pos hinside]
        exact .object (standsFor_iff.mpr ⟨hlisted, hinside⟩) ih
      · rw [List.filter_cons, if_neg hinside]
        refine .passed (fun y hy => ?_) ih
        obtain ⟨hlisted', hinside'⟩ := standsFor_iff.mp hy
        rw [hlisted, Option.some.injEq] at hlisted'
        exact hinside (hlisted' ▸ hinside')

end PageEntry

/-! ## Pages -/

namespace Page

/-- The entries of a page; none if it is refused. -/
def entriesOf : Page → List PageEntry
  | .entries xs => xs
  | .refused _ => []

/-- Why a page is refused, if it is. -/
def refused? : Page → Option String
  | .entries _ => none
  | .refused message => some message

/-- The pages before the first that is refused. -/
def answered (pages : List Page) : List Page := pages.takeWhile (·.refused?.isNone)

/-- The entries of the pages before the first that is refused. -/
def entriesBefore (pages : List Page) : List PageEntry := (answered pages).flatMap entriesOf

/-- Why the first page that is refused is. -/
def refusal? (pages : List Page) : Option String := pages.findSome? refused?

variable {q : Query} {xs : List PageEntry} {message : String} {pages rest : List Page}

@[simp] theorem answered_entries :
    answered (.entries xs :: rest) = .entries xs :: answered rest := rfl

@[simp] theorem answered_refused : answered (.refused message :: rest) = [] := rfl

@[simp] theorem refusal_entries : refusal? (.entries xs :: rest) = refusal? rest := rfl

@[simp] theorem refusal_refused : refusal? (.refused message :: rest) = some message := rfl

@[simp] theorem entriesBefore_entries :
    entriesBefore (.entries xs :: rest) = xs ++ entriesBefore rest := rfl

@[simp] theorem entriesBefore_refused : entriesBefore (.refused message :: rest) = [] := rfl

/-- There is a refusal exactly where some page is refused. -/
theorem isSome_refusal : (refusal? pages).isSome ↔ ∃ message, .refused message ∈ pages := by
  rw [refusal?, List.findSome?_isSome_iff]
  constructor
  · rintro ⟨page, hpage, hrefused⟩
    cases page with
    | entries xs => cases hrefused
    | refused message => exact ⟨message, hpage⟩
  · rintro ⟨message, hpage⟩
    exact ⟨_, hpage, rfl⟩

/-- However entries are split, they are read as they stand. -/
theorem entriesBefore_split (parts : List (List PageEntry)) (rest : List Page) :
    entriesBefore (parts.map .entries ++ rest) = parts.flatten ++ entriesBefore rest := by
  induction parts with
  | nil => rfl
  | cons xs parts ih =>
    rw [List.map_cons, List.cons_append, entriesBefore_entries, ih, List.flatten_cons,
      List.append_assoc]

theorem refusal_split (parts : List (List PageEntry)) (rest : List Page) :
    refusal? (parts.map .entries ++ rest) = refusal? rest := by
  induction parts with
  | nil => rfl
  | cons xs parts ih => rw [List.map_cons, List.cons_append, refusal_entries, ih]

/-- The items of pages are the objects of the entries before the first page that is refused, in
    their order, and then one error for that page. -/
theorem exists_items (q : Query) (pages : List Page) :
    ∃ xs, PageEntry.Lists q (entriesBefore pages) xs ∧
      items q pages = xs.map .ok ++
        (refusal? pages).toList.map fun message => .error (.listing q.under message) := by
  refine ⟨_, PageEntry.lists_filter q (entriesBefore pages), ?_⟩
  -- By induction on the pages: one that is answered goes in front, one that is refused ends them.
  induction pages with
  | nil => rfl
  | cons page rest ih =>
    cases page with
    | refused message => simp [items]
    | entries xs =>
      rw [items, ih, entriesBefore_entries, List.filterMap_append, List.filter_append,
        List.map_append, refusal_entries, List.append_assoc]

/-- As many pages are asked for as are answered, and the one that is refused. -/
theorem asked_eq (pages : List Page) :
    asked pages = (answered pages).length + (refusal? pages).toList.length := by
  induction pages with
  | nil => rfl
  | cons page rest ih =>
    cases page with
    | refused message => rfl
    | entries xs =>
      rw [asked, ih, answered_entries, List.length_cons, refusal_entries]
      omega

end Page

/-! ## The listing of a service -/

/-- **A listing does not depend on its pages, and ends with the first that is refused.** For every
    sequence of pages that a service answers with, it hands over the objects for which the entries
    of the pages before the first refused one stand, in the order of the entries, then one error if
    some page is refused, and nothing more. The pages are asked for in turn, none behind a refused
    one. Another service that splits the same entries into other pages lists the same. -/
theorem listing_of_pages (s : Service) (w : World) (q : Query) :
    (∃ xs, PageEntry.Lists q (Page.entriesBefore (s.pagesOf q)) xs ∧
      s.store.list w q = { outcome := some (.ok
        (xs.map (fun x => { item := .ok x }) ++
          (Page.refusal? (s.pagesOf q)).toList.map fun message =>
            { item := .error (.listing q.under message) })) }) ∧
    ((Page.refusal? (s.pagesOf q)).isSome ↔ ∃ message, .refused message ∈ s.pagesOf q) ∧
    s.requests q = (List.range ((Page.answered (s.pagesOf q)).length +
      (Page.refusal? (s.pagesOf q)).toList.length)).map (fun page => ⟨q.under, q.offset, page⟩) ∧
    ∀ (t : Service) (parts parts' : List (List PageEntry)) (rest : List Page),
      parts.flatten = parts'.flatten → s.pagesOf q = parts.map .entries ++ rest →
      t.pagesOf q = parts'.map .entries ++ rest → t.store.list w q = s.store.list w q := by
  refine ⟨?_, Page.isSome_refusal, ?_, ?_⟩
  · obtain ⟨xs, hlists, hitems⟩ := Page.exists_items q (s.pagesOf q)
    refine ⟨xs, hlists, ?_⟩
    simp only [Service.store, Service.items, hitems, List.map_append, List.map_map,
      Function.comp_def]
  · rw [Service.requests, Page.asked_eq]
  · intro t parts parts' rest hflat hs ht
    have hsame : t.items q = s.items q := by
      obtain ⟨xs, hxs, hitems⟩ := Page.exists_items q (s.pagesOf q)
      obtain ⟨ys, hys, hitems'⟩ := Page.exists_items q (t.pagesOf q)
      rw [hs, Page.entriesBefore_split, hflat, ← Page.entriesBefore_split, ← ht] at hxs
      rw [Service.items, Service.items, hitems, hitems', hxs.unique hys, hs, ht,
        Page.refusal_split, Page.refusal_split]
    simp only [Service.store, hsame]

/-- A service that refuses a page, with entries of every kind before it and one more behind. -/
def refusingService : Service where
  pages _ _ :=
    [.entries [⟨some "logs/job-a/1/prowjob.json", some 1000⟩, ⟨none, some 2000⟩],
     .entries [],
     .entries [⟨some "logs/job-a/2/prowjob.json", none⟩,
       ⟨some "logs/job-b/1/prowjob.json", some 3000⟩,
       ⟨some "logs/job-a/3/prowjob.json", some (1000 * (lastSecond + 1))⟩,
       ⟨some "logs/job-a/4/prowjob.json", some 4000⟩],
     .refused "denied",
     .entries [⟨some "logs/job-a/5/prowjob.json", some 5000⟩]]
  object _ := .noSuchKey

/-- The same service with everything before the refusal on one page. -/
def onePageService : Service where
  pages under after :=
    .entries (Page.entriesBefore (refusingService.pages under after)) ::
      [.refused "denied", .entries [⟨some "logs/job-a/5/prowjob.json", some 5000⟩]]
  object _ := .noSuchKey

/-- It lists two objects and the refusal, after four requests; and so it would from one page. -/
theorem listing_of_pages_refused :
    refusingService.store.list { disk := {} } ⟨"logs/job-a/", none⟩ = { outcome := some (.ok
      [{ item := .ok ⟨"logs/job-a/1/prowjob.json", 1000⟩ },
       { item := .ok ⟨"logs/job-a/4/prowjob.json", 4000⟩ },
       { item := .error (.listing "logs/job-a/" "denied") }]) } ∧
    (refusingService.requests ⟨"logs/job-a/", none⟩).length = 4 ∧
    onePageService.store.list { disk := {} } ⟨"logs/job-a/", none⟩ =
      refusingService.store.list { disk := {} } ⟨"logs/job-a/", none⟩ := by
  obtain ⟨⟨xs, hlists, hlist⟩, _, hrequests, hsplit⟩ :=
    listing_of_pages refusingService { disk := {} } ⟨"logs/job-a/", none⟩
  have hxs : xs = [⟨"logs/job-a/1/prowjob.json", 1000⟩, ⟨"logs/job-a/4/prowjob.json", 4000⟩] := by
    rw [hlists.unique (PageEntry.lists_filter _ _)]
    decide
  refine ⟨?_, by rw [hrequests]; rfl, ?_⟩
  · rw [hlist, hxs]
    rfl
  · exact hsplit onePageService
      [[⟨some "logs/job-a/1/prowjob.json", some 1000⟩, ⟨none, some 2000⟩], [],
        [⟨some "logs/job-a/2/prowjob.json", none⟩, ⟨some "logs/job-b/1/prowjob.json", some 3000⟩,
          ⟨some "logs/job-a/3/prowjob.json", some (1000 * (lastSecond + 1))⟩,
          ⟨some "logs/job-a/4/prowjob.json", some 4000⟩]]
      [Page.entriesBefore (refusingService.pages "logs/job-a/" none)]
      [.refused "denied", .entries [⟨some "logs/job-a/5/prowjob.json", some 5000⟩]] rfl rfl rfl

end RunCache
