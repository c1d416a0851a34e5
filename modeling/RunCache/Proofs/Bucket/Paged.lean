import RunCache.Bucket.Paged
import RunCache.Proofs.Bucket.Memory

/-! # Listings of a service

    A service answers with the objects behind the offset of a query, the
    query itself takes the one that is named like its offset as well.

    * **`Service.Serves`**: a service that answers for the objects of a
      bucket.
    * **`Page.items_entries`**: the split into pages is not seen.
    * **`Service.Serves.items_eq`**: what is listed.
    * **`paged_listing`**: how far the service and the bucket agree. -/

namespace RunCache

/-! ## Pages -/

/-- Pages that are not refused list their entries as one page would. -/
theorem Page.items_entries (q : Query) (parts : List (List PageEntry)) :
    Page.items q (parts.map .entries) =
      ((parts.flatten.filterMap PageEntry.listed?).filter fun x => q.admits x.name).map .ok := by
  induction parts with
  | nil => rfl
  | cons xs rest ih =>
    rw [List.map_cons, Page.items, ih, List.flatten_cons, List.filterMap_append,
      List.filter_append, List.map_append]

/-! ## What a service answers -/

/-- The entry of an object that is listed. -/
def PageEntry.ofListed (x : Listed) : PageEntry := ⟨some x.name, some x.created⟩

theorem PageEntry.listed_ofListed {x : Listed} (hdate : hasDate x.created = true) :
    (PageEntry.ofListed x).listed? = some x := by
  simp [listed?, ofListed, hdate]

/-- The objects whose names begin with a text and sort behind another one, in the order of names. -/
def Memory.behind (m : Memory) (under : String) (after : Option String) : List Listed :=
  (m.objects.filter fun e => Text.startsWith e.1 under && after.all fun a => decide (a < e.1)).map
    fun e => ⟨e.1, e.2.created⟩

namespace Service

/-- A service for the objects of a bucket, all of which have dates. To a request it answers with the
    objects behind, in any pages. -/
structure Serves (s : Service) (m : Memory) : Prop where
  dated : ∀ e ∈ m.objects, hasDate e.2.created = true
  pages : ∀ under after, ∃ parts : List (List PageEntry),
    s.pages under after = parts.map .entries ∧
      parts.flatten = (m.behind under after).map .ofListed

/-- A service that answers with one object on each page. -/
def oneByOne (m : Memory) : Service where
  pages under after := (m.behind under after).map fun x => .entries [.ofListed x]
  object name :=
    match m.objects.get? name with
    | some stored => .body stored.body
    | none => .noSuchKey

theorem oneByOne_serves {m : Memory} (hdated : ∀ e ∈ m.objects, hasDate e.2.created = true) :
    (oneByOne m).Serves m where
  dated := hdated
  pages under after := by
    refine ⟨(m.behind under after).map fun x => [.ofListed x], ?_, ?_⟩
    · simp [oneByOne]
    · rw [← List.flatMap_def, List.map_eq_flatMap]

/-! ## What is listed -/

variable {s : Service} {m : Memory} {q : Query} {name : String} {x : Listed}

/-- Inside a query are the names that begin with its text and do not sort before its offset. -/
theorem admits_iff : q.admits name = true ↔
    Text.startsWith name q.under = true ∧ ∀ offset, q.offset = some offset → offset ≤ name := by
  simp only [Query.admits, Bool.and_eq_true, Option.all_eq_true, Bool.not_eq_true',
    decide_eq_false_iff_not, not_lt]

/-- The objects behind the offset of a query are those inside the query but the one that is named
    like the offset. -/
theorem behind_eq_listing (m : Memory) (q : Query) :
    m.behind q.under q.offset = (m.listing q).filter fun x => decide (q.offset ≠ some x.name) := by
  unfold Memory.behind Memory.listing
  rw [List.filter_map, List.filter_filter]
  refine congrArg _ (List.filter_congr fun e _ => Bool.eq_iff_iff.mpr ?_)
  have hbehind (a : String) : a < e.1 ↔ a ≤ e.1 ∧ a ≠ e.1 := lt_iff_le_and_ne
  simp only [Function.comp_apply, Bool.and_eq_true, admits_iff, Option.all_eq_true,
    decide_eq_true_eq, hbehind]
  -- The offset of the query is either missing or one name.
  cases q.offset with
  | none => simp
  | some a => simp only [Option.some.injEq, forall_eq', ne_eq]; tauto

/-- A service lists the objects inside the query but the one that is named like its offset. -/
theorem Serves.items_eq (h : s.Serves m) (q : Query) :
    s.items q = ((m.listing q).filter fun x => decide (q.offset ≠ some x.name)).map .ok := by
  obtain ⟨parts, hpages, hparts⟩ := h.pages q.under q.offset
  -- Every entry has a name and a date, and is inside the query.
  have hlisted : ((m.behind q.under q.offset).map .ofListed).filterMap PageEntry.listed? =
      m.behind q.under q.offset := by
    rw [List.filterMap_map]
    refine (List.filterMap_congr fun x hx => ?_).trans List.filterMap_some
    obtain ⟨e, he, rfl⟩ := List.mem_map.mp hx
    exact PageEntry.listed_ofListed (h.dated e (List.mem_filter.mp he).1)
  have hadmits : ∀ x ∈ m.behind q.under q.offset, q.admits x.name = true := by
    intro x hx
    rw [behind_eq_listing] at hx
    obtain ⟨e, he, rfl⟩ := List.mem_map.mp (List.mem_filter.mp hx).1
    exact (List.mem_filter.mp he).2
  rw [items, pagesOf, hpages, Page.items_entries, hparts, hlisted, List.filter_eq_self.mpr hadmits,
    behind_eq_listing]

/-- Every object inside a query is listed exactly when none of them is named like the offset. -/
theorem filter_names_eq_iff (hsorted : m.objects.Sorted) :
    ((m.listing q).filter fun x => decide (q.offset ≠ some x.name)).map Listed.name =
        (m.listing q).map Listed.name ↔
      ∀ name, q.offset = some name → Text.startsWith name q.under = true →
        m.objects.get? name = none := by
  constructor
  · intro hnames name hoffset hunder
    -- The object would be among the names on the right, but not among those on the left.
    by_contra hobject
    obtain ⟨⟨body, created⟩, hget⟩ := Option.ne_none_iff_exists'.mp hobject
    have hadmits : q.admits name = true := by
      refine admits_iff.mpr ⟨hunder, fun a ha => ?_⟩
      exact le_of_eq (Option.some.inj (ha.symm.trans hoffset))
    have hmem : (⟨name, created⟩ : Listed) ∈ m.listing q :=
      (Memory.mem_listing hsorted).mpr ⟨hadmits, body, hget⟩
    have hleft := List.mem_map_of_mem (f := Listed.name) hmem
    rw [← hnames] at hleft
    obtain ⟨x, hx, hname⟩ := List.mem_map.mp hleft
    have hkept := (List.mem_filter.mp hx).2
    simp [hoffset, hname] at hkept
  · intro hnone
    refine congrArg _ (List.filter_eq_self.mpr fun x hx => ?_)
    obtain ⟨hadmits, body, hget⟩ := (Memory.mem_listing hsorted).mp hx
    refine decide_eq_true fun hoffset => ?_
    rw [hnone x.name hoffset (admits_iff.mp hadmits).1] at hget
    cases hget

end Service

/-! ## The service and the bucket -/

/-- The answer that hands over some objects and ends. -/
def Reply.whole (xs : List Listed) : Reply (List Delivery) :=
  { outcome := some (.ok (xs.map fun x => { item := .ok x })) }

/-- A service hands over the objects inside the query but the one that is named like its offset. -/
theorem Service.Serves.store_list {s : Service} {m : Memory} (h : s.Serves m) (w : World)
    (q : Query) : s.store.list w q =
      .whole ((m.listing q).filter fun x => decide (q.offset ≠ some x.name)) := by
  simp [Service.store, Reply.whole, h.items_eq q, Function.comp_def]

/-- For every bucket and every query, a service lists the objects that the bucket lists, in the same
    order, but never the one that is named like the offset of the query. So both list the same names
    exactly when no object inside the query is named so. -/
theorem paged_listing {s : Service} {m : Memory} (hserves : s.Serves m)
    (hsorted : m.objects.Sorted) (hwhole : m.brokenAfter = none) (w : World) (q : Query) :
    m.store.list w q = .whole (m.listing q) ∧
    s.store.list w q =
      .whole ((m.listing q).filter fun x => decide (q.offset ≠ some x.name)) ∧
    (((m.listing q).filter fun x => decide (q.offset ≠ some x.name)).map Listed.name =
        (m.listing q).map Listed.name ↔
      ∀ name, q.offset = some name → Text.startsWith name q.under = true →
        m.objects.get? name = none) :=
  ⟨Memory.store_list hwhole w q, hserves.store_list w q, Service.filter_names_eq_iff hsorted⟩

/-- The descriptors of two runs. -/
def twoDescriptors : Memory where
  objects := [("logs/job-a/1/prowjob.json", ⟨.empty, 1000⟩),
    ("logs/job-a/2/prowjob.json", ⟨.empty, 2000⟩)]

theorem twoDescriptors_served : (Service.oneByOne twoDescriptors).Serves twoDescriptors :=
  Service.oneByOne_serves (by decide)

/-- No object is named like the directory of a run, so from there on both list both descriptors, the
    service on a page each. -/
theorem paged_listing_from_directory :
    twoDescriptors.store.list { disk := {} } ⟨"logs/job-a/", some "logs/job-a/1"⟩ =
      .whole [⟨"logs/job-a/1/prowjob.json", 1000⟩, ⟨"logs/job-a/2/prowjob.json", 2000⟩] ∧
    (Service.oneByOne twoDescriptors).store.list { disk := {} }
        ⟨"logs/job-a/", some "logs/job-a/1"⟩ =
      .whole [⟨"logs/job-a/1/prowjob.json", 1000⟩, ⟨"logs/job-a/2/prowjob.json", 2000⟩] := by
  have hsorted : twoDescriptors.objects.Sorted := by
    unfold Fields.Sorted
    decide
  have hlisting : twoDescriptors.listing ⟨"logs/job-a/", some "logs/job-a/1"⟩ =
      [⟨"logs/job-a/1/prowjob.json", 1000⟩, ⟨"logs/job-a/2/prowjob.json", 2000⟩] := by decide
  obtain ⟨hbucket, hservice, _⟩ := paged_listing twoDescriptors_served hsorted rfl { disk := {} }
    ⟨"logs/job-a/", some "logs/job-a/1"⟩
  rw [hlisting] at hbucket hservice
  exact ⟨hbucket, hservice⟩

/-- From the name of a descriptor on, the bucket lists it and the service does not. -/
theorem paged_listing_lacks_offset :
    (Service.oneByOne twoDescriptors).Serves twoDescriptors ∧
    twoDescriptors.store.list { disk := {} }
        ⟨"logs/job-a/", some "logs/job-a/1/prowjob.json"⟩ =
      .whole [⟨"logs/job-a/1/prowjob.json", 1000⟩, ⟨"logs/job-a/2/prowjob.json", 2000⟩] ∧
    (Service.oneByOne twoDescriptors).store.list { disk := {} }
        ⟨"logs/job-a/", some "logs/job-a/1/prowjob.json"⟩ =
      .whole [⟨"logs/job-a/2/prowjob.json", 2000⟩] := by
  refine ⟨twoDescriptors_served, ?_, ?_⟩
  · have hlisting : twoDescriptors.listing ⟨"logs/job-a/", some "logs/job-a/1/prowjob.json"⟩ =
        [⟨"logs/job-a/1/prowjob.json", 1000⟩, ⟨"logs/job-a/2/prowjob.json", 2000⟩] := by decide
    rw [Memory.store_list rfl, hlisting]
    rfl
  · have hbehind : (twoDescriptors.listing ⟨"logs/job-a/", some "logs/job-a/1/prowjob.json"⟩).filter
        (fun x => decide (some "logs/job-a/1/prowjob.json" ≠ some x.name)) =
          [⟨"logs/job-a/2/prowjob.json", 2000⟩] := by decide
    rw [twoDescriptors_served.store_list, hbehind]

end RunCache
