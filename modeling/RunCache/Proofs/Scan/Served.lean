import Mathlib.Data.List.Find
import RunCache.Proofs.Scan.Records

/-! # Scans of objects that stay

    A store may fail at any call and break a listing off at any place, but
    what it does hand over are the objects of one bucket.

    * **`Delivers`**: what a listing hands over of some objects.
    * **`Store.Serves`**: stores of one bucket.
    * **`scan_found`**: a scan that succeeds has found the runs of the whole
      bucket.
    * **`GroupsInto.mem_of_same`**: scans for which the same objects count
      find the same run. -/

namespace RunCache

/-! ## Stores of one bucket -/

/-- The bytes of an object. -/
def Memory.bytes (m : Memory) (name : String) : ByteArray :=
  (m.objects.get? name).elim .empty (·.body)

/-- What a listing hands over of some objects: all of them in turn, or the first few of them and
    then an error. -/
inductive Delivers : List Listed → List Delivery → Prop
  | done : Delivers [] []
  | broken (xs : List Listed) (e : Error) (fires : Bool) (more : List Delivery) :
      Delivers xs (⟨.error e, fires⟩ :: more)
  | next (x : Listed) (fires : Bool) {xs : List Listed} {items : List Delivery}
      (h : Delivers xs items) : Delivers (x :: xs) (⟨.ok x, fires⟩ :: items)

/-- A store of the objects of one bucket. Whatever has happened before, each call may fail, and a
    listing may break off. -/
structure Store.Serves (store : Store) (m : Memory) : Prop where
  lists : ∀ w q items, (store.list w q).outcome = some (.ok items) → Delivers (m.listing q) items
  reads : ∀ w name bytes, (store.read w name).outcome = some (.ok bytes) → bytes = m.bytes name

namespace Delivers

variable {xs : List Listed} {items : List Delivery}

/-- What is seen of a listing is the first part of the objects. -/
theorem seen_isPrefix (h : Delivers xs items) (fired : Bool) : Delivery.seen fired items <+: xs := by
  induction h generalizing fired with
  | done =>
    cases fired with
    | true => exact List.nil_prefix
    | false => exact List.nil_prefix
  | broken =>
    cases fired with
    | true => exact List.nil_prefix
    | false => exact List.nil_prefix
  | next x fires _ ih =>
    cases fired with
    | true => exact List.nil_prefix
    | false => exact (List.prefix_cons_inj x).mpr (ih fires)

/-- Where no error ends a listing, all objects are seen. -/
theorem seen_of_ending (h : Delivers xs items) {fired : Bool}
    (hend : Delivery.ending fired items = none) : Delivery.seen fired items = xs := by
  induction h generalizing fired with
  | done =>
    cases fired with
    | true => cases hend
    | false => rfl
  | broken =>
    cases fired with
    | true => cases hend
    | false => cases hend
  | next x fires _ ih =>
    cases fired with
    | true => cases hend
    | false =>
      show x :: Delivery.seen fires _ = _
      rw [ih hend]

/-- A listing that hands over all objects. -/
theorem all (xs : List Listed) : Delivers xs (xs.map fun x => { item := .ok x }) := by
  induction xs with
  | nil => exact .done
  | cons x xs ih => exact .next x false ih

/-- A listing that breaks off after some objects. -/
theorem take (xs : List Listed) (n : Nat) (e : Error) :
    Delivers xs (((xs.take n).map Except.ok ++ [Except.error e]).map fun item => { item }) := by
  induction xs generalizing n with
  | nil =>
    rw [List.take_nil]
    exact .broken [] e false []
  | cons x xs ih =>
    cases n with
    | zero => exact .broken (x :: xs) e false []
    | succ n => exact .next x false (ih n)

end Delivers

/-- The objects in memory are served, whatever is made to fail. -/
theorem Memory.store_serves (m : Memory) : m.store.Serves m := by
  refine ⟨fun w q items houtcome => ?_, fun w name bytes houtcome => ?_⟩
  · have hitems : (m.items q).map (fun item => ({ item } : Delivery)) = items :=
      Except.ok.inj (Option.some.inj houtcome)
    -- Nothing is listed but the objects, to the end or as far as the listing holds.
    have hall : Delivers (m.listing q) (((m.listing q).map Except.ok).map fun item => { item }) := by
      rw [List.map_map]
      exact .all _
    rw [← hitems]
    unfold Memory.items
    cases m.brokenAfter with
    | none => exact hall
    | some n =>
      simp only
      split
      · exact .take _ n _
      · exact hall
  · have hbody : m.body name = .ok bytes := Option.some.inj houtcome
    unfold Memory.body at hbody
    split at hbody
    · cases hbody
    · split at hbody
      · next stored hget =>
        rw [Memory.bytes, hget]
        exact (Except.ok.inj hbody).symm
      · cases hbody

/-! ## Scans -/

namespace Store.Serves

variable {store : Store} {m : Memory} {o : ScanOptions} {job : String} {w : World}
  {runs : List Run}

/-- A scan sees the first part of the objects, and all of them where no error ends the listing. -/
theorem listedBefore_isPrefix (h : store.Serves m) (w : World) (q : Query) :
    listedBefore (w.list store q) <+: m.listing q ∧
      (listingError (w.list store q) = none → listedBefore (w.list store q) = m.listing q) := by
  cases hlist : w.list store q with
  | mk result w' =>
    cases result with
    | error e => exact ⟨List.nil_prefix, fun hnone => by cases hnone⟩
    | ok items =>
      have hdelivers := h.lists w q items (World.outcome_of_call hlist)
      exact ⟨hdelivers.seen_isPrefix _, hdelivers.seen_of_ending⟩

/-- A scan that succeeds has found the runs of all objects. -/
theorem scan_found (h : store.Serves m) (hscan : (scan store o job w).1 = .ok runs) :
    GroupsInto o w.now job (m.listing (o.query job)) runs := by
  obtain ⟨found, w', heq, _⟩ := scan_eq store o job w
  have hgroups := scannedRuns_groupsInto store o job w
  rw [hscan] at hgroups
  obtain ⟨_, hall⟩ := h.listedBefore_isPrefix w (o.query job)
  cases hend : listingError (w.list store (o.query job)) with
  | some e =>
    rw [heq, hend] at hscan
    cases hscan
  | none =>
    rw [hall hend] at hgroups
    exact hgroups

end Store.Serves

/-! ## Scans that find the same -/

namespace ScanOptions

variable {o o' : ScanOptions} {now now' : Int} {job id : String} {xs ys zs : List Listed}

/-- A window covers objects if all of them are recent enough. -/
def Recent (o : ScanOptions) (now : Int) (xs : List Listed) : Prop :=
  ∀ x ∈ xs, now - x.created ≤ o.window

/-- The same objects count for a run in both of two scans, and as the same. -/
def SameFor (o : ScanOptions) (now : Int) (o' : ScanOptions) (now' : Int) (xs : List Listed)
    (id : String) : Prop :=
  ∀ x ∈ xs, (o.IsDescriptorOf now id x ↔ o'.IsDescriptorOf now' id x) ∧
    (o.IsResultOf now id x ↔ o'.IsResultOf now' id x)

/-- Scans whose windows cover all objects differ by the least id at most. -/
theorem sameFor_of_recent (hrecent : o.Recent now xs) (hrecent' : o'.Recent now' xs)
    (hleast : (∀ least ∈ o.leastId, RunId.order id least ≠ .lt) ↔
      ∀ least ∈ o'.leastId, RunId.order id least ≠ .lt) : SameFor o now o' now' xs id := by
  intro x hx
  have hnew := hrecent x hx
  have hnew' := hrecent' x hx
  simp only [IsDescriptorOf, IsResultOf, hnew, hnew', hleast, true_and, and_self]

/-- A run is the same in scans for which the same objects count. -/
theorem SameFor.record (h : SameFor o now o' now' xs id) :
    o.record now job xs id = o'.record now' job xs id := by
  have hfind : xs.find? (fun x => o.IsDescriptorOf now id x) =
      xs.find? fun x => o'.IsDescriptorOf now' id x := by
    refine List.find?_congr fun x hx => ?_
    simp only [(h x hx).1]
  have hfilter : xs.filter (fun x => o.IsResultOf now id x) =
      xs.filter fun x => o'.IsResultOf now' id x := by
    refine List.filter_congr fun x hx => ?_
    simp only [(h x hx).2]
  rw [ScanOptions.record, ScanOptions.record, hfind, hfilter]

theorem SameFor.firstSeen (h : SameFor o now o' now' xs id) :
    o.firstSeen now xs id = o'.firstSeen now' xs id := by
  induction xs with
  | nil => rfl
  | cons x xs ih =>
    have htail := ih fun y hy => h y (List.mem_cons_of_mem x hy)
    have hhead : o.CountsFor now id x ↔ o'.CountsFor now' id x :=
      or_congr (h x (by simp)).1 (h x (by simp)).2
    simp only [ScanOptions.firstSeen] at htail
    simp only [ScanOptions.firstSeen, List.findIdx_cons, hhead, htail]

/-- What a record holds: objects of the kinds that count for its run. -/
theorem record_kinds (o : ScanOptions) (now : Int) (job : String) (xs : List Listed) (id : String) :
    (∀ p ∈ (o.record now job xs id).descriptorPath, ObjectKind.ofName p = .descriptor id) ∧
      ∀ p ∈ (o.record now job xs id).resultPaths, ObjectKind.ofName p = .result id := by
  refine ⟨fun p hp => ?_, fun p hp => ?_⟩
  · obtain ⟨x, hx, rfl⟩ := Option.map_eq_some_iff.mp hp
    have hcounts : o.IsDescriptorOf now id x := by simpa using List.find?_some hx
    exact hcounts.2.1
  · obtain ⟨x, hx, rfl⟩ := List.mem_map.mp hp
    have hcounts : o.IsResultOf now id x := by simpa using (List.mem_filter.mp hx).2
    exact hcounts.2.1

/-- Objects that do not count for a run leave it as it is. -/
theorem record_append_of_idle (h : ∀ x ∈ zs, ¬ o.CountsFor now id x) :
    o.record now job (ys ++ zs) id = o.record now job ys id := by
  induction zs using List.reverseRecOn with
  | nil => rw [List.append_nil]
  | append_singleton zs z ih =>
    rw [← List.append_assoc, record_append_of_not_counts (h z (by simp))]
    exact ih fun x hx => h x (List.mem_append_left _ hx)

/-- With more objects a run that has a descriptor keeps it, and keeps its test results. -/
theorem record_append_extends (zs : List Listed)
    (hdesc : (o.record now job ys id).descriptorPath.isSome) :
    (o.record now job (ys ++ zs) id).descriptorPath = (o.record now job ys id).descriptorPath ∧
      (o.record now job ys id).resultPaths ⊆ (o.record now job (ys ++ zs) id).resultPaths := by
  simp only [record, Option.isSome_map] at hdesc
  obtain ⟨x, hx⟩ := Option.isSome_iff_exists.mp hdesc
  simp [record, List.find?_append, hx]

end ScanOptions

namespace GroupsInto

variable {o o' : ScanOptions} {now now' : Int} {job : String} {xs : List Listed}
  {runs runs' : List Run} {r : Run}

theorem mem_iff (h : GroupsInto o now job xs runs) :
    r ∈ runs ↔ r = o.record now job xs r.id ∧ ∃ x ∈ xs, o.IsDescriptorOf now r.id x := by
  constructor
  · exact fun hr => ⟨h.records r hr, (h.ids r.id).mp ⟨r, hr, rfl⟩⟩
  · rintro ⟨hrecord, hdesc⟩
    obtain ⟨s, hs, hid⟩ := (h.ids r.id).mpr hdesc
    rw [hrecord, ← hid, ← h.records s hs]
    exact hs

/-- Scans for which the same objects count find the same run. -/
theorem mem_of_same (h : GroupsInto o now job xs runs) (h' : GroupsInto o' now' job xs runs')
    (hsame : ScanOptions.SameFor o now o' now' xs r.id) (hr : r ∈ runs) : r ∈ runs' := by
  obtain ⟨hrecord, x, hx, hdesc⟩ := h.mem_iff.mp hr
  exact h'.mem_iff.mpr ⟨hrecord.trans hsame.record, x, hx, (hsame x hx).1.mp hdesc⟩

/-- Scans for which the same objects count group them alike. -/
theorem of_same (h : GroupsInto o now job xs runs)
    (hsame : ∀ id, ScanOptions.SameFor o now o' now' xs id) : GroupsInto o' now' job xs runs := by
  refine ⟨fun id => ?_, ?_, fun r hr => (h.records r hr).trans (hsame r.id).record⟩
  · rw [h.ids]
    constructor
    · rintro ⟨x, hx, hdesc⟩
      exact ⟨x, hx, (hsame id x hx).1.mp hdesc⟩
    · rintro ⟨x, hx, hdesc⟩
      exact ⟨x, hx, (hsame id x hx).1.mpr hdesc⟩
  · refine h.inOrder.imp fun {r s} hlt => ?_
    rw [← (hsame r.id).firstSeen, ← (hsame s.id).firstSeen]
    exact hlt

/-! ### Listings that were broken off -/

variable {seen behind : List Listed} {a : Run}

/-- A run found before a listing broke off has its descriptor and some of its test results. -/
theorem extended (hseen : GroupsInto o now job seen runs)
    (hall : GroupsInto o now job (seen ++ behind) runs') (ha : a ∈ runs) :
    ∃ t ∈ runs', t.id = a.id ∧ t.job = a.job ∧ t.descriptorPath = a.descriptorPath ∧
      a.resultPaths ⊆ t.resultPaths := by
  obtain ⟨hrecord, x, hx, hdesc⟩ := hseen.mem_iff.mp ha
  obtain ⟨t, ht, hid⟩ := (hall.ids a.id).mpr ⟨x, List.mem_append_left _ hx, hdesc⟩
  have hfull : t = o.record now job (seen ++ behind) a.id := by
    rw [← hid]
    exact hall.records t ht
  have hsome : (o.record now job seen a.id).descriptorPath.isSome := by
    simpa [ScanOptions.record] using ⟨x, hx, hdesc⟩
  obtain ⟨hpath, hresults⟩ := ScanOptions.record_append_extends behind hsome
  rw [← hfull, ← hrecord] at hpath hresults
  refine ⟨t, ht, hid, ?_, hpath, hresults⟩
  rw [hfull, hrecord]
  rfl

/-- A run all of whose objects were listed before the first of another one was found whole before
    that one. -/
theorem found_before (hseen : GroupsInto o now job seen runs)
    (hall : GroupsInto o now job (seen ++ behind) runs') (ha : a ∈ runs) (hr : r ∈ runs')
    (hbefore : ∀ y ∈ (seen ++ behind).drop (o.firstSeen now (seen ++ behind) a.id),
      ¬ o.CountsFor now r.id y) :
    r ∈ runs ∧ o.firstSeen now seen r.id < o.firstSeen now seen a.id := by
  obtain ⟨_, x, hx, hdesc⟩ := hseen.mem_iff.mp ha
  have hmem : a.id ∈ o.ids now seen := ScanOptions.mem_ids.mpr ⟨x, hx, .inl hdesc⟩
  have hlt := ScanOptions.firstSeen_lt_length hmem
  rw [ScanOptions.firstSeen_append_of_mem hmem, List.drop_append_of_le_length (by omega)]
    at hbefore
  -- All objects of the run were seen, so it was found whole.
  have hidle : ∀ y ∈ behind, ¬ o.CountsFor now r.id y :=
    fun y hy => hbefore y (List.mem_append_right _ hy)
  obtain ⟨hrecord, y, hy, hdesc'⟩ := hall.mem_iff.mp hr
  have hy' : y ∈ seen := by
    rcases List.mem_append.mp hy with hy | hy
    · exact hy
    · exact absurd (.inl hdesc') (hidle y hy)
  rw [ScanOptions.record_append_of_idle hidle] at hrecord
  refine ⟨hseen.mem_iff.mpr ⟨hrecord, y, hy', hdesc'⟩, ?_⟩
  -- The first object of the run is not among those behind.
  have hlt' := ScanOptions.firstSeen_lt_length (ScanOptions.mem_ids.mpr ⟨y, hy', .inl hdesc'⟩)
  have hcounts : o.CountsFor now r.id (seen[o.firstSeen now seen r.id]) :=
    of_decide_eq_true (List.findIdx_getElem (w := hlt'))
  by_contra hnot
  refine hbefore _ (List.mem_append_left _ (List.mem_drop_iff_getElem.mpr ?_)) hcounts
  exact ⟨o.firstSeen now seen r.id - o.firstSeen now seen a.id, by omega, by congr 1; omega⟩

end GroupsInto

end RunCache
