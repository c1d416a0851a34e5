import Mathlib.Data.List.Induction
import RunCache.Cache.Scan
import RunCache.Proofs.World

/-! # What a scan finds

    A scan is one pass over a listing that keeps a list of runs up to date.
    Here its answer is said without that list, from the objects that were
    handed over before the listing ended:

    * **`ScanOptions.IsDescriptorOf`**, **`ScanOptions.IsResultOf`**: the
      objects that count, and for which run.
    * **`ScanOptions.record`**: the run of an id among such objects.
    * **`Delivery.seen`**, **`Delivery.ending`**: the objects before the end
      of a listing, and the error that ends it.
    * **`GroupsInto`**: the runs a list of objects holds.

    The loop keeps one record for each id met so far, in the order of their
    first objects (`foldl_add_eq_records`); a scan that ends in whatever way
    holds the complete ones of these (`scan_groups_listing`). -/

namespace RunCache

/-! ## Objects that count -/

namespace ScanOptions

variable (o : ScanOptions) (now : Int)

/-- A recent object that is a descriptor of a run, of an id that does not stay below the least. -/
def IsDescriptorOf (id : String) (x : Listed) : Prop :=
  now - x.created ≤ o.window ∧ ObjectKind.ofName x.name = .descriptor id ∧
    ∀ least ∈ o.leastId, RunId.order id least ≠ .lt

/-- A recent object that is a test result of a run, of an id that does not stay below the least. -/
def IsResultOf (id : String) (x : Listed) : Prop :=
  now - x.created ≤ o.window ∧ ObjectKind.ofName x.name = .result id ∧
    ∀ least ∈ o.leastId, RunId.order id least ≠ .lt

instance (id : String) : DecidablePred (o.IsDescriptorOf now id) := fun _ => instDecidableAnd

instance (id : String) : DecidablePred (o.IsResultOf now id) := fun _ => instDecidableAnd

/-- The objects that count for a run. -/
def CountsFor (id : String) (x : Listed) : Prop :=
  o.IsDescriptorOf now id x ∨ o.IsResultOf now id x

instance (id : String) : DecidablePred (o.CountsFor now id) := fun _ => instDecidableOr

/-- The run of an id among objects: its first descriptor and all its test results, in order. Its
    contents have not been read. -/
def record (job : String) (xs : List Listed) (id : String) : Run where
  job := job
  id := id
  descriptorPath := (xs.find? fun x => o.IsDescriptorOf now id x).map (·.name)
  resultPaths := (xs.filter fun x => o.IsResultOf now id x).map (·.name)
  origin := .bucket []

/-- The place of the first object that counts for a run. -/
def firstSeen (xs : List Listed) (id : String) : Nat :=
  xs.findIdx fun x => o.CountsFor now id x

end ScanOptions

/-- The runs that a list of objects holds: one for each id that has a descriptor, in the order in
    which their ids are first seen. -/
structure GroupsInto (o : ScanOptions) (now : Int) (job : String) (xs : List Listed)
    (runs : List Run) : Prop where
  ids : ∀ id, (∃ r ∈ runs, r.id = id) ↔ ∃ x ∈ xs, o.IsDescriptorOf now id x
  inOrder : runs.Pairwise fun r s => o.firstSeen now xs r.id < o.firstSeen now xs s.id
  records : ∀ r ∈ runs, r = o.record now job xs r.id

/-! ## Objects before the end of a listing -/

namespace Delivery

/-- The objects handed over until the signal is found fired, an error comes or the items end. -/
def seen : (fired : Bool) → List Delivery → List Listed
  | true, _ => []
  | false, [] => []
  | false, ⟨.error _, _⟩ :: _ => []
  | false, ⟨.ok object, fires⟩ :: rest => object :: seen fires rest

/-- The error that ends a listing. -/
def ending : (fired : Bool) → List Delivery → Option Error
  | true, _ => some .cancelled
  | false, [] => none
  | false, ⟨.error e, _⟩ :: _ => some e
  | false, ⟨.ok _, fires⟩ :: rest => ending fires rest

end Delivery

/-- The objects that a scan sees. -/
def listedBefore (answer : Except Error (List Delivery) × World) : List Listed :=
  match answer with
  | (.error _, _) => []
  | (.ok items, w) => Delivery.seen w.signal.fired items

/-- The error that a scan meets. -/
def listingError (answer : Except Error (List Delivery) × World) : Option Error :=
  match answer with
  | (.error e, _) => some e
  | (.ok items, w) => Delivery.ending w.signal.fired items

/-! ## Kinds of objects that count -/

namespace ScanOptions

variable {o : ScanOptions} {now : Int} {id : String} {x : Listed}

theorem isBelow_eq_false_iff :
    o.isBelow id = false ↔ ∀ least ∈ o.leastId, RunId.order id least ≠ .lt := by
  unfold isBelow
  cases o.leastId with
  | none => simp
  | some least => simp

theorem kind_eq_some_iff (kind : ObjectKind) :
    o.kind? now x = some kind ↔
      now - x.created ≤ o.window ∧ ObjectKind.ofName x.name = kind ∧
        ∀ id, kind.runId? = some id → o.isBelow id = false := by
  unfold kind?
  by_cases hage : now - x.created > o.window
  · have hold : ¬ now - x.created ≤ o.window := by omega
    simp [hage, hold]
  · have hnew : now - x.created ≤ o.window := by omega
    simp only [if_neg hage]
    -- An object that belongs to no run cannot order below the least id.
    cases hrun : (ObjectKind.ofName x.name).runId? with
    | none =>
      simp only [Option.any_none, Bool.false_eq_true, if_false, Option.some.injEq, hnew, true_and]
      constructor
      · rintro rfl
        simp [hrun]
      · exact fun h => h.1
    | some id =>
      by_cases hbelow : o.isBelow id = true
      · simp only [Option.any_some, hbelow, if_true, reduceCtorEq, false_iff]
        rintro ⟨_, rfl, habove⟩
        rw [habove id hrun] at hbelow
        cases hbelow
      · simp only [Option.any_some, hbelow, Bool.false_eq_true, if_false, Option.some.injEq, hnew,
          true_and]
        constructor
        · rintro rfl
          refine ⟨rfl, fun id' hid => ?_⟩
          obtain rfl := Option.some.inj (hrun.symm.trans hid)
          simpa using hbelow
        · exact fun h => h.1

theorem kind_eq_descriptor_iff :
    o.kind? now x = some (.descriptor id) ↔ o.IsDescriptorOf now id x := by
  rw [kind_eq_some_iff, IsDescriptorOf, ← isBelow_eq_false_iff]
  simp [ObjectKind.runId?]

theorem kind_eq_result_iff :
    o.kind? now x = some (.result id) ↔ o.IsResultOf now id x := by
  rw [kind_eq_some_iff, IsResultOf, ← isBelow_eq_false_iff]
  simp [ObjectKind.runId?]

/-- An object counts for one run at most. -/
theorem CountsFor.unique {id' : String} (h : o.CountsFor now id x) (h' : o.CountsFor now id' x) :
    id = id' := by
  rcases h with ⟨_, hk, _⟩ | ⟨_, hk, _⟩ <;> rcases h' with ⟨_, hk', _⟩ | ⟨_, hk', _⟩ <;>
    rw [hk] at hk' <;> cases hk' <;> rfl

end ScanOptions

/-! ## Ids in the order in which they are first seen -/

namespace ScanOptions

variable {o : ScanOptions} {now : Int} {id : String} {x : Listed} {xs : List Listed}

theorem runId_eq_some_iff : (o.kind? now x).bind ObjectKind.runId? = some id ↔
    o.CountsFor now id x := by
  rw [CountsFor, ← kind_eq_descriptor_iff, ← kind_eq_result_iff]
  cases o.kind? now x with
  | none => simp
  | some kind => cases kind <;> simp [ObjectKind.runId?]

/-- The ids that objects count for, in the order in which they are first seen. -/
def ids (o : ScanOptions) (now : Int) (xs : List Listed) : List String :=
  (xs.filterMap fun x => (o.kind? now x).bind ObjectKind.runId?).eraseDups

theorem mem_ids : id ∈ o.ids now xs ↔ ∃ x ∈ xs, o.CountsFor now id x := by
  simp [ids, runId_eq_some_iff]

theorem ids_append_of_counts (hx : o.CountsFor now id x) :
    o.ids now (xs ++ [x]) = if id ∈ o.ids now xs then o.ids now xs else o.ids now xs ++ [id] := by
  have hid : (o.kind? now x).bind ObjectKind.runId? = some id := runId_eq_some_iff.mpr hx
  unfold ids
  rw [List.filterMap_append]
  generalize xs.filterMap (fun x => (o.kind? now x).bind ObjectKind.runId?) = met
  have hone : [x].filterMap (fun x => (o.kind? now x).bind ObjectKind.runId?) = [id] := by
    simp [hid]
  rw [hone, List.eraseDups_append]
  by_cases h : id ∈ met <;> simp [List.removeAll, List.eraseDups_cons, h]

theorem ids_append_of_idle (hx : ∀ id, ¬ o.CountsFor now id x) :
    o.ids now (xs ++ [x]) = o.ids now xs := by
  have hnone : (o.kind? now x).bind ObjectKind.runId? = none := by
    cases h : (o.kind? now x).bind ObjectKind.runId? with
    | none => rfl
    | some id => exact absurd (runId_eq_some_iff.mp h) (hx id)
  simp [ids, hnone]

theorem firstSeen_append_of_mem (h : id ∈ o.ids now xs) (ys : List Listed) :
    o.firstSeen now (xs ++ ys) id = o.firstSeen now xs id := by
  obtain ⟨x, hx, hc⟩ := mem_ids.mp h
  have hlt : xs.findIdx (fun x => o.CountsFor now id x) < xs.length :=
    List.findIdx_lt_length_of_exists ⟨x, hx, by simpa using hc⟩
  simp [firstSeen, List.findIdx_append, hlt]

theorem firstSeen_lt_length (h : id ∈ o.ids now xs) : o.firstSeen now xs id < xs.length := by
  obtain ⟨x, hx, hc⟩ := mem_ids.mp h
  exact List.findIdx_lt_length_of_exists ⟨x, hx, by simpa using hc⟩

theorem firstSeen_append_of_not_mem (h : id ∉ o.ids now xs) (hx : o.CountsFor now id x) :
    o.firstSeen now (xs ++ [x]) id = xs.length := by
  have hnone : xs.findIdx (fun x => o.CountsFor now id x) = xs.length := by
    rw [List.findIdx_eq_length]
    intro y hy
    simpa using fun hc => h (mem_ids.mpr ⟨y, hy, hc⟩)
  simp [firstSeen, List.findIdx_append, hnone, hx]

/-- Ids stand in the order of their first objects, so each one stands there once. -/
theorem ids_pairwise (xs : List Listed) :
    (o.ids now xs).Pairwise fun i j => o.firstSeen now xs i < o.firstSeen now xs j := by
  induction xs using List.reverseRecOn with
  | nil => simp [ids]
  | append_singleton xs x ih =>
    have hold : (o.ids now xs).Pairwise fun i j =>
        o.firstSeen now (xs ++ [x]) i < o.firstSeen now (xs ++ [x]) j := by
      -- The ids met before keep their places.
      refine ih.imp_of_mem fun hi hj hlt => ?_
      rwa [firstSeen_append_of_mem hi, firstSeen_append_of_mem hj]
    by_cases hx : ∃ id, o.CountsFor now id x
    · obtain ⟨id, hid⟩ := hx
      rw [ids_append_of_counts hid]
      split
      · exact hold
      · next hnew =>
        refine List.pairwise_append.mpr ⟨hold, by simp, fun i hi j hj => ?_⟩
        -- A new id is first seen behind all of them.
        obtain rfl := List.mem_singleton.mp hj
        rw [firstSeen_append_of_mem hi, firstSeen_append_of_not_mem hnew hid]
        exact firstSeen_lt_length hi
    · rw [ids_append_of_idle (fun id hid => hx ⟨id, hid⟩)]
      exact hold

theorem ids_nodup (xs : List Listed) : (o.ids now xs).Nodup :=
  (ids_pairwise xs).imp fun h heq => by rw [heq] at h; omega

end ScanOptions

/-! ## The runs met so far

    A grouping is the records of the ids met so far.  One object more
    changes the record of its own id, or adds it at the end. -/

namespace ScanOptions

variable {o : ScanOptions} {now : Int} {job id : String} {xs : List Listed} {x : Listed}

/-- An object leaves the records of all other runs as they are. -/
theorem record_append_of_not_counts (h : ¬ o.CountsFor now id x) :
    o.record now job (xs ++ [x]) id = o.record now job xs id := by
  have hd : ¬ o.IsDescriptorOf now id x := fun hd => h (.inl hd)
  have hr : ¬ o.IsResultOf now id x := fun hr => h (.inr hr)
  simp [record, hd, hr]

/-- Of several descriptors of a run the first one counts. -/
theorem record_append_descriptor (h : o.IsDescriptorOf now id x) :
    o.record now job (xs ++ [x]) id =
      if (o.record now job xs id).descriptorPath.isNone
      then (o.record now job xs id).withDescriptor x.name else o.record now job xs id := by
  have hr : ¬ o.IsResultOf now id x := fun hr => by
    rw [IsResultOf, h.2.1] at hr
    cases hr.2.1
  cases hfind : xs.find? fun x => o.IsDescriptorOf now id x with
  | none => simp [record, Run.withDescriptor, hfind, h, hr]
  | some y => simp [record, hfind, hr]

/-- Every test result of a run counts. -/
theorem record_append_result (h : o.IsResultOf now id x) :
    o.record now job (xs ++ [x]) id = (o.record now job xs id).withResult x.name := by
  have hd : ¬ o.IsDescriptorOf now id x := fun hd => by
    rw [IsDescriptorOf, h.2.1] at hd
    cases hd.2.1
  simp [record, Run.withResult, h, hd]

/-- A run no object counts for has nothing in its record. -/
theorem record_of_not_mem (h : id ∉ o.ids now xs) :
    o.record now job xs id = { job, id } := by
  have hnone : ∀ y ∈ xs, ¬ o.CountsFor now id y := fun y hy hc => h (mem_ids.mpr ⟨y, hy, hc⟩)
  have hd : xs.find? (fun x => o.IsDescriptorOf now id x) = none := by
    rw [List.find?_eq_none]
    intro y hy
    simpa using fun hd => hnone y hy (.inl hd)
  have hr : xs.filter (fun x => o.IsResultOf now id x) = [] := by
    rw [List.filter_eq_nil_iff]
    intro y hy
    simpa using fun hr => hnone y hy (.inr hr)
  simp [record, hd, hr]

end ScanOptions

namespace Grouping

variable {o : ScanOptions} {now : Int} {job id : String} {xs : List Listed} {x : Listed}

theorem update_map (rec : String → Run) (hrec : ∀ i, (rec i).id = i) (change : Run → Run)
    {ids : List String} (hnd : ids.Nodup) :
    update job id change (ids.map rec) =
      if id ∈ ids then ids.map fun i => if i = id then change (rec i) else rec i
      else ids.map rec ++ [change { job, id }] := by
  induction ids with
  | nil => simp [update]
  | cons i ids ih =>
    -- The change meets one record at most, for no id stands there twice.
    have hni : i ∉ ids := (List.nodup_cons.mp hnd).1
    have ih' := ih (List.nodup_cons.mp hnd).2
    simp only [List.map_cons, update, hrec]
    by_cases hi : i = id
    · subst hi
      have hrest : (ids.map fun j => if j = i then change (rec j) else rec j) = ids.map rec := by
        apply List.map_congr_left
        intro j hj
        have hne : j ≠ i := fun h => hni (h ▸ hj)
        rw [if_neg hne]
      simp [hrest]
    · have hmem : id ∈ i :: ids ↔ id ∈ ids := by simp [Ne.symm hi]
      rw [if_neg hi, ih', if_neg hi]
      simp only [hmem]
      split <;> rfl

/-- A change that brings the record of an id up to date brings the whole grouping up to date. -/
theorem update_records (change : Run → Run) (hx : o.CountsFor now id x)
    (hchange : change (o.record now job xs id) = o.record now job (xs ++ [x]) id) :
    update job id change ((o.ids now xs).map (o.record now job xs)) =
      (o.ids now (xs ++ [x])).map (o.record now job (xs ++ [x])) := by
  -- An object counts for one run only, so no other record changes.
  have hother : ∀ i, i ≠ id → o.record now job (xs ++ [x]) i = o.record now job xs i :=
    fun i hi => ScanOptions.record_append_of_not_counts fun hc => hi (hc.unique hx)
  rw [update_map (o.record now job xs) (fun _ => rfl) change (ScanOptions.ids_nodup xs),
    ScanOptions.ids_append_of_counts hx]
  split
  · apply List.map_congr_left
    intro i _
    by_cases hi : i = id
    · rw [if_pos hi, hi, hchange]
    · rw [if_neg hi, hother i hi]
  · next hnew =>
    have hold : (o.ids now xs).map (o.record now job (xs ++ [x])) =
        (o.ids now xs).map (o.record now job xs) := by
      apply List.map_congr_left
      intro i hi
      exact hother i fun h => hnew (h ▸ hi)
    rw [← ScanOptions.record_of_not_mem hnew, hchange, List.map_append, hold]
    rfl

/-- One object more. -/
theorem add_records (xs : List Listed) (x : Listed) :
    add o job now ((o.ids now xs).map (o.record now job xs)) x =
      (o.ids now (xs ++ [x])).map (o.record now job (xs ++ [x])) := by
  have hidle : (∀ id, ¬ o.CountsFor now id x) →
      (o.ids now xs).map (o.record now job xs) =
        (o.ids now (xs ++ [x])).map (o.record now job (xs ++ [x])) := by
    intro h
    rw [ScanOptions.ids_append_of_idle h]
    apply List.map_congr_left
    intro i _
    exact (ScanOptions.record_append_of_not_counts (h i)).symm
  -- An object that does not count leaves every record as it is; one that counts updates its own.
  unfold add
  cases hk : o.kind? now x with
  | none =>
    refine hidle fun id hid => ?_
    rw [← ScanOptions.runId_eq_some_iff, hk] at hid
    cases hid
  | some kind =>
    cases kind with
    | descriptor id =>
      have hx : o.IsDescriptorOf now id x := ScanOptions.kind_eq_descriptor_iff.mp hk
      exact update_records _ (.inl hx) (ScanOptions.record_append_descriptor hx).symm
    | result id =>
      have hx : o.IsResultOf now id x := ScanOptions.kind_eq_result_iff.mp hk
      exact update_records _ (.inr hx) (ScanOptions.record_append_result hx).symm
    | other =>
      refine hidle fun id hid => ?_
      rw [← ScanOptions.runId_eq_some_iff, hk] at hid
      cases hid

/-- The grouping of a list of objects. -/
theorem foldl_add_eq_records (o : ScanOptions) (job : String) (now : Int) (xs : List Listed) :
    xs.foldl (add o job now) [] = (o.ids now xs).map (o.record now job xs) := by
  induction xs using List.reverseRecOn with
  | nil => rfl
  | append_singleton xs x ih =>
    rw [List.foldl_append, ih]
    exact add_records xs x

/-- The complete runs of a grouping are those its objects hold. -/
theorem complete_groupsInto (o : ScanOptions) (job : String) (now : Int) (xs : List Listed) :
    GroupsInto o now job xs (complete (xs.foldl (add o job now) [])) := by
  rw [foldl_add_eq_records]
  -- A record is complete just where a descriptor of its run was seen.
  have hsome : ∀ id, (o.record now job xs id).descriptorPath.isSome ↔
      ∃ x ∈ xs, o.IsDescriptorOf now id x := by
    intro id
    simp [ScanOptions.record]
  refine ⟨fun id => ?_, ?_, ?_⟩
  · rw [← hsome]
    constructor
    · rintro ⟨r, hr, rfl⟩
      obtain ⟨hr, hc⟩ := List.mem_filter.mp hr
      obtain ⟨i, _, rfl⟩ := List.mem_map.mp hr
      exact hc
    · intro hc
      obtain ⟨x, hx, hd⟩ := (hsome id).mp hc
      have hid : id ∈ o.ids now xs := ScanOptions.mem_ids.mpr ⟨x, hx, .inl hd⟩
      exact ⟨_, List.mem_filter.mpr ⟨List.mem_map.mpr ⟨id, hid, rfl⟩, hc⟩, rfl⟩
  · refine List.Pairwise.filter _ (List.pairwise_map.mpr ?_)
    exact ScanOptions.ids_pairwise xs
  · intro r hr
    obtain ⟨i, _, rfl⟩ := List.mem_map.mp (List.mem_filter.mp hr).1
    rfl

end Grouping

/-! ## The loop over a listing -/

/-- The loop adds the objects before the end of the listing, and meets the error that ends it. -/
theorem takeItems_eq (o : ScanOptions) (job : String) (items : List Delivery) (g : Grouping)
    (w : World) :
    ∃ w', takeItems o job items g w =
        ((Delivery.seen w.signal.fired items).foldl (Grouping.add o job w.now) g,
          Delivery.ending w.signal.fired items, w') ∧
      World.Calls (· = .fired) w w' := by
  induction items generalizing g w with
  | nil =>
    refine ⟨w, ?_, .refl _ w⟩
    unfold takeItems
    cases w.signal.fired <;> rfl
  | cons x rest ih =>
    cases hf : w.signal.fired with
    | true =>
      refine ⟨w, ?_, .refl _ w⟩
      simp [takeItems, Delivery.seen, Delivery.ending, hf]
    | false =>
      obtain ⟨item, fires⟩ := x
      -- The signal may fire as the item is handed over; the item itself is still taken.
      have hw : ∃ v, (if fires then w.fire else w) = v ∧ v.signal.fired = fires ∧
          World.Calls (· = .fired) w v := by
        cases fires with
        | true => exact ⟨_, rfl, World.fire_fired w, World.fire_calls w rfl⟩
        | false => exact ⟨_, rfl, hf, .refl _ w⟩
      obtain ⟨v, hv, hvf, hcalls⟩ := hw
      cases item with
      | error e =>
        refine ⟨v, ?_, hcalls⟩
        simp [takeItems, Delivery.seen, Delivery.ending, hf, hv]
      | ok object =>
        obtain ⟨w', hw', hcalls'⟩ := ih (g.add o job w.now object) v
        refine ⟨w', ?_, hcalls.trans hcalls'⟩
        rw [hvf, hcalls.now] at hw'
        simp [takeItems, Delivery.seen, Delivery.ending, hf, hv, hcalls.now, hw']

/-- A scan holds the complete runs of the objects before the end of its listing. -/
theorem scan_eq (store : Store) (o : ScanOptions) (job : String) (w : World) :
    ∃ runs w', scan store o job w =
        ((match listingError (w.list store (o.query job)) with
          | none => .ok runs
          | some e => .error ⟨job, runs, e⟩), w') ∧
      runs = Grouping.complete ((listedBefore (w.list store (o.query job))).foldl
        (Grouping.add o job w.now) []) ∧
      World.Calls (fun e => e = .list (o.query job) ∨ e = .fired) w w' := by
  -- The listing is the one call; taking the items only looks at the token.
  have hcalls := World.list_calls w store (o.query job)
  unfold scan
  generalize w.list store (o.query job) = answer at hcalls
  obtain ⟨result, v⟩ := answer
  cases result with
  | error source => exact ⟨[], v, rfl, rfl, hcalls⟩
  | ok items =>
    obtain ⟨w', hw', hcalls'⟩ := takeItems_eq o job items [] v
    have hall := hcalls.trans (hcalls'.mono fun _ he => .inr he)
    simp only [hw', listedBefore, listingError, ← hcalls.now]
    cases Delivery.ending v.signal.fired items with
    | none => exact ⟨_, w', rfl, rfl, hall⟩
    | some e => exact ⟨_, w', rfl, rfl, hall⟩

/-- **Scanning is grouping.** However a listing ends, the runs of the scan, complete or partial,
    are exactly those that the objects before its end hold, and the error of a broken scan is the
    one that ended the listing. The scan makes one call, the listing, and reads no object. -/
theorem scan_groups_listing (store : Store) (o : ScanOptions) (job : String) (w : World) :
    ∃ runs w', scan store o job w =
        ((match listingError (w.list store (o.query job)) with
          | none => .ok runs
          | some e => .error ⟨job, runs, e⟩), w') ∧
      GroupsInto o w.now job (listedBefore (w.list store (o.query job))) runs ∧
      World.Calls (fun e => e = .list (o.query job) ∨ e = .fired) w w' := by
  obtain ⟨runs, w', hscan, rfl, hcalls⟩ := scan_eq store o job w
  exact ⟨_, w', hscan, Grouping.complete_groupsInto o job w.now _, hcalls⟩

end RunCache
