import RunCache.Bucket.Memory
import RunCache.Proofs.Bucket.Name
import RunCache.Proofs.Scan.Grouping

/-! # Runs that a scan finds

    * **`scannedRuns`**: the runs of a scan, whether it broke or not.
    * **`Store.ListsInside`**: stores that list no object outside the query.
    * **`scanned_run`**: what a run that has been found is like. -/

namespace RunCache

/-- The runs of a scan, be it complete or broken. -/
def scannedRuns : Except BrokenScan (List Run) → List Run
  | .ok runs => runs
  | .error e => e.runs

/-- However a scan ends, its runs are those of the objects it has seen. -/
theorem scannedRuns_groupsInto (store : Store) (o : ScanOptions) (job : String) (w : World) :
    GroupsInto o w.now job (listedBefore (w.list store (o.query job)))
      (scannedRuns (scan store o job w).1) := by
  obtain ⟨runs, w', hscan, hruns, _⟩ := scan_eq store o job w
  have hfound : scannedRuns (scan store o job w).1 = runs := by
    rw [hscan]
    cases listingError (w.list store (o.query job)) with
    | none => rfl
    | some e => rfl
  rw [hfound, hruns]
  exact Grouping.complete_groupsInto o job w.now _

/-- A store lists only objects inside the query. -/
def Store.ListsInside (store : Store) : Prop :=
  ∀ w q items, (store.list w q).outcome = some (.ok items) →
    ∀ x ∈ items, ∀ object, x.item = .ok object → q.admits object.name = true

theorem Memory.store_listsInside (m : Memory) : m.store.ListsInside := by
  intro w q items houtcome x hx object hobject
  have hitems : (m.items q).map (fun item => ({ item } : Delivery)) = items :=
    Except.ok.inj (Option.some.inj houtcome)
  rw [← hitems] at hx
  obtain ⟨item, hitem, rfl⟩ := List.mem_map.mp hx
  -- An item that is an object is one of the listing, whether the listing breaks or not.
  have hlisted : object ∈ m.listing q := by
    unfold Memory.items at hitem
    simp only at hitem hobject
    split at hitem
    · split at hitem
      · rcases List.mem_append.mp hitem with hitem | hitem
        · obtain ⟨object', hmem, rfl⟩ := List.mem_map.mp hitem
          obtain rfl := Except.ok.inj hobject
          exact List.mem_of_mem_take hmem
        · rw [List.mem_singleton.mp hitem] at hobject
          cases hobject
      · obtain ⟨object', hmem, rfl⟩ := List.mem_map.mp hitem
        obtain rfl := Except.ok.inj hobject
        exact hmem
    · obtain ⟨object', hmem, rfl⟩ := List.mem_map.mp hitem
      obtain rfl := Except.ok.inj hobject
      exact hmem
  obtain ⟨e, he, rfl⟩ := List.mem_map.mp hlisted
  exact (List.mem_filter.mp he).2

theorem Delivery.mem_of_mem_seen {fired : Bool} {items : List Delivery} {object : Listed}
    (h : object ∈ Delivery.seen fired items) : ∃ x ∈ items, x.item = .ok object := by
  induction items generalizing fired with
  | nil => cases fired <;> cases h
  | cons x rest ih =>
    obtain ⟨item, fires⟩ := x
    cases fired with
    | true => cases h
    | false =>
      cases item with
      | error e => cases h
      | ok object' =>
        rcases List.mem_cons.mp h with rfl | h
        · exact ⟨_, List.mem_cons_self, rfl⟩
        · obtain ⟨x, hx, hitem⟩ := ih h
          exact ⟨x, List.mem_cons_of_mem _ hx, hitem⟩

/-- The objects that a scan sees are inside its query. -/
theorem admits_of_mem_listedBefore {store : Store} {w : World} {q : Query} {object : Listed}
    (hstore : store.ListsInside) (h : object ∈ listedBefore (w.list store q)) :
    q.admits object.name = true := by
  unfold listedBefore at h
  split at h
  · cases h
  · next items w' hlist =>
    obtain ⟨x, hx, hitem⟩ := Delivery.mem_of_mem_seen h
    exact hstore w q items (World.outcome_of_call hlist) x hx object hitem

/-- The path of a run's descriptor is the name of one of its objects. -/
theorem ScanOptions.listed_descriptorPath {o : ScanOptions} {now : Int} {job id p : String}
    {xs : List Listed} (hp : (o.record now job xs id).descriptorPath = some p) :
    ∃ x ∈ xs, x.name = p ∧ o.IsDescriptorOf now id x := by
  obtain ⟨x, hx, hname⟩ := Option.map_eq_some_iff.mp hp
  exact ⟨x, List.mem_of_find?_eq_some hx, hname, by simpa using List.find?_some hx⟩

/-- The paths of a run are names of its objects. -/
theorem ScanOptions.listed_paths {o : ScanOptions} {now : Int} {job id p : String}
    {xs : List Listed} (hp : p ∈ (o.record now job xs id).paths) :
    ∃ x ∈ xs, x.name = p ∧ o.CountsFor now id x := by
  rcases List.mem_append.mp hp with hp | hp
  · obtain ⟨x, hx, hname, hdesc⟩ := listed_descriptorPath (Option.mem_toList.mp hp)
    exact ⟨x, hx, hname, .inl hdesc⟩
  · obtain ⟨x, hx, hname⟩ := List.mem_map.mp hp
    obtain ⟨hx, hresult⟩ := List.mem_filter.mp hx
    exact ⟨x, hx, hname, .inr (by simpa using hresult)⟩

/-- The id of a run can be told from each of its paths. -/
theorem GroupsInto.runId_of_mem_paths {o : ScanOptions} {now : Int} {job p : String}
    {xs : List Listed} {runs : List Run} (h : GroupsInto o now job xs runs) {r : Run} (hr : r ∈ runs)
    (hp : p ∈ r.paths) : (ObjectKind.ofName p).runId? = some r.id := by
  rw [h.records r hr] at hp
  obtain ⟨x, _, rfl, ⟨_, hkind, _⟩ | ⟨_, hkind, _⟩⟩ := ScanOptions.listed_paths hp
  · rw [hkind]
    rfl
  · rw [hkind]
    rfl

/-- A run that a scan has found: nothing of it has been read, and its test results lie in a
    directory of its id below the job. -/
theorem scanned_run {store : Store} {o : ScanOptions} {job : String} {w : World} {r : Run}
    (hstore : store.ListsInside) (hjob : '/' ∉ job.toList)
    (hr : r ∈ scannedRuns (scan store o job w).1) :
    r.job = job ∧ r.origin = .bucket [] ∧ '/' ∉ r.id.toList ∧
      ∀ p ∈ r.resultPaths, ObjectName.isTestResult p = true ∧
        ∃ file more, Text.segments p = ObjectName.logsRoot :: r.job :: r.id :: file :: more := by
  have hgroups := scannedRuns_groupsInto store o job w
  have hrecord := hgroups.records r hr
  refine ⟨by rw [hrecord]; rfl, by rw [hrecord]; rfl, ?_, ?_⟩
  · obtain ⟨x, _, _, hkind, _⟩ := (hgroups.ids r.id).mp ⟨r, hr, rfl⟩
    obtain ⟨_, init, hsegs⟩ := ObjectKind.ofName_eq_descriptor hkind
    have hid : r.id ∈ Text.segments x.name := by simp [hsegs]
    exact Text.no_slash_of_mem_segments hid
  · intro p hp
    rw [hrecord] at hp
    obtain ⟨x, hx, rfl⟩ := List.mem_map.mp hp
    obtain ⟨hseen, hcounts⟩ := List.mem_filter.mp hx
    obtain ⟨_, hkind, _⟩ := of_decide_eq_true hcounts
    obtain ⟨htest, _, a, b, file, more, hsegs⟩ := ObjectKind.ofName_eq_result hkind
    refine ⟨htest, file, more, ?_⟩
    -- The third segment is the id, and the first two are those of the query.
    have hadmits := admits_of_mem_listedBefore hstore hseen
    obtain ⟨tail, htail⟩ := ObjectName.segments_of_admits hjob hadmits
    have hjob' : r.job = job := by rw [hrecord]; rfl
    obtain ⟨ha, htail⟩ := List.cons.inj (hsegs.symm.trans htail)
    obtain ⟨hb, _⟩ := List.cons.inj htail
    rw [hsegs, ha, hb, hjob']

end RunCache
