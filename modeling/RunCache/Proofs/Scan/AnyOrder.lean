import RunCache.Proofs.Scan.Regrouped

/-! # Listings in any order

    A scan meets its runs in the order of the listing.  But which runs it
    finds, and with which paths, does not depend on that order as long as
    no run has descriptors of two names.

    * **`Run.Alike`**: runs but for the order of their test results.
    * **`ScanOptions.record_alike`**: the record of an id in two orders.
    * **`GroupsInto.ids_perm`**, **`GroupsInto.alike`**: the runs of two
      orders.
    * **`scan_any_order`**: two scans. -/

namespace RunCache

/-- Runs that differ in nothing but the order of their test results. -/
structure Run.Alike (r s : Run) : Prop where
  same : s = { r with resultPaths := s.resultPaths }
  results : r.resultPaths.Perm s.resultPaths

/-! ## Records -/

namespace ScanOptions

/-- No run has descriptors of two names. -/
def OneDescriptor (o : ScanOptions) (now : Int) (xs : List Listed) : Prop :=
  ∀ id, ∀ x ∈ xs, ∀ y ∈ xs, o.IsDescriptorOf now id x → o.IsDescriptorOf now id y → x.name = y.name

variable {o : ScanOptions} {now : Int} {job : String} {xs ys : List Listed}

/-- Whichever descriptor comes first, its name is the same. -/
theorem descriptor_name_eq (hone : o.OneDescriptor now xs) (hperm : xs.Perm ys) (id : String) :
    (xs.find? fun x => o.IsDescriptorOf now id x).map Listed.name =
      (ys.find? fun x => o.IsDescriptorOf now id x).map Listed.name := by
  cases hx : xs.find? fun x => o.IsDescriptorOf now id x with
  | none =>
    have hnone : ys.find? (fun x => o.IsDescriptorOf now id x) = none := by
      rw [List.find?_eq_none] at hx ⊢
      exact fun y hy => hx y (hperm.mem_iff.mpr hy)
    rw [hnone]
  | some x =>
    have hmem := List.mem_of_find?_eq_some hx
    have hdesc := List.find?_some hx
    obtain ⟨y, hy⟩ : ∃ y, ys.find? (fun x => o.IsDescriptorOf now id x) = some y := by
      rw [← Option.isSome_iff_exists, List.find?_isSome]
      exact ⟨x, hperm.mem_iff.mp hmem, hdesc⟩
    have hmem' := hperm.mem_iff.mpr (List.mem_of_find?_eq_some hy)
    rw [hy, Option.map_some, Option.map_some, hone id x hmem y hmem' (of_decide_eq_true hdesc)
      (of_decide_eq_true (List.find?_some hy :))]

theorem record_alike (hone : o.OneDescriptor now xs) (hperm : xs.Perm ys) (id : String) :
    (o.record now job xs id).Alike (o.record now job ys id) where
  same := by
    unfold record
    rw [descriptor_name_eq hone hperm id]
  results := (hperm.filter _).map _

end ScanOptions

/-! ## Runs -/

namespace GroupsInto

variable {o : ScanOptions} {now : Int} {job : String} {xs ys : List Listed} {runs runs' : List Run}

/-- Each id has one run. -/
theorem ids_nodup (h : GroupsInto o now job xs runs) : (runs.map Run.id).Nodup := by
  refine List.pairwise_map.mpr (h.inOrder.imp fun hlt heq => ?_)
  rw [heq] at hlt
  exact lt_irrefl _ hlt

/-- The ids are those that have a descriptor, wherever it stands. -/
theorem ids_perm (h : GroupsInto o now job xs runs) (h' : GroupsInto o now job ys runs')
    (hperm : xs.Perm ys) : (runs.map Run.id).Perm (runs'.map Run.id) := by
  refine (List.perm_ext_iff_of_nodup h.ids_nodup h'.ids_nodup).mpr fun id => ?_
  rw [List.mem_map, List.mem_map, h.ids, h'.ids]
  exact exists_congr fun x => and_congr_left' hperm.mem_iff

/-- Runs of one id are alike. -/
theorem alike (h : GroupsInto o now job xs runs) (h' : GroupsInto o now job ys runs')
    (hone : o.OneDescriptor now xs) (hperm : xs.Perm ys) {r s : Run} (hr : r ∈ runs)
    (hs : s ∈ runs') (hid : r.id = s.id) : r.Alike s := by
  rw [h.records r hr, h'.records s hs, hid]
  exact ScanOptions.record_alike hone hperm s.id

end GroupsInto

/-! ## Scans -/

/-- Scans that see the same objects, in whatever order each of them sees these, find runs of the same
    ids, with the same descriptor paths and the same test results, provided that no run has
    descriptors of two names. Each scan returns its runs, as a part where its listing breaks. -/
theorem scan_any_order {store store' : Store} {o : ScanOptions} {job : String} {w w' : World}
    (hnow : w'.now = w.now)
    (hperm : (listedBefore (w.list store (o.query job))).Perm
      (listedBefore (w'.list store' (o.query job))))
    (hone : o.OneDescriptor w.now (listedBefore (w.list store (o.query job)))) :
    ∃ runs runs',
      (scan store o job w).1 = (match listingError (w.list store (o.query job)) with
        | none => .ok runs
        | some e => .error ⟨job, runs, e⟩) ∧
      (scan store' o job w').1 = (match listingError (w'.list store' (o.query job)) with
        | none => .ok runs'
        | some e => .error ⟨job, runs', e⟩) ∧
      (runs.map Run.id).Nodup ∧ (runs.map Run.id).Perm (runs'.map Run.id) ∧
      ∀ r ∈ runs, ∀ s ∈ runs', r.id = s.id → r.Alike s := by
  obtain ⟨runs, v, hscan, rfl, _⟩ := scan_eq store o job w
  obtain ⟨runs', v', hscan', rfl, _⟩ := scan_eq store' o job w'
  have hgroups := Grouping.complete_groupsInto o job w.now
    (listedBefore (w.list store (o.query job)))
  have hgroups' := Grouping.complete_groupsInto o job w'.now
    (listedBefore (w'.list store' (o.query job)))
  rw [hnow] at hgroups' hscan'
  refine ⟨_, _, congrArg Prod.fst hscan, congrArg Prod.fst hscan', hgroups.ids_nodup,
    hgroups.ids_perm hgroups' hperm, ?_⟩
  exact fun r hr s hs hid => hgroups.alike hgroups' hone hperm hr hs hid

/-- A store that lists some objects in the order in which they are given. -/
def listedAs (xs : List Listed) : Store where
  list _ _ := { outcome := some (.ok (xs.map fun x => { item := .ok x })) }
  read _ _ := { outcome := none }

/-- Objects of two runs. -/
def interleaved : List Listed :=
  [⟨"logs/job/1/artifacts/junit_a.xml", 0⟩, ⟨"logs/job/2/prowjob.json", 0⟩,
    ⟨"logs/job/1/prowjob.json", 0⟩, ⟨"logs/job/2/artifacts/junit_b.xml", 0⟩,
    ⟨"logs/job/1/artifacts/junit_b.xml", 0⟩]

/-- Two objects of one kind have one name, unless they are test results of the first run. -/
theorem interleaved_oneDescriptor : ScanOptions.OneDescriptor {} 0 interleaved := by
  have hkinds : ∀ x ∈ interleaved, ∀ y ∈ interleaved,
      ObjectKind.ofName x.name = ObjectKind.ofName y.name →
        ObjectKind.ofName x.name ≠ .result "1" → x.name = y.name := by decide +kernel
  rintro id x hx y hy ⟨_, hkind, _⟩ ⟨_, hkind', _⟩
  exact hkinds x hx y hy (hkind.trans hkind'.symm) (by simp [hkind])

/-- Two runs are found from the first object to the last, where the first run is seen by a test
    result, and the same two from the last to the first. -/
theorem scan_any_order_backwards :
    ∃ runs runs',
      (scan (listedAs interleaved) {} "job" { disk := {} }).1 = .ok runs ∧
      (scan (listedAs interleaved.reverse) {} "job" { disk := {} }).1 = .ok runs' ∧
      (runs.map Run.id).Perm ["1", "2"] ∧ (runs'.map Run.id).Perm ["1", "2"] ∧
      ∀ r ∈ runs, ∀ s ∈ runs', r.id = s.id → r.Alike s := by
  have hfirst : listedBefore (({ disk := {} } : World).list (listedAs interleaved)
      (ScanOptions.query {} "job")) = interleaved := by rfl
  have hlast : listedBefore (({ disk := {} } : World).list (listedAs interleaved.reverse)
      (ScanOptions.query {} "job")) = interleaved.reverse := by rfl
  obtain ⟨runs, runs', hscan, hscan', -, hids, halike⟩ := @scan_any_order (listedAs interleaved)
    (listedAs interleaved.reverse) {} "job" { disk := {} } { disk := {} } rfl
    (by rw [hfirst, hlast]; exact (List.reverse_perm _).symm)
    (by rw [hfirst]; exact interleaved_oneDescriptor)
  have hfound : (scannedRuns (scan (listedAs interleaved) {} "job" { disk := {} }).1).map Run.id =
      ["1", "2"] := by decide +kernel
  rw [hscan] at hfound
  refine ⟨runs, runs', hscan, hscan', ?_, ?_, halike⟩
  · exact .of_eq hfound
  · exact hids.symm.trans (.of_eq hfound)

end RunCache
