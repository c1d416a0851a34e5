import Mathlib.Data.List.Nodup
import Mathlib.Data.String.Basic
import RunCache.Proofs.Scan.Served

/-! # Listings that hold the same runs

    A listing in the order of names that is left with the objects of its
    runs, and maybe others that belong to no run, holds the same runs.

    * **`ScanOptions.exists_first`**: the first object that counts for a
      run.
    * **`GroupsInto.regroup`**: the runs of what is left.
    * **`scan_quiet`**: a scan that nothing disturbs. -/

namespace RunCache

/-- Objects in the order of their names, none of them twice. -/
def InNameOrder (xs : List Listed) : Prop := xs.Pairwise fun a b => a.name < b.name

namespace ScanOptions

variable {o : ScanOptions} {now : Int} {job id id' : String} {xs : List Listed} {x : Listed}

/-! ## First objects -/

/-- A run that an object counts for has a first one. -/
theorem exists_first (h : ∃ x ∈ xs, o.CountsFor now id x) :
    ∃ before x behind, xs = before ++ x :: behind ∧ (∀ y ∈ before, ¬ o.CountsFor now id y) ∧
      o.CountsFor now id x ∧ o.firstSeen now xs id = before.length := by
  obtain ⟨x, hx, hcounts⟩ := h
  obtain ⟨z, hz⟩ : ∃ z, xs.find? (fun x => o.CountsFor now id x) = some z := by
    rw [← Option.isSome_iff_exists, List.find?_isSome]
    exact ⟨x, hx, by simpa using hcounts⟩
  obtain ⟨hcounts, before, behind, rfl, hbefore⟩ := List.find?_eq_some_iff_append.mp hz
  have hbefore : ∀ y ∈ before, ¬ o.CountsFor now id y := fun y hy => by simpa using hbefore y hy
  have hcounts : o.CountsFor now id z := of_decide_eq_true hcounts
  refine ⟨before, z, behind, rfl, hbefore, hcounts, ?_⟩
  have hnone : before.findIdx (fun x => o.CountsFor now id x) = before.length := by
    rw [List.findIdx_eq_length]
    intro y hy
    simpa using hbefore y hy
  simp [firstSeen, List.findIdx_append, hnone, List.findIdx_cons, hcounts]

/-- The first object that counts for a run is one of its paths. -/
theorem first_mem_paths {before behind : List Listed}
    (hbefore : ∀ y ∈ before, ¬ o.CountsFor now id y) (hx : o.CountsFor now id x) :
    x.name ∈ (o.record now job (before ++ x :: behind) id).paths := by
  rcases hx with hdesc | hresult
  · refine List.mem_append_left _ (Option.mem_toList.mpr ?_)
    have hfind : (before ++ x :: behind).find? (fun x => o.IsDescriptorOf now id x) = some x := by
      refine List.find?_eq_some_iff_append.mpr ⟨by simpa using hdesc, before, behind, rfl, ?_⟩
      intro y hy
      simpa using fun h => hbefore y hy (.inl h)
    rw [record, hfind]
    rfl
  · refine List.mem_append_right _ (List.mem_map.mpr ⟨x, List.mem_filter.mpr ⟨by simp, ?_⟩, rfl⟩)
    simpa using hresult

/-- A run with an object whose name comes before those of another run is seen first. -/
theorem firstSeen_lt_of_name (hsorted : InNameOrder xs) (hx : x ∈ xs) (hcounts : o.CountsFor now id x)
    (hlt : ∀ y ∈ xs, o.CountsFor now id' y → x.name < y.name) :
    o.firstSeen now xs id < o.firstSeen now xs id' := by
  obtain ⟨before, behind, rfl⟩ := List.append_of_mem hx
  have hfirst : o.firstSeen now (before ++ x :: behind) id ≤ before.length := by
    rw [firstSeen, List.findIdx_append]
    split
    · omega
    · simp [List.findIdx_cons, hcounts]
  -- What stands up to that object has no greater name, so it does not count for the other run.
  have hnone : (before ++ [x]).findIdx (fun x => o.CountsFor now id' x) = (before ++ [x]).length := by
    rw [List.findIdx_eq_length]
    intro y hy
    rw [decide_eq_false_iff_not]
    intro hcounts'
    have hbehind := hlt y (by
      rcases List.mem_append.mp hy with hy | hy
      · exact List.mem_append_left _ hy
      · simp [List.mem_singleton.mp hy]) hcounts'
    rcases List.mem_append.mp hy with hy | hy
    · exact lt_asymm hbehind ((List.pairwise_append.mp hsorted).2.2 y hy x (by simp))
    · exact absurd hbehind (List.mem_singleton.mp hy ▸ lt_irrefl _)
  have hlater : before.length < o.firstSeen now (before ++ x :: behind) id' := by
    rw [← List.singleton_append, ← List.append_assoc, firstSeen, List.findIdx_append, hnone,
      if_neg (lt_irrefl _), List.length_append, List.length_singleton]
    omega
  omega

/-- Where a run is seen before another one, its first name comes before all of the other. -/
theorem name_lt_of_firstSeen {before behind : List Listed}
    (hsorted : InNameOrder (before ++ x :: behind))
    (hlt : before.length < o.firstSeen now (before ++ x :: behind) id') :
    ∀ y ∈ before ++ x :: behind, o.CountsFor now id' y → x.name < y.name := by
  intro y hy hcounts
  -- None of the objects up to the first one of the other run counts for that run.
  have hnot : ∀ i, i ≤ before.length → ∀ h : i < (before ++ x :: behind).length,
      ¬ o.CountsFor now id' (before ++ x :: behind)[i] := by
    intro i hi h
    have hi : i < (before ++ x :: behind).findIdx fun x => o.CountsFor now id' x := by
      rw [← firstSeen]
      omega
    simpa using List.not_of_lt_findIdx hi
  rcases List.mem_append.mp hy with hy | hy
  · obtain ⟨i, hi, rfl⟩ := List.mem_iff_getElem.mp hy
    refine absurd hcounts ?_
    have := hnot i (by omega) (by simp; omega)
    rwa [List.getElem_append_left hi] at this
  · rcases List.mem_cons.mp hy with rfl | hy
    · refine absurd hcounts ?_
      have := hnot before.length le_rfl (by simp)
      simpa using this
    · exact List.rel_of_pairwise_cons (List.pairwise_append.mp hsorted).2.1 hy

end ScanOptions

namespace GroupsInto

variable {o o' : ScanOptions} {now now' : Int} {job : String} {xs ys : List Listed}
  {runs : List Run}

/-- The runs of a listing have different ids. -/
theorem eq_of_id (h : GroupsInto o now job xs runs) {r s : Run} (hr : r ∈ runs) (hs : s ∈ runs)
    (hid : r.id = s.id) : r = s := by
  rw [h.records r hr, h.records s hs, hid]

/-- Each path of a run is of the kind that it is listed under. -/
theorem kinds (h : GroupsInto o now job xs runs) {r : Run} (hr : r ∈ runs) :
    (∀ p ∈ r.descriptorPath, ObjectKind.ofName p = .descriptor r.id) ∧
      ∀ p ∈ r.resultPaths, ObjectKind.ofName p = .result r.id := by
  rw [h.records r hr]
  exact ScanOptions.record_kinds o now job xs r.id

theorem exists_descriptorPath (h : GroupsInto o now job xs runs) {r : Run} (hr : r ∈ runs) :
    ∃ p, r.descriptorPath = some p := by
  obtain ⟨x, hx, hdesc⟩ := (h.ids r.id).mp ⟨r, hr, rfl⟩
  rw [← Option.isSome_iff_exists, h.records r hr]
  simpa [ScanOptions.record] using ⟨x, hx, hdesc⟩

/-! ## What is left of a listing -/

/-- A listing in name order that has all objects of some runs, and else none that belongs to a run.
    Its window covers it. -/
structure Leaves (o : ScanOptions) (now : Int) (ys : List Listed) (runs : List Run) : Prop where
  inNameOrder : InNameOrder ys
  recent : o.Recent now ys
  least : o.leastId = none
  ofRun : ∀ y ∈ ys, (∃ r ∈ runs, y.name ∈ r.paths) ∨ ObjectKind.ofName y.name = .other
  listed : ∀ r ∈ runs, ∀ p ∈ r.paths, ∃ y ∈ ys, y.name = p

section Left

variable {r : Run} {y : Listed}

-- What an object that is left counts for is told by the run it belongs to.
theorem isDescriptorOf_iff (h : GroupsInto o now job xs runs) (hleft : Leaves o' now' ys runs)
    (hy : y ∈ ys) (id : String) : o'.IsDescriptorOf now' id y ↔
      ∃ r ∈ runs, r.id = id ∧ r.descriptorPath = some y.name := by
  constructor
  · rintro ⟨_, hkind, _⟩
    rcases hleft.ofRun y hy with ⟨r, hr, hp⟩ | hother
    · rcases List.mem_append.mp hp with hp | hp
      · have hkind' := (h.kinds hr).1 y.name (Option.mem_toList.mp hp)
        rw [hkind, ObjectKind.descriptor.injEq] at hkind'
        exact ⟨r, hr, hkind'.symm, Option.mem_toList.mp hp⟩
      · rw [(h.kinds hr).2 y.name hp] at hkind
        cases hkind
    · rw [hother] at hkind
      cases hkind
  · rintro ⟨r, hr, rfl, hp⟩
    exact ⟨hleft.recent y hy, (h.kinds hr).1 y.name hp, by simp [hleft.least]⟩

theorem isResultOf_iff (h : GroupsInto o now job xs runs) (hleft : Leaves o' now' ys runs)
    (hy : y ∈ ys) (id : String) : o'.IsResultOf now' id y ↔
      ∃ r ∈ runs, r.id = id ∧ y.name ∈ r.resultPaths := by
  constructor
  · rintro ⟨_, hkind, _⟩
    rcases hleft.ofRun y hy with ⟨r, hr, hp⟩ | hother
    · rcases List.mem_append.mp hp with hp | hp
      · rw [(h.kinds hr).1 y.name (Option.mem_toList.mp hp)] at hkind
        cases hkind
      · have hkind' := (h.kinds hr).2 y.name hp
        rw [hkind, ObjectKind.result.injEq] at hkind'
        exact ⟨r, hr, hkind'.symm, hp⟩
    · rw [hother] at hkind
      cases hkind
  · rintro ⟨r, hr, rfl, hp⟩
    exact ⟨hleft.recent y hy, (h.kinds hr).2 y.name hp, by simp [hleft.least]⟩

theorem countsFor_iff (h : GroupsInto o now job xs runs) (hleft : Leaves o' now' ys runs)
    (hy : y ∈ ys) (hr : r ∈ runs) : o'.CountsFor now' r.id y ↔ y.name ∈ r.paths := by
  rw [ScanOptions.CountsFor, h.isDescriptorOf_iff hleft hy, h.isResultOf_iff hleft hy, Run.paths,
    List.mem_append, Option.mem_toList]
  refine or_congr ⟨?_, fun hp => ⟨r, hr, rfl, hp⟩⟩ ⟨?_, fun hp => ⟨r, hr, rfl, hp⟩⟩
  · rintro ⟨s, hs, hid, hp⟩
    rwa [← h.eq_of_id hs hr hid]
  · rintro ⟨s, hs, hid, hp⟩
    rwa [← h.eq_of_id hs hr hid]

/-- The same descriptor is found. -/
theorem find_descriptor (h : GroupsInto o now job xs runs) (hleft : Leaves o' now' ys runs)
    (hr : r ∈ runs) : (ys.find? fun y => o'.IsDescriptorOf now' r.id y).map (·.name) =
      r.descriptorPath := by
  obtain ⟨p, hp⟩ := h.exists_descriptorPath hr
  obtain ⟨y, hy, rfl⟩ := hleft.listed r hr p (by simp [Run.paths, hp])
  obtain ⟨z, hz⟩ : ∃ z, ys.find? (fun y => o'.IsDescriptorOf now' r.id y) = some z := by
    rw [← Option.isSome_iff_exists, List.find?_isSome]
    exact ⟨y, hy, by simpa using (h.isDescriptorOf_iff hleft hy r.id).mpr ⟨r, hr, rfl, hp⟩⟩
  obtain ⟨s, hs, hid, hsz⟩ := (h.isDescriptorOf_iff hleft (List.mem_of_find?_eq_some hz) r.id).mp
    (of_decide_eq_true (List.find?_some hz :))
  rw [h.eq_of_id hs hr hid] at hsz
  rw [hz, Option.map_some, hsz]

/-- The same test results are found, in the order of names both times. -/
theorem filter_results (h : GroupsInto o now job xs runs) (hxs : InNameOrder xs)
    (hleft : Leaves o' now' ys runs) (hr : r ∈ runs) :
    (ys.filter fun y => o'.IsResultOf now' r.id y).map (·.name) = r.resultPaths := by
  have hsorted : r.resultPaths.Pairwise (· < ·) := by
    rw [h.records r hr]
    exact List.pairwise_map.mpr (hxs.sublist List.filter_sublist)
  have hsorted' : ((ys.filter fun y => o'.IsResultOf now' r.id y).map (·.name)).Pairwise (· < ·) :=
    List.pairwise_map.mpr (hleft.inNameOrder.sublist List.filter_sublist)
  refine List.Perm.eq_of_pairwise (fun a b _ _ hab hba => absurd hba (lt_asymm hab)) hsorted'
    hsorted ((List.perm_ext_iff_of_nodup (hsorted'.imp ne_of_lt) (hsorted.imp ne_of_lt)).mpr ?_)
  intro p
  constructor
  · intro hp
    obtain ⟨y, hy, rfl⟩ := List.mem_map.mp hp
    obtain ⟨hy, hres⟩ := List.mem_filter.mp hy
    obtain ⟨s, hs, hid, hp⟩ := (h.isResultOf_iff hleft hy r.id).mp (of_decide_eq_true hres)
    rwa [← h.eq_of_id hs hr hid]
  · intro hp
    obtain ⟨y, hy, rfl⟩ := hleft.listed r hr p (List.mem_append_right _ hp)
    refine List.mem_map.mpr ⟨y, List.mem_filter.mpr ⟨hy, ?_⟩, rfl⟩
    simpa using (h.isResultOf_iff hleft hy r.id).mpr ⟨r, hr, rfl, hp⟩

/-- The runs are seen in the same order: the first name of a run is left, and so is nothing of the
    other run that was not there. -/
theorem firstSeen_lt (h : GroupsInto o now job xs runs) (hxs : InNameOrder xs)
    (hleft : Leaves o' now' ys runs) {s : Run} (hr : r ∈ runs) (hs : s ∈ runs)
    (hlt : o.firstSeen now xs r.id < o.firstSeen now xs s.id) :
    o'.firstSeen now' ys r.id < o'.firstSeen now' ys s.id := by
  obtain ⟨x, hx, hd⟩ := (h.ids r.id).mp ⟨r, hr, rfl⟩
  obtain ⟨before, x, behind, rfl, hbefore, hx, hfirst⟩ := ScanOptions.exists_first ⟨x, hx, .inl hd⟩
  rw [hfirst] at hlt
  have hname := @ScanOptions.first_mem_paths _ _ job _ _ _ behind hbefore hx
  rw [← h.records r hr] at hname
  obtain ⟨y, hy, hyx⟩ := hleft.listed r hr x.name hname
  refine ScanOptions.firstSeen_lt_of_name hleft.inNameOrder hy
    ((h.countsFor_iff hleft hy hr).mpr (hyx ▸ hname)) ?_
  intro z hz hz'
  have hzs := (h.countsFor_iff hleft hz hs).mp hz'
  rw [h.records s hs] at hzs
  obtain ⟨x', hx', hxz, hcounts'⟩ := ScanOptions.listed_paths hzs
  rw [hyx, ← hxz]
  exact ScanOptions.name_lt_of_firstSeen hxs hlt x' hx' hcounts'

/-- What is left of a listing in name order with all objects of its runs holds the same runs. -/
theorem regroup (h : GroupsInto o now job xs runs) (hxs : InNameOrder xs)
    (hleft : Leaves o' now' ys runs) : GroupsInto o' now' job ys runs := by
  refine ⟨fun id => ⟨?_, ?_⟩, ?_, fun r hr => ?_⟩
  · rintro ⟨r, hr, rfl⟩
    obtain ⟨p, hp⟩ := h.exists_descriptorPath hr
    obtain ⟨y, hy, rfl⟩ := hleft.listed r hr p (by simp [Run.paths, hp])
    exact ⟨y, hy, (h.isDescriptorOf_iff hleft hy r.id).mpr ⟨r, hr, rfl, hp⟩⟩
  · rintro ⟨y, hy, hd⟩
    obtain ⟨r, hr, hid, _⟩ := (h.isDescriptorOf_iff hleft hy id).mp hd
    exact ⟨r, hr, hid⟩
  · exact h.inOrder.imp_of_mem fun hr hs hlt => h.firstSeen_lt hxs hleft hr hs hlt
  · have hrecord := h.records r hr
    rw [ScanOptions.record, h.find_descriptor hleft hr, h.filter_results hxs hleft hr]
    conv_lhs => rw [hrecord]
    conv_rhs => rw [hrecord]
    rfl

end Left

/-- The runs of a listing are determined, and so is their order. -/
theorem unique {runs' : List Run} (h : GroupsInto o now job xs runs)
    (h' : GroupsInto o now job xs runs') : runs = runs' := by
  have hnodup : ∀ {runs : List Run}, GroupsInto o now job xs runs → runs.Nodup := fun h =>
    h.inOrder.imp fun hlt heq => by rw [heq] at hlt; exact lt_irrefl _ hlt
  refine List.Perm.eq_of_pairwise (fun a b _ _ hab hba => absurd hba (lt_asymm hab)) h.inOrder
    h'.inOrder ((List.perm_ext_iff_of_nodup (hnodup h) (hnodup h')).mpr fun r => ?_)
  rw [h.mem_iff, h'.mem_iff]

end GroupsInto

/-! ## Scans that nothing disturbs -/

theorem takeItems_quiet {o : ScanOptions} {job : String} {w : World} (h : w.signal.fired = false)
    (xs : List Listed) (g : Grouping) :
    takeItems o job (xs.map fun x => { item := .ok x }) g w =
      (xs.foldl (Grouping.add o job w.now) g, none, w) := by
  induction xs generalizing g with
  | nil => simp [takeItems, h]
  | cons x xs ih =>
    rw [List.map_cons, List.foldl_cons, ← ih]
    simp [takeItems, h]

/-- In a quiet world a listing that is answered at once is taken to its end. -/
theorem scan_quiet {store : Store} {o : ScanOptions} {job : String} {w : World} {xs : List Listed}
    {runs : List Run} (hquiet : w.IsQuiet)
    (hlist : store.list w (o.query job) =
      { outcome := some (.ok (xs.map fun x => { item := .ok x })) })
    (hgroups : GroupsInto o w.now job xs runs) :
    ∃ w', scan store o job w = (.ok runs, w') ∧ w'.disk = w.disk ∧ w'.now = w.now ∧ w'.IsQuiet := by
  obtain ⟨w', hcall, hdisk, hquiet'⟩ :=
    hquiet.call (.list (o.query job)) (.ok (xs.map fun x => ({ item := .ok x } : Delivery)))
  rw [← hlist] at hcall
  have hnow := (w.list_calls store (o.query job)).now
  rw [World.list, hcall] at hnow
  have hcomplete := Grouping.complete_groupsInto o job w.now xs
  refine ⟨w', ?_, hdisk, hnow, hquiet'⟩
  unfold scan
  simp only [World.list, hcall, takeItems_quiet hquiet'.1]
  rw [hnow, hcomplete.unique hgroups]

end RunCache
