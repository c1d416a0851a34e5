import Mathlib.Data.String.Basic
import RunCache.Proofs.Scan.Records

/-! # The descriptor that a run gets

    A descriptor is attributed to the run named by the directory around it,
    however deep that directory lies, and the first one listed counts.  In a
    listing in name order a run therefore gets the descriptor of the least
    name, which is its own one only where no other sorts before it.

    * **`ScanOptions.exists_least_descriptor`**: the descriptor that counts.
    * **`scan_takes_least_descriptor`**: the descriptor of a run that a scan
      finds, and when it is its own.
    * **`scan_takes_nested_descriptor`**: a run that gets another one. -/

namespace RunCache

open Text (segments)

/-! ## The first descriptor -/

namespace ScanOptions

variable {o : ScanOptions} {now : Int} {id : String} {xs : List Listed}

/-- In a listing in name order the descriptor that counts is the one of the least name. -/
theorem exists_least_descriptor (job : String)
    (hsorted : xs.Pairwise fun a b => a.name ≤ b.name)
    (h : ∃ x ∈ xs, o.IsDescriptorOf now id x) :
    ∃ x ∈ xs, o.IsDescriptorOf now id x ∧ (o.record now job xs id).descriptorPath = some x.name ∧
      ∀ y ∈ xs, o.IsDescriptorOf now id y → x.name ≤ y.name := by
  obtain ⟨x, hfind⟩ : ∃ x, xs.find? (fun x => o.IsDescriptorOf now id x) = some x := by
    rw [← Option.isSome_iff_exists, List.find?_isSome]
    simpa using h
  obtain ⟨hx, before, behind, rfl, hbefore⟩ := List.find?_eq_some_iff_append.mp hfind
  refine ⟨x, by simp, of_decide_eq_true hx, by rw [record, hfind]; rfl, fun y hy hdesc => ?_⟩
  rcases List.mem_append.mp hy with hy | hy
  · -- What stands before the first descriptor is none.
    have hnot := hbefore y hy
    simp [hdesc] at hnot
  · rcases List.mem_cons.mp hy with rfl | hy
    · exact le_refl _
    · exact (List.pairwise_cons.mp (List.pairwise_append.mp hsorted).2.1).1 y hy

end ScanOptions

/-! ## The descriptor of a run that has been found -/

/-- **Which descriptor a run gets.**  A listing in name order that holds a run's own descriptor, in
    the window and not below the least id, gives exactly one run of that id, and its descriptor is
    the one of the least name among all descriptors in directories of that name.  It is the run's
    own one exactly where none of the others sorts before it. -/
theorem scan_takes_least_descriptor {store : Store} {o : ScanOptions} {job id : String} {w : World}
    {own : Listed} (hid : id ≠ "") (hslash : '/' ∉ id.toList)
    (hsorted : (listedBefore (w.list store (o.query job))).Pairwise fun a b => a.name ≤ b.name)
    (hown : own ∈ listedBefore (w.list store (o.query job)))
    (hname : own.name = ObjectName.ofDescriptor job id) (hrecent : w.now - own.created ≤ o.window)
    (hleast : ∀ least ∈ o.leastId, RunId.order id least ≠ .lt) :
    ∃ r ∈ scannedRuns (scan store o job w).1, r.id = id ∧
      (∀ s ∈ scannedRuns (scan store o job w).1, s.id = id → s = r) ∧
      (∃ x ∈ listedBefore (w.list store (o.query job)), o.IsDescriptorOf w.now id x ∧
        r.descriptorPath = some x.name ∧
        ∀ y ∈ listedBefore (w.list store (o.query job)), o.IsDescriptorOf w.now id y →
          x.name ≤ y.name) ∧
      (r.descriptorPath = some (ObjectName.ofDescriptor job id) ↔
        ∀ y ∈ listedBefore (w.list store (o.query job)), o.IsDescriptorOf w.now id y →
          ObjectName.ofDescriptor job id ≤ y.name) := by
  have hgroups := scannedRuns_groupsInto store o job w
  have hdesc : o.IsDescriptorOf w.now id own :=
    ⟨hrecent, by rw [hname, ObjectKind.ofName_ofDescriptor hid hslash], hleast⟩
  obtain ⟨r, hr, rfl⟩ := (hgroups.ids id).mpr ⟨own, hown, hdesc⟩
  obtain ⟨x, hx, hxdesc, hpath, hmin⟩ :=
    ScanOptions.exists_least_descriptor job hsorted ⟨own, hown, hdesc⟩
  rw [← hgroups.records r hr] at hpath
  -- A record is a function of its id, so there is no second one.
  refine ⟨r, hr, rfl, fun s hs hid' => ?_, ⟨x, hx, hxdesc, hpath, hmin⟩, ?_⟩
  · rw [hgroups.records s hs, hid', ← hgroups.records r hr]
  · rw [hpath, Option.some.injEq]
    constructor
    · intro heq y hy hydesc
      rw [← heq]
      exact hmin y hy hydesc
    · -- The own descriptor is among them, so the least one is not behind it.
      intro hall
      refine le_antisymm ?_ (hall x hx hxdesc)
      rw [← hname]
      exact hmin own hown hdesc

/-- A bucket with two runs, and another descriptor in a directory of the name of the first one below
    it. -/
def nestedDescriptor : Memory where
  objects :=
    [("logs/job/1/artifacts/1/prowjob.json", ⟨"\x7b\x7d".toUTF8, 0⟩),
     ("logs/job/1/prowjob.json", ⟨"\x7b\x7d".toUTF8, 0⟩),
     ("logs/job/2/prowjob.json", ⟨"\x7b\x7d".toUTF8, 0⟩)]

/-- A scan of it sees all three objects, in name order. -/
theorem nestedDescriptor_listed :
    listedBefore (({ disk := {} } : World).list nestedDescriptor.store
      (ScanOptions.query {} "job")) =
      [⟨"logs/job/1/artifacts/1/prowjob.json", 0⟩, ⟨"logs/job/1/prowjob.json", 0⟩,
        ⟨"logs/job/2/prowjob.json", 0⟩] := by
  decide +kernel

/-- The second run gets its own descriptor. -/
theorem scan_takes_least_descriptor_second_run :
    ∃ r ∈ scannedRuns (scan nestedDescriptor.store {} "job" { disk := {} }).1,
      r.id = "2" ∧ r.descriptorPath = some "logs/job/2/prowjob.json" := by
  have hlisted := nestedDescriptor_listed
  obtain ⟨r, hr, hid, _, _, howns⟩ := @scan_takes_least_descriptor nestedDescriptor.store {} "job"
    "2" { disk := {} } ⟨"logs/job/2/prowjob.json", 0⟩ (by decide) (by decide)
    (by rw [hlisted]; decide +kernel) (by rw [hlisted]; decide +kernel) (by decide +kernel)
    (by decide +kernel) (by decide)
  refine ⟨r, hr, hid, howns.mpr ?_⟩
  rw [hlisted]
  decide +kernel

/-- The first run gets the other descriptor, though its own one is listed: what is listed is in name
    order, has the run's own descriptor, and all of it is in the window. -/
theorem scan_takes_nested_descriptor :
    (listedBefore (({ disk := {} } : World).list nestedDescriptor.store
      (ScanOptions.query {} "job"))).Pairwise (fun a b => a.name ≤ b.name) ∧
    ⟨ObjectName.ofDescriptor "job" "1", 0⟩ ∈ listedBefore
      (({ disk := {} } : World).list nestedDescriptor.store (ScanOptions.query {} "job")) ∧
    ∃ r ∈ scannedRuns (scan nestedDescriptor.store {} "job" { disk := {} }).1,
      r.id = "1" ∧ r.descriptorPath = some "logs/job/1/artifacts/1/prowjob.json" ∧
        r.descriptorPath ≠ some (ObjectName.ofDescriptor "job" "1") := by
  refine ⟨by rw [nestedDescriptor_listed]; decide +kernel,
    by rw [nestedDescriptor_listed]; decide +kernel, ?_⟩
  have hfirst : (scannedRuns (scan nestedDescriptor.store {} "job" { disk := {} }).1).any fun r =>
      r.id = "1" && r.descriptorPath = some "logs/job/1/artifacts/1/prowjob.json" := by
    decide +kernel
  obtain ⟨r, hr, hfirst⟩ := List.any_eq_true.mp hfirst
  simp only [Bool.and_eq_true, decide_eq_true_eq] at hfirst
  refine ⟨r, hr, hfirst.1, hfirst.2, ?_⟩
  rw [hfirst.2]
  decide

end RunCache
