import RunCache.Cache.Write
import RunCache.Proofs.Cache.Place

/-! # The files of a run

    * **`Run.IsFile`**: what the files of a run are.
    * **`Run.files_isRooted`**: each of them lies below the cache. -/

namespace RunCache

namespace Run

variable {root : Path} {r : Run} {d : Descriptor} {contents : Fields ByteArray}
  {f : Path × ByteArray}

/-- What is written for a run: its objects, the copy of its descriptor, and the entry in the by-name
    index. -/
inductive IsFile (root : Path) (r : Run) (d : Descriptor) (contents : Fields ByteArray) :
    Path × ByteArray → Prop
  | object {path : String} {bytes : ByteArray} (h : (path, bytes) ∈ contents) :
      IsFile root r d contents (CachePath.ofObject root path, bytes)
  | copy {path : String} {bytes : ByteArray} (h : (path, bytes) ∈ contents)
      (hpath : path = r.descriptorPath.getD "") :
      IsFile root r d contents
        ((CachePath.ofObject root path).withFileName CachePath.copyFile, d.render)
  | entry {label : String} (hlabel : CachePath.isOneDirectory label = true)
      (hname : CachePath.isOneDirectory d.name = true) (h : d.analysisLabel = some label) :
      IsFile root r d contents (CachePath.ofIndexEntry root r.job label d.name, d.render)

theorem indexPlace_eq_some_iff {job : String} {target : Path} :
    indexPlace? root job d = some target ↔ ∃ label, d.analysisLabel = some label ∧
      CachePath.isOneDirectory label = true ∧ CachePath.isOneDirectory d.name = true ∧
      target = CachePath.ofIndexEntry root job label d.name := by
  unfold indexPlace?
  cases d.analysisLabel with
  | none => simp
  | some label =>
    simp only [Bool.and_eq_true, Option.some.injEq]
    constructor
    · intro h
      split at h
      · next hcond => exact ⟨label, rfl, hcond.1, hcond.2, (Option.some.inj h).symm⟩
      · cases h
    · rintro ⟨_, rfl, hlabel, hname, rfl⟩
      rw [if_pos ⟨hlabel, hname⟩]

theorem mem_files_iff : f ∈ r.files root d contents ↔ IsFile root r d contents f := by
  constructor
  · intro hf
    -- A file is one of an object, or the entry in the by-name index behind them.
    rcases List.mem_append.mp hf with hf | hf
    · obtain ⟨⟨path, bytes⟩, hmem, hf⟩ := List.mem_flatMap.mp hf
      rcases List.mem_cons.mp hf with rfl | hf
      · exact .object hmem
      · split at hf
        · next hpath =>
          obtain rfl := List.mem_singleton.mp hf
          exact .copy hmem hpath
        · cases hf
    · obtain ⟨target, htarget, rfl⟩ := List.mem_map.mp hf
      obtain ⟨label, hlabel, hl, hn, rfl⟩ := indexPlace_eq_some_iff.mp (by simpa using htarget)
      exact .entry hl hn hlabel
  · intro hf
    cases hf with
    | @object path bytes h =>
      exact List.mem_append_left _ (List.mem_flatMap.mpr ⟨_, h, List.mem_cons_self⟩)
    | @copy path bytes h hpath =>
      refine List.mem_append_left _ (List.mem_flatMap.mpr ⟨_, h, ?_⟩)
      simp [filesOf, hpath]
    | @entry label hlabel hname h =>
      refine List.mem_append_right _ (List.mem_map.mpr ⟨_, ?_, rfl⟩)
      simpa using indexPlace_eq_some_iff.mpr ⟨label, h, hlabel, hname, rfl⟩

/-- The names of all objects stay inside the cache. -/
theorem staysInside_of_escaping (h : escaping? contents = none) {path : String} {bytes : ByteArray}
    (hmem : (path, bytes) ∈ contents) : ObjectName.staysInside path = true := by
  simpa using List.find?_eq_none.mp h path (List.mem_map_of_mem hmem)

/-- Every file of a run lies below the cache. -/
theorem files_isRooted (hroot : root.IsRooted) (hjob : IsName r.job)
    (hesc : escaping? contents = none) : ∀ f ∈ r.files root d contents, f.1.IsRooted := by
  intro f hf
  cases mem_files_iff.mp hf with
  | object h => exact CachePath.ofObject_isRooted hroot (staysInside_of_escaping hesc h)
  | copy h =>
    have hobject := CachePath.ofObject_isRooted hroot (staysInside_of_escaping hesc h)
    exact (hobject.withFileName CachePath.isName_copyFile).1
  | entry hlabel hname =>
    rw [CachePath.ofIndexEntry_eq]
    exact hroot.foldl_join fun s hs => CachePath.isName_of_mem_indexEntry hjob hlabel hname hs

end Run

end RunCache
