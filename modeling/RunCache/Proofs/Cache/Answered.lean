import RunCache.Proofs.Cache.InTurn
import RunCache.Proofs.Cache.Named

/-! # Runs whose objects are answered

    Where a store answers every read of the objects of some runs, and the
    disk takes their files, the runs can be written in turn.

    * **`InTurn.wrote`**: what runs written in turn have put on the disk.
    * **`Store.Answers`**: a store that answers reads of given objects.
    * **`Run.write_answered`**: one run is written.
    * **`exists_inTurn`**: runs are written in turn. -/

namespace RunCache

open Writing (Wrote)

variable {store : Store} {m : Memory} {root : Path} {w w' : World} {runs : List Run}

/-! ## Runs that have been written -/

namespace Run

variable {r r' : Run} {written : Written}

/-- What a write of a run of a bucket has put on the disk, and what it tells. -/
theorem write_wrote_keeps (hstore : store.Serves m) (hr : r.origin = .bucket [])
    (hlisted : r.IsListed) (hjob : IsName r.job)
    (hbelow : ∀ p ∈ r.paths, ∃ tail, tail ≠ [] ∧
      ObjectName.steps p = ObjectName.logsRoot :: r.job :: tail)
    (hd : w.disk.IsTree) (h : r.write store root w = (.ok written, r', w')) :
    r.IsInside ∧ (∃ d, r.parsed? m = some d) ∧ written.byName.isSome = r.isIndexed m ∧
      w'.now = w.now ∧ Wrote (targets root (r.keeps m)) w.now w.disk w'.disk := by
  obtain ⟨d, contents, w₁, hgather, hwrite, hnow, rfl⟩ := write_ok h
  obtain ⟨hparsed, _⟩ := gather_bytes hstore hr hgather
  obtain ⟨hfiles, _, hstays⟩ := gather_writes hstore hr hgather
  have hinside : r.IsInside := ⟨hlisted, hjob, hbelow, hstays⟩
  have hparsed : r.parsed? m = some d := parsed_eq_some_iff.mpr hparsed
  rw [hfiles, writes_eq_targets hinside] at hwrite
  refine ⟨hinside, ⟨d, hparsed⟩, ?_, hnow, writeAll_written hd hwrite⟩
  rw [isIndexed, hparsed, Option.any_some]
  exact isSome_indexPlace

end Run

theorem entryCount_cons_indexed {t : Written} {told : List Written} {r : Run}
    (ht : t.byName.isSome = r.isIndexed m)
    (htold : entryCount told = (runs.filter (Run.isIndexed m)).length) :
    entryCount (t :: told) = ((r :: runs).filter (Run.isIndexed m)).length := by
  unfold entryCount at htold ⊢
  rw [List.filter_cons, List.filter_cons, ht]
  split <;> simp [htold]

/-- Runs written in turn have put their files on the disk, one run after the other. -/
theorem InTurn.wrote {told : List Written} (h : InTurn store root runs w told w')
    (hstore : store.Serves m)
    (hruns : ∀ r ∈ runs, r.origin = .bucket [] ∧ r.IsListed ∧ IsName r.job ∧
      ∀ p ∈ r.paths, ∃ tail, tail ≠ [] ∧
        ObjectName.steps p = ObjectName.logsRoot :: r.job :: tail)
    (hd : w.disk.IsTree) :
    (∀ r ∈ runs, r.IsInside ∧ ∃ d, r.parsed? m = some d) ∧
      entryCount told = (runs.filter (Run.isIndexed m)).length ∧
      Wrote (targets root (runs.flatMap (Run.keeps m))) w.now w.disk w'.disk := by
  induction h with
  | nil w => exact ⟨by simp, rfl, .refl hd w.now⟩
  | @cons r r' runs w w₁ w₂ t more hwrite _ ih =>
    obtain ⟨horigin, hlisted, hjob, hbelow⟩ := hruns r (by simp)
    obtain ⟨hinside, hparsed, htold, hnow, hwrote⟩ :=
      Run.write_wrote_keeps hstore horigin hlisted hjob hbelow hd hwrite
    obtain ⟨hall, hcount, hrest⟩ := ih (fun s hs => hruns s (List.mem_cons_of_mem r hs)) hwrote.tree
    refine ⟨?_, ?_, ?_⟩
    · intro s hs
      rcases List.mem_cons.mp hs with rfl | hs
      · exact ⟨hinside, hparsed⟩
      · exact hall s hs
    · exact entryCount_cons_indexed htold hcount
    · rw [List.flatMap_cons, targets_append]
      rw [hnow] at hrest
      exact hwrote.trans hrest

/-! ## Runs that can be read -/

/-- A store answers reads of some objects with what a bucket holds, on a disk. -/
def Store.Answers (store : Store) (m : Memory) (d : Disk) (names : List String) : Prop :=
  ∀ w : World, w.disk = d → ∀ p ∈ names, store.read w p = { outcome := some (.ok (m.bytes p)) }

namespace Run

variable {r : Run} {names paths : List String} {p : String}

/-- A run of a bucket, in whatever state of having been read. -/
structure IsReadable (m : Memory) (r : Run) : Prop where
  bucket : ∃ memo, r.origin = .bucket memo
  knows : r.Knows m

theorem content_answered (hr : r.IsReadable m) (hans : store.Answers m w.disk names)
    (hp : p ∈ names) (hne : p ≠ "") (hquiet : w.IsQuiet) :
    ∃ r' w', r.content store p w = (.ok (m.bytes p), r', w') ∧ r'.IsReadable m ∧
      w'.disk = w.disk ∧ w'.IsQuiet := by
  obtain ⟨memo, horigin⟩ := hr.bucket
  have hmemo : r.memo = memo := by rw [Run.memo, horigin]
  cases hget : memo.get? p with
  | some bytes =>
    have hbytes := hr.knows p bytes (by rw [hmemo, hget])
    exact ⟨r, w, hbytes ▸ content_known horigin hne hget w, hr, rfl, hquiet⟩
  | none =>
    obtain ⟨w', hcall, hdisk, hquiet'⟩ := hquiet.call (.read p) (.ok (m.bytes p))
    rw [← hans w rfl p hp] at hcall
    have hcontent : r.content store p w =
        (.ok (m.bytes p), { r with origin := .bucket (memo.insert p (m.bytes p)) }, w') := by
      unfold content
      rw [if_neg (by simpa using hne), horigin]
      simp only [bucketContent, hget, World.read, hcall]
    refine ⟨_, w', hcontent, ⟨⟨_, rfl⟩, fun key b hkey => ?_⟩, hdisk, hquiet'⟩
    have hkey : (memo.insert p (m.bytes p)).get? key = some b := hkey
    rw [Fields.get_insert] at hkey
    by_cases hpkey : p = key
    · rw [if_pos hpkey] at hkey
      rw [← Option.some.inj hkey, hpkey]
    · rw [if_neg hpkey, ← hmemo] at hkey
      exact hr.knows key b hkey

/-- A sweep over objects that are answered reads them all. -/
theorem sweep_answered {failures : Failures} {contents : Fields ByteArray}
    (hr : r.IsReadable m) (hans : store.Answers m w.disk names)
    (hpaths : ∀ p ∈ paths, p ∈ names ∧ p ≠ "") (hfailed : failures.failed = [])
    (hquiet : w.IsQuiet) :
    ∃ r' w', sweep store paths failures contents r w =
        (.ok (gathered m.bytes paths contents), r', w') ∧ w'.IsQuiet := by
  induction paths generalizing failures contents r w with
  | nil => exact ⟨r, w, by simp [sweep, Failures.check, hfailed, gathered, Except.map], hquiet⟩
  | cons path rest ih =>
    obtain ⟨hmem, hne⟩ := hpaths path (by simp)
    obtain ⟨r₁, w₁, hcontent, hr₁, hdisk, hquiet₁⟩ := content_answered hr hans hmem hne hquiet
    obtain ⟨r', w', hsweep, hquiet'⟩ := @ih w₁ r₁ failures.countTry
      (contents.insert path (m.bytes path)) hr₁ (hdisk ▸ hans)
      (fun p hp => hpaths p (List.mem_cons_of_mem path hp)) (by simpa [Failures.countTry]) hquiet₁
    refine ⟨r', w', ?_, hquiet'⟩
    rw [sweep_cons_ok hcontent]
    exact hsweep

/-- What is written for a run whose objects are answered can be gathered. -/
theorem gather_answered {d : Descriptor} (hr : r.origin = .bucket []) (hinside : r.IsInside)
    (hparsed : r.parsed? m = some d) (hans : store.Answers m w.disk r.paths) (hquiet : w.IsQuiet)
    (root : Path) :
    ∃ r' w', r.gather store root w = (.ok (d, gathered m.bytes r.paths []), r', w') ∧
      w'.IsQuiet := by
  have hstart : r.IsReadable m := by
    refine ⟨⟨[], hr⟩, fun key b hget => ?_⟩
    rw [Run.memo, hr] at hget
    cases hget
  have hne : ∀ p ∈ r.paths, p ≠ "" := by
    rintro p hp rfl
    exact absurd (hinside.stays _ hp) (by decide)
  obtain ⟨path, hpath, hparse⟩ := parsed_eq_some_iff.mp hparsed
  have hmem : path ∈ r.paths := by simp [paths, hpath]
  obtain ⟨r₁, w₁, hcontent, hr₁, hdisk, hquiet₁⟩ :=
    content_answered hstart hans hmem (hne path hmem) hquiet
  have hreads := content_reads store path r w
  rw [hcontent] at hreads
  have hpaths : r₁.paths = r.paths := by
    obtain ⟨origin, rfl⟩ := hreads.run
    rfl
  have hdesc : r.descriptor store w = (.ok d, r₁, w₁) := by
    unfold Run.descriptor
    simp only [hpath, hcontent, hparse]
  obtain ⟨r₂, w₂, hsweep, hquiet₂⟩ := sweep_answered hr₁ (hdisk ▸ hans)
    (fun p (hp : p ∈ r₁.paths) => ⟨hpaths ▸ hp, hne p (hpaths ▸ hp)⟩)
    (rfl : ({} : Failures).failed = []) hquiet₁
  have hcontents : r₁.contents store w₁ = (.ok (gathered m.bytes r.paths []), r₂, w₂) := by
    rw [← hpaths, Run.contents, hreads.descriptorPath, hpath]
    exact hsweep
  -- The names of a run inside its job do not lead out of the cache.
  have hesc : escaping? (gathered m.bytes r.paths []) = none := by
    rw [escaping?, List.find?_eq_none]
    intro name hname
    obtain ⟨e, he, rfl⟩ := List.mem_map.mp hname
    simpa using hinside.stays e.1 (mem_gathered_iff.mp he).1
  refine ⟨r₂, w₂, ?_, hquiet₂⟩
  unfold gather
  simp only [hdesc, hcontents, hesc]

/-- A run whose objects are answered is written if its files can be. -/
theorem write_answered {d : Descriptor} {x : Writing} (hr : r.origin = .bucket [])
    (hinside : r.IsInside) (hparsed : r.parsed? m = some d)
    (hans : store.Answers m w.disk r.paths) (hquiet : w.IsQuiet)
    (hfiles : (Writing.mk w.disk []).files w.now (targets root (r.keeps m)) = (.ok (), x)) :
    ∃ written r' w', r.write store root w = (.ok written, r', w') ∧
      written.byName.isSome = r.isIndexed m ∧ w'.disk = x.disk ∧ w'.now = w.now ∧ w'.IsQuiet := by
  obtain ⟨r₁, w₁, hgather, hquiet₁⟩ := gather_answered hr hinside hparsed hans hquiet root
  have hall : writeAll w.disk w.now (r.files root d (gathered m.bytes r.paths [])) =
      (.ok (), x.disk) := by
    rw [files_eq_targets hinside fun e he => (mem_gathered_iff.mp he).1, ← keeps_of_parsed hparsed,
      writeAll, hfiles]
  refine ⟨_, r₁, { w₁ with disk := x.disk }, write_of_gather hgather hall, ?_, rfl,
    (gather_leaves hgather).2.1, hquiet₁⟩
  rw [isIndexed, hparsed, Option.any_some]
  exact isSome_indexPlace

end Run

/-! ## Runs in turn -/

/-- Runs whose objects are answered at all times are written in turn into an empty directory that
    their files fit below. -/
theorem exists_inTurn {d : Disk} {now : Int} {all done : List Run}
    (hfits : FitsBelow root (all.flatMap (Run.keeps m))) (hroot : d.Stands root)
    (hopen : d.get? (d.place root) = some (.dir false))
    (hempty : ∀ names, names ≠ [] → d.get? (d.place root ++ names) = none)
    (hall : ∀ r ∈ all, r.origin = .bucket [] ∧ r.IsInside ∧ ∃ desc, r.parsed? m = some desc)
    (hans : ∀ done ⊆ all, ∀ d', Wrote (targets root (done.flatMap (Run.keeps m))) now d d' →
      ∀ r ∈ all, store.Answers m d' r.paths)
    (hdone : done ⊆ all) (hruns : runs ⊆ all) (hnow : w.now = now) (hquiet : w.IsQuiet)
    (hwrote : Wrote (targets root (done.flatMap (Run.keeps m))) now d w.disk) :
    ∃ told w', InTurn store root runs w told w' ∧
      entryCount told = (runs.filter (Run.isIndexed m)).length ∧
      Wrote (targets root ((done ++ runs).flatMap (Run.keeps m))) now d w'.disk := by
  induction runs generalizing w done with
  | nil => exact ⟨[], w, .nil w, rfl, by simpa using hwrote⟩
  | cons r rest ih =>
    have hr : r ∈ all := hruns (by simp)
    obtain ⟨horigin, hinside, desc, hparsed⟩ := hall r hr
    have hsub : ∀ runs ⊆ all, runs.flatMap (Run.keeps m) ⊆ all.flatMap (Run.keeps m) := by
      intro runs hruns f hf
      obtain ⟨s, hs, hf⟩ := List.mem_flatMap.mp hf
      exact List.mem_flatMap.mpr ⟨s, hruns hs, hf⟩
    obtain ⟨x, hfiles⟩ := Writing.files_fill (x := ⟨w.disk, []⟩) hfits hroot hopen hempty (hsub done hdone)
      (fun f (hf : f ∈ r.keeps m) => List.mem_flatMap.mpr ⟨r, hr, hf⟩) hwrote
    obtain ⟨written, r', w₁, hwrite, htold, hdisk, hnow₁, hquiet₁⟩ :=
      Run.write_answered horigin hinside hparsed (hans done hdone w.disk hwrote r hr) hquiet
        (hnow ▸ hfiles)
    have hmore := hwrote.trans (Writing.files_written (x := ⟨w.disk, []⟩) hwrote.tree hfiles)
    rw [← targets_append, ← List.flatMap_singleton (Run.keeps m) r, ← List.flatMap_append,
      ← hdisk] at hmore
    obtain ⟨told, w', hturn, hcount, hend⟩ := @ih w₁ (done ++ [r])
      (List.append_subset.mpr ⟨hdone, by simpa using hr⟩)
      (fun s hs => hruns (List.mem_cons_of_mem r hs)) (hnow₁.trans hnow) hquiet₁ hmore
    exact ⟨written :: told, w', .cons hwrite hturn, entryCount_cons_indexed htold hcount,
      by simpa using hend⟩

end RunCache
