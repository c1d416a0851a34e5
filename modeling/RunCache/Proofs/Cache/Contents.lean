import RunCache.Cache.Write
import RunCache.Proofs.Document.Fields
import RunCache.Proofs.World

/-! # Reading the contents of a run

    Whatever is written for a run has been read before.

    * **`Run.Reads`**: what reading changes: what the run remembers, and the
      calls made.
    * **`Run.gather`**: what is read before anything is written
      (`Run.write_eq`). -/

namespace RunCache

namespace Run

variable {store : Store} {r r' r'' : Run} {w w' w'' : World} {path : String}

/-! ## What reading changes -/

/-- Events of reading. -/
def IsReading (e : Event) : Prop := (∃ name, e = .read name) ∨ (∃ p, e = .openFile p) ∨ e = .fired

/-- What reading leaves: the same run but for what it remembers, and a world in which only reads
    have happened. -/
structure Reads (r : Run) (w : World) (r' : Run) (w' : World) : Prop where
  run : ∃ origin, r' = { r with origin }
  calls : World.Calls IsReading w w'

namespace Reads

theorem refl (r : Run) (w : World) : Reads r w r w := ⟨⟨r.origin, rfl⟩, .refl _ w⟩

theorem trans (h : Reads r w r' w') (h' : Reads r' w' r'' w'') : Reads r w r'' w'' := by
  obtain ⟨origin, rfl⟩ := h.run
  obtain ⟨origin', rfl⟩ := h'.run
  exact ⟨⟨origin', rfl⟩, h.calls.trans h'.calls⟩

theorem job (h : Reads r w r' w') : r'.job = r.job := by
  obtain ⟨origin, rfl⟩ := h.run
  rfl

theorem descriptorPath (h : Reads r w r' w') : r'.descriptorPath = r.descriptorPath := by
  obtain ⟨origin, rfl⟩ := h.run
  rfl

end Reads

theorem content_reads (store : Store) (path : String) (r : Run) (w : World) :
    Reads r w (r.content store path w).2.1 (r.content store path w).2.2 := by
  unfold content
  split
  · exact .refl r w
  · split
    · next memo _ =>
      unfold bucketContent
      split
      · exact .refl r w
      · -- One call, whose result is remembered if it is there.
        have hcalls : World.Calls IsReading w (w.read store path).2 :=
          (w.read_calls store path).mono (by
            rintro e (rfl | rfl)
            · exact .inl ⟨path, rfl⟩
            · exact .inr (.inr rfl))
        split
        · next e w' hread =>
          rw [hread] at hcalls
          exact ⟨⟨r.origin, rfl⟩, hcalls⟩
        · next bytes w' hread =>
          rw [hread] at hcalls
          exact ⟨⟨_, rfl⟩, hcalls⟩
    · next root _ =>
      refine ⟨⟨r.origin, rfl⟩, ?_⟩
      simp only [cachedContent]
      split
      · exact .refl _ w
      · exact w.call_calls _ _ (.inr (.inl ⟨_, rfl⟩)) (.inr (.inr rfl))

/-! ### Invariants of reading

    The descriptor and the contents are read path by path, so they keep
    what reading one path keeps. -/

section Invariant

variable {P : Run → World → Prop}
  (hcontent : ∀ path r w, P r w → P (r.content store path w).2.1 (r.content store path w).2.2)
include hcontent

theorem descriptor_invariant (h : P r w) :
    P (r.descriptor store w).2.1 (r.descriptor store w).2.2 := by
  unfold descriptor
  split
  · exact h
  · next path _ =>
    have hkept := hcontent path r w h
    split
    · next e r' w' hread =>
      rw [hread] at hkept
      exact hkept
    · next bytes r' w' hread =>
      rw [hread] at hkept
      exact hkept

theorem sweep_invariant (paths : List String) (failures : Failures) (contents : Fields ByteArray)
    (h : P r w) :
    P (sweep store paths failures contents r w).2.1
      (sweep store paths failures contents r w).2.2 := by
  induction paths generalizing failures contents r w with
  | nil => exact h
  | cons path rest ih =>
    have hkept := hcontent path r w h
    unfold sweep
    split
    · next bytes r' w' hread =>
      rw [hread] at hkept
      exact ih _ _ hkept
    · next r' w' hread =>
      rw [hread] at hkept
      exact hkept
    · next e r' w' _ hread =>
      rw [hread] at hkept
      exact ih _ _ hkept

theorem contents_invariant (h : P r w) :
    P (r.contents store w).2.1 (r.contents store w).2.2 := by
  unfold contents
  split
  · exact h
  · exact sweep_invariant hcontent r.paths {} [] h

end Invariant

theorem descriptor_reads (store : Store) (r : Run) (w : World) :
    Reads r w (r.descriptor store w).2.1 (r.descriptor store w).2.2 :=
  descriptor_invariant (P := Reads r w)
    (fun path r' w' h => h.trans (content_reads store path r' w')) (.refl r w)

theorem contents_reads (store : Store) (r : Run) (w : World) :
    Reads r w (r.contents store w).2.1 (r.contents store w).2.2 :=
  contents_invariant (P := Reads r w)
    (fun path r' w' h => h.trans (content_reads store path r' w')) (.refl r w)

/-! ## What is remembered -/

/-- The mapping of paths to bytes. -/
def gathered (f : String → ByteArray) (paths : List String) (contents : Fields ByteArray) :
    Fields ByteArray :=
  paths.foldl (fun contents path => contents.insert path (f path)) contents

theorem get_gathered (f : String → ByteArray) (paths : List String) (contents : Fields ByteArray)
    (key : String) :
    (gathered f paths contents).get? key =
      if key ∈ paths then some (f key) else contents.get? key := by
  induction paths generalizing contents with
  | nil => simp [gathered]
  | cons path rest ih =>
    show (gathered f rest (contents.insert path (f path))).get? key = _
    rw [ih, Fields.get_insert]
    by_cases hrest : key ∈ rest
    · simp [hrest]
    · by_cases hpath : path = key
      · simp [hpath]
      · simp [hrest, hpath, Ne.symm hpath]

theorem mem_of_mem_gathered {f : String → ByteArray} {paths : List String}
    {contents : Fields ByteArray} {e : String × ByteArray} (h : e ∈ gathered f paths contents) :
    (e.1 ∈ paths ∧ e.2 = f e.1) ∨ e ∈ contents := by
  induction paths generalizing contents with
  | nil => exact .inr h
  | cons path rest ih =>
    rcases ih h with ⟨hmem, hval⟩ | h
    · exact .inl ⟨List.mem_cons_of_mem _ hmem, hval⟩
    · rcases Fields.mem_insert h with rfl | h
      · exact .inl ⟨by simp, rfl⟩
      · exact .inr h

theorem mem_gathered_iff {f : String → ByteArray} {paths : List String} {path : String}
    {bytes : ByteArray} :
    (path, bytes) ∈ gathered f paths [] ↔ path ∈ paths ∧ bytes = f path := by
  constructor
  · intro h
    rcases mem_of_mem_gathered h with h | h
    · exact h
    · cases h
  · rintro ⟨hmem, rfl⟩
    exact Fields.mem_of_get (by rw [get_gathered, if_pos hmem])

theorem sorted_gathered (f : String → ByteArray) (paths : List String)
    {contents : Fields ByteArray} (h : contents.Sorted) : (gathered f paths contents).Sorted := by
  induction paths generalizing contents with
  | nil => exact h
  | cons path rest ih => exact ih (h.insert path (f path))

/-- The bytes that a run of a bucket remembers for a path. -/
def known (r : Run) (path : String) : ByteArray := (r.memo.get? path).getD .empty

/-- A later state of a run of a bucket, which remembers at least as much. -/
structure Remembers (r r' : Run) : Prop where
  bucket : ∃ memo, r'.origin = .bucket memo
  kept : ∀ path bytes, r.memo.get? path = some bytes → r'.memo.get? path = some bytes

theorem Remembers.trans (h : Remembers r r') (h' : Remembers r' r'') : Remembers r r'' :=
  ⟨h'.bucket, fun path bytes hget => h'.kept path bytes (h.kept path bytes hget)⟩

variable {memo : Fields ByteArray} {bytes : ByteArray}

theorem content_ok (hr : r.origin = .bucket memo)
    (h : r.content store path w = (.ok bytes, r', w')) :
    path ≠ "" ∧ r'.memo.get? path = some bytes ∧ Remembers r r' := by
  have hmemo : r.memo = memo := by rw [Run.memo, hr]
  unfold content at h
  split at h
  · cases h
  · next hpath =>
    rw [hr] at h
    refine ⟨by simpa using hpath, ?_⟩
    simp only [bucketContent] at h
    split at h
    · next b hget =>
      obtain ⟨hb, hrest⟩ := Prod.mk.inj h
      obtain rfl := Except.ok.inj hb
      obtain ⟨rfl, _⟩ := Prod.mk.inj hrest
      exact ⟨by rw [hmemo, hget], ⟨memo, hr⟩, fun _ _ hk => hk⟩
    · next hget =>
      split at h
      · cases h
      · next b w₁ _ =>
        obtain ⟨hb, hrest⟩ := Prod.mk.inj h
        obtain rfl := Except.ok.inj hb
        obtain ⟨rfl, _⟩ := Prod.mk.inj hrest
        -- What is new is remembered under a path that was not, so nothing is forgotten.
        refine ⟨?_, ⟨_, rfl⟩, fun k b' hk => ?_⟩
        · simp [Run.memo, Fields.get_insert]
        · show (memo.insert path b).get? k = some b'
          rw [hmemo] at hk
          rw [Fields.get_insert, if_neg, hk]
          rintro rfl
          rw [hget] at hk
          cases hk

theorem content_error {e : Error} (hr : r.origin = .bucket memo)
    (h : r.content store path w = (.error e, r', w')) : r' = r := by
  unfold content at h
  split at h
  · obtain ⟨_, rfl, _⟩ := by simpa using h
    rfl
  · rw [hr] at h
    simp only [bucketContent] at h
    split at h
    · cases h
    · split at h
      · obtain ⟨_, rfl, _⟩ := by simpa using h
        rfl
      · cases h

/-- What is remembered is not read again. -/
theorem content_known (hr : r.origin = .bucket memo) (hpath : path ≠ "")
    (hget : memo.get? path = some bytes) (w : World) :
    r.content store path w = (.ok bytes, r, w) := by
  unfold content
  rw [if_neg (by simpa using hpath), hr]
  simp only [bucketContent, hget]

section Step

variable {paths : List String} {failures : Failures} {contents : Fields ByteArray}

theorem sweep_cons_ok (h : r.content store path w = (.ok bytes, r', w')) :
    sweep store (path :: paths) failures contents r w =
      sweep store paths failures.countTry (contents.insert path bytes) r' w' := by
  rw [sweep, h]

theorem sweep_cons_error {e : Error} (hgoes : e ≠ .cancelled)
    (h : r.content store path w = (.error e, r', w')) :
    sweep store (path :: paths) failures contents r w =
      sweep store paths (failures.countTry.add path e) contents r' w' := by
  rw [sweep, h]
  split
  · next heq => cases heq
  · next heq =>
    cases heq
    exact absurd rfl hgoes
  · next heq =>
    cases heq
    rfl

end Step

/-- A sweep that succeeds has read every path. -/
theorem sweep_ok {paths : List String} {failures : Failures} {contents all : Fields ByteArray}
    (hr : r.origin = .bucket memo)
    (h : sweep store paths failures contents r w = (.ok all, r', w')) :
    Remembers r r' ∧ (∀ p ∈ paths, p ≠ "" ∧ (r'.memo.get? p).isSome) ∧
      all = gathered r'.known paths contents ∧ failures.failed = [] := by
  -- A failure that is noted stays noted, and a sweep with one fails at its end.
  induction paths generalizing failures contents r w memo with
  | nil =>
    simp only [sweep] at h
    obtain ⟨hcheck, hrest⟩ := Prod.mk.inj h
    obtain ⟨rfl, _⟩ := Prod.mk.inj hrest
    unfold Failures.check at hcheck
    split at hcheck
    · next hnone =>
      obtain rfl := Except.ok.inj hcheck
      exact ⟨⟨⟨memo, hr⟩, fun _ _ hk => hk⟩, by simp, rfl, by simpa using hnone⟩
    · cases hcheck
  | cons path rest ih =>
    unfold sweep at h
    split at h
    · next b r₁ w₁ hcontent =>
      obtain ⟨hpath, hget, hrem⟩ := content_ok hr hcontent
      obtain ⟨memo₁, hr₁⟩ := hrem.bucket
      obtain ⟨hrem', hall, hgathered, hfailed⟩ := ih hr₁ h
      have hget' := hrem'.kept path b hget
      refine ⟨hrem.trans hrem', ?_, ?_, hfailed⟩
      · intro p hp
        rcases List.mem_cons.mp hp with rfl | hp
        · exact ⟨hpath, by rw [hget']; rfl⟩
        · exact hall p hp
      · have hknown : r'.known path = b := by rw [known, hget', Option.getD_some]
        rw [hgathered]
        show _ = gathered r'.known rest (contents.insert path (r'.known path))
        rw [hknown]
    · cases (Prod.mk.inj h).1
    · next e r₁ w₁ _ hcontent =>
      obtain rfl := content_error hr hcontent
      obtain ⟨_, _, _, hfailed⟩ := ih hr h
      simp [Failures.add] at hfailed

/-- The contents of a sweep that succeeds are those of all paths, wherever they come from. -/
theorem sweep_keys {paths : List String} {failures : Failures} {contents all : Fields ByteArray}
    (h : sweep store paths failures contents r w = (.ok all, r', w')) :
    failures.failed = [] ∧
      ∀ key, (all.get? key).isSome ↔ key ∈ paths ∨ (contents.get? key).isSome := by
  induction paths generalizing failures contents r w with
  | nil =>
    simp only [sweep] at h
    obtain ⟨hcheck, _⟩ := Prod.mk.inj h
    unfold Failures.check at hcheck
    split at hcheck
    · next hnone =>
      obtain rfl := Except.ok.inj hcheck
      exact ⟨by simpa using hnone, by simp⟩
    · cases hcheck
  | cons path rest ih =>
    unfold sweep at h
    split at h
    · obtain ⟨hfailed, hkeys⟩ := ih h
      refine ⟨hfailed, fun key => ?_⟩
      rw [hkeys, Fields.get_insert]
      by_cases hkey : path = key
      · simp [hkey]
      · simp [hkey, Ne.symm hkey]
    · cases (Prod.mk.inj h).1
    · -- A failure that is noted stays noted, and a sweep with one fails at its end.
      obtain ⟨hfailed, _⟩ := ih h
      simp [Failures.add] at hfailed

/-- A sweep over paths that are remembered reads nothing. -/
theorem sweep_known {paths : List String} {failures : Failures} {contents : Fields ByteArray}
    (hr : r.origin = .bucket memo)
    (hall : ∀ p ∈ paths, p ≠ "" ∧ (r.memo.get? p).isSome) (hfailed : failures.failed = [])
    (w : World) :
    sweep store paths failures contents r w = (.ok (gathered r.known paths contents), r, w) := by
  induction paths generalizing failures contents with
  | nil => simp [sweep, Failures.check, hfailed, gathered, Except.map]
  | cons path rest ih =>
    obtain ⟨hpath, hsome⟩ := hall path (by simp)
    obtain ⟨b, hget⟩ := Option.isSome_iff_exists.mp hsome
    have hmemo : r.memo = memo := by rw [Run.memo, hr]
    have hknown : r.known path = b := by rw [known, hget, Option.getD_some]
    rw [sweep_cons_ok (content_known hr hpath (hmemo ▸ hget) w),
      ih (fun p hp => hall p (List.mem_cons_of_mem _ hp)) (by simpa [Failures.countTry]), ← hknown]
    rfl

/-- A run that remembers all its paths gives its contents and reads nothing. -/
theorem contents_known (hr : r.origin = .bucket memo) (hdesc : r.descriptorPath.isSome)
    (hall : ∀ p ∈ r.paths, p ≠ "" ∧ (r.memo.get? p).isSome) (w : World) :
    r.contents store w = (.ok (gathered r.known r.paths []), r, w) := by
  obtain ⟨path, hpath⟩ := Option.isSome_iff_exists.mp hdesc
  unfold Run.contents
  simp only [hpath]
  exact sweep_known hr hall rfl w

theorem descriptor_known {d : Descriptor} (hr : r.origin = .bucket memo)
    (hdesc : r.descriptorPath = some path) (hpath : path ≠ "") (hsome : (r.memo.get? path).isSome)
    (hparse : parseDescriptor (r.known path) = .ok d) (w : World) :
    r.descriptor store w = (.ok d, r, w) := by
  obtain ⟨b, hget⟩ := Option.isSome_iff_exists.mp hsome
  have hmemo : r.memo = memo := by rw [Run.memo, hr]
  have hknown : r.known path = b := by rw [known, hget, Option.getD_some]
  unfold Run.descriptor
  simp only [hdesc, content_known hr hpath (hmemo ▸ hget), ← hknown, hparse]

/-! ## Reading a cache -/

/-- A cached run looks for what a name that stays inside stands for in one file. -/
theorem content_opens {root : Path} (store : Store) (hr : r.origin = .cache root)
    (hstays : ObjectName.staysInside path = true) (w : World) :
    r.content store path w =
      ((w.call (.openFile (CachePath.ofObject root path))
          { outcome := some (openCached w.disk root path) }).1, r,
        (w.call (.openFile (CachePath.ofObject root path))
          { outcome := some (openCached w.disk root path) }).2) := by
  have hpath : path.isEmpty = false := by
    simp only [ObjectName.staysInside, Bool.and_eq_true, Bool.not_eq_true'] at hstays
    exact hstays.1
  unfold content
  rw [if_neg (by simp [hpath]), hr]
  simp only [cachedContent, hstays, Bool.not_true, Bool.false_eq_true, if_false]

/-- In a quiet world a cached run reads a file that is there. -/
theorem content_cached {root : Path} (store : Store) (hr : r.origin = .cache root)
    (hstays : ObjectName.staysInside path = true)
    (hread : w.disk.readFile (CachePath.ofObject root path) = .ok bytes) (hquiet : w.IsQuiet) :
    ∃ w', r.content store path w = (.ok bytes, r, w') ∧ w'.disk = w.disk ∧ w'.IsQuiet := by
  have hopen : openCached w.disk root path = .ok bytes := by rw [openCached, hread]
  obtain ⟨w', hcall, hdisk, hquiet'⟩ :=
    hquiet.call (.openFile (CachePath.ofObject root path)) (openCached w.disk root path)
  refine ⟨w', ?_, hdisk, hquiet'⟩
  rw [content_opens store hr hstays, hcall, hopen]

theorem sweep_cached {root : Path} {f : String → ByteArray} {paths : List String}
    {failures : Failures} {contents : Fields ByteArray} (hr : r.origin = .cache root)
    (hall : ∀ p ∈ paths, ObjectName.staysInside p = true ∧
      w.disk.readFile (CachePath.ofObject root p) = .ok (f p))
    (hfailed : failures.failed = []) (hquiet : w.IsQuiet) :
    (sweep store paths failures contents r w).1 = .ok (gathered f paths contents) := by
  induction paths generalizing failures contents w with
  | nil => simp [sweep, Failures.check, hfailed, gathered, Except.map]
  | cons path rest ih =>
    obtain ⟨hstays, hread⟩ := hall path (by simp)
    obtain ⟨w', hcontent, hdisk, hquiet'⟩ := content_cached store hr hstays hread hquiet
    rw [sweep_cons_ok hcontent]
    refine ih (fun p hp => ?_) (by simpa [Failures.countTry]) hquiet'
    rw [hdisk]
    exact hall p (List.mem_cons_of_mem _ hp)

/-- A cached run whose files are all there gives their bytes. -/
theorem contents_cached {root : Path} {f : String → ByteArray} (hr : r.origin = .cache root)
    (hdesc : r.descriptorPath.isSome)
    (hall : ∀ p ∈ r.paths, ObjectName.staysInside p = true ∧
      w.disk.readFile (CachePath.ofObject root p) = .ok (f p)) (hquiet : w.IsQuiet) :
    (r.contents store w).1 = .ok (gathered f r.paths []) := by
  obtain ⟨path, hpath⟩ := Option.isSome_iff_exists.mp hdesc
  unfold Run.contents
  simp only [hpath]
  exact sweep_cached hr hall rfl hquiet

theorem descriptor_cached {root : Path} {d : Descriptor} (store : Store)
    (hr : r.origin = .cache root)
    (hdesc : r.descriptorPath = some path) (hstays : ObjectName.staysInside path = true)
    (hread : w.disk.readFile (CachePath.ofObject root path) = .ok bytes)
    (hparse : parseDescriptor bytes = .ok d) (hquiet : w.IsQuiet) :
    ∃ w', r.descriptor store w = (.ok d, r, w') ∧ w'.disk = w.disk ∧ w'.now = w.now ∧
      w'.IsQuiet := by
  obtain ⟨w', hcontent, hdisk, hquiet'⟩ := content_cached store hr hstays hread hquiet
  have hreads := content_reads store path r w
  rw [hcontent] at hreads
  refine ⟨w', ?_, hdisk, hreads.calls.now, hquiet'⟩
  unfold Run.descriptor
  simp only [hdesc, hcontent, hparse]

/-! ## Reading before writing -/

/-- What is read before the first file of a run is written: the descriptor and the contents, under
    names that all stay inside the cache. -/
def gather (store : Store) (root : Path) (r : Run) (w : World) :
    Outcome (Descriptor × Fields ByteArray) :=
  match r.descriptor store w with
  | (.error e, r, w) => (.error e, r, w)
  | (.ok d, r, w) =>
    match r.contents store w with
    | (.error e, r, w) => (.error e, r, w)
    | (.ok contents, r, w) =>
      match escaping? contents with
      | some name =>
        (.error (.write (CachePath.ofObject root name).text (.other escapeText)), r, w)
      | none => (.ok (d, contents), r, w)

/-- Gathering keeps what reading one path keeps. -/
theorem gather_invariant {P : Run → World → Prop}
    (hcontent : ∀ path r w, P r w → P (r.content store path w).2.1 (r.content store path w).2.2)
    (root : Path) (h : P r w) : P (r.gather store root w).2.1 (r.gather store root w).2.2 := by
  have hdesc := descriptor_invariant hcontent h
  unfold gather
  split
  · next e r₁ w₁ hd =>
    rw [hd] at hdesc
    exact hdesc
  · next d r₁ w₁ hd =>
    rw [hd] at hdesc
    have hcont := contents_invariant hcontent hdesc
    split
    · next e r₂ w₂ hc =>
      rw [hc] at hcont
      exact hcont
    · next contents r₂ w₂ hc =>
      rw [hc] at hcont
      split
      · exact hcont
      · exact hcont

theorem gather_reads (store : Store) (root : Path) (r : Run) (w : World) :
    Reads r w (r.gather store root w).2.1 (r.gather store root w).2.2 :=
  gather_invariant (P := Reads r w)
    (fun path r' w' h => h.trans (content_reads store path r' w')) root (.refl r w)

/-- Gathering leaves disk and clock, and of a run it changes only what that remembers. -/
theorem gather_leaves {root : Path} {gathered : Except Error (Descriptor × Fields ByteArray)}
    (h : r.gather store root w = (gathered, r', w')) :
    w'.disk = w.disk ∧ w'.now = w.now ∧ ∃ origin, r' = { r with origin } := by
  have hreads := gather_reads store root r w
  rw [h] at hreads
  exact ⟨hreads.calls.disk, hreads.calls.now, hreads.run⟩

theorem gather_stays {root : Path} {d : Descriptor} {contents : Fields ByteArray}
    (h : r.gather store root w = (.ok (d, contents), r', w')) : escaping? contents = none := by
  unfold gather at h
  split at h
  · cases h
  · split at h
    · cases h
    · split at h
      · cases h
      · next hesc =>
        obtain ⟨hok, _⟩ := Prod.mk.inj h
        obtain ⟨_, rfl⟩ := Prod.mk.inj (Except.ok.inj hok)
        exact hesc

/-- What has been gathered are the contents of all paths, the descriptor among them. -/
theorem gather_keys {root : Path} {d : Descriptor} {contents : Fields ByteArray}
    (h : r.gather store root w = (.ok (d, contents), r', w')) :
    (∃ path, r.descriptorPath = some path) ∧
      ∀ key, (contents.get? key).isSome ↔ key ∈ r.paths := by
  unfold gather at h
  split at h
  · cases h
  · next d₁ r₁ w₁ hdesc =>
    have hreads := descriptor_reads store r w
    rw [hdesc] at hreads
    obtain ⟨origin, rfl⟩ : ∃ origin, r₁ = { r with origin } := hreads.run
    split at h
    · cases h
    · next contents₁ r₂ w₂ hcont =>
      split at h
      · cases h
      · obtain ⟨_, rfl⟩ := Prod.mk.inj (Except.ok.inj (Prod.mk.inj h).1)
        unfold Run.contents at hcont
        split at hcont
        · cases hcont
        · next path hpath =>
          refine ⟨⟨path, hpath⟩, fun key => ?_⟩
          rw [(sweep_keys hcont).2]
          simp [paths]

/-- Writing a run is reading it and then writing its files. -/
theorem write_eq (store : Store) (root : Path) (r : Run) (w : World) :
    r.write store root w =
      match r.gather store root w with
      | (.error e, r, w) => (.error e, r, w)
      | (.ok (d, contents), r, w) =>
        match w.writeAll (r.files root d contents) with
        | (.error e, w) => (.error e, r, w)
        | (.ok (), w) =>
          (.ok ⟨(r.files root d contents).length, indexPlace? root r.job d⟩, r, w) := by
  unfold write gather
  cases r.descriptor store w with
  | mk result₁ rest₁ =>
    obtain ⟨r₁, w₁⟩ := rest₁
    cases result₁ with
    | error e => rfl
    | ok d =>
      -- Past the descriptor both sides read the same contents.
      cases hc : r₁.contents store w₁ with
      | mk result₂ rest₂ =>
        obtain ⟨r₂, w₂⟩ := rest₂
        cases result₂ with
        | error e => simp [hc]
        | ok contents =>
          simp only [hc, writeContents]
          cases escaping? contents with
          | some name => rfl
          | none =>
            simp only
            cases w₂.writeAll (r₂.files root d contents) with
            | mk result w₃ => cases result <;> rfl

/-- Once the contents have been gathered, a write ends as the files of the run can be written. -/
theorem write_of_gather {root : Path} {d : Descriptor} {contents : Fields ByteArray}
    {result : Except Error Unit} {disk : Disk}
    (hgather : r.gather store root w = (.ok (d, contents), r', w'))
    (hwrite : writeAll w.disk w.now (r.files root d contents) = (result, disk)) :
    r.write store root w =
      (result.map fun _ => ⟨(r.files root d contents).length, indexPlace? root r.job d⟩,
        r', { w' with disk }) := by
  obtain ⟨hdisk, hnow, origin, rfl⟩ := gather_leaves hgather
  have hfiles : ({ r with origin } : Run).files root d contents = r.files root d contents := rfl
  have hall : w'.writeAll (r.files root d contents) = (result, { w' with disk }) := by
    rw [World.writeAll, hdisk, hnow, hwrite]
  rw [write_eq, hgather]
  simp only [hfiles, hall]
  cases result <;> rfl

/-- A write that succeeds has gathered what it wrote, and tells how many files it has written and
    which entry of the index. -/
theorem write_ok {root : Path} {written : Written}
    (h : r.write store root w = (.ok written, r', w')) :
    ∃ d contents w₁, r.gather store root w = (.ok (d, contents), r', w₁) ∧
      writeAll w.disk w.now (r.files root d contents) = (.ok (), w'.disk) ∧
      w'.now = w.now ∧
      written = ⟨(r.files root d contents).length, indexPlace? root r.job d⟩ := by
  rcases hgather : r.gather store root w with ⟨gathered, r₁, w₁⟩
  cases gathered with
  | error e =>
    rw [write_eq, hgather] at h
    cases h
  | ok gathered =>
    obtain ⟨d, contents⟩ := gathered
    rcases hwrite : writeAll w.disk w.now (r.files root d contents) with ⟨result, disk⟩
    rw [write_of_gather hgather hwrite] at h
    obtain ⟨hresult, hrest⟩ := Prod.mk.inj h
    obtain ⟨rfl, rfl⟩ := Prod.mk.inj hrest
    cases result with
    | error e => cases hresult
    | ok u =>
      exact ⟨d, contents, w₁, rfl, hwrite, (gather_leaves hgather).2.1,
        (Except.ok.inj hresult).symm⟩

/-- What has been gathered from a bucket is remembered: the run has the descriptor and the contents
    that were gathered, and reads nothing more for them. -/
theorem gather_ok {root : Path} {memo : Fields ByteArray} {d : Descriptor}
    {contents : Fields ByteArray} (hr : r.origin = .bucket memo)
    (h : r.gather store root w = (.ok (d, contents), r', w')) :
    (∃ path, r.descriptorPath = some path ∧ parseDescriptor (r'.known path) = .ok d) ∧
      contents = gathered r'.known r.paths [] ∧
      (∀ p ∈ r.paths, p ≠ "" ∧ (r'.memo.get? p).isSome) ∧ ∃ memo, r'.origin = .bucket memo := by
  unfold gather at h
  split at h
  · cases h
  · next d₁ r₁ w₁ hdesc =>
    have hreads := descriptor_reads store r w
    rw [hdesc] at hreads
    split at h
    · cases h
    · next contents₁ r₂ w₂ hcont =>
      split at h
      · cases h
      · obtain ⟨hok, hrest⟩ := Prod.mk.inj h
        obtain ⟨rfl, rfl⟩ := Prod.mk.inj (Except.ok.inj hok)
        obtain ⟨rfl, _⟩ := Prod.mk.inj hrest
        have hpaths : r₁.paths = r.paths := by
          obtain ⟨origin, rfl⟩ := hreads.run
          rfl
        unfold descriptor at hdesc
        split at hdesc
        · cases hdesc
        · next path hpath =>
          split at hdesc
          · cases hdesc
          · next bytes r₁' w₁' hcontent =>
            obtain ⟨hparse, hrest⟩ := Prod.mk.inj hdesc
            obtain ⟨rfl, rfl⟩ := Prod.mk.inj hrest
            obtain ⟨_, hget, hrem⟩ := content_ok hr hcontent
            -- The descriptor has been read, so the sweep starts from a run that remembers it.
            obtain ⟨memo₁, hr₁⟩ := hrem.bucket
            have hpath₁ : r₁'.descriptorPath = some path := hreads.descriptorPath.trans hpath
            simp only [Run.contents, hpath₁] at hcont
            obtain ⟨hrem', hall, hgathered, _⟩ := sweep_ok hr₁ hcont
            rw [hpaths] at hall hgathered
            refine ⟨⟨path, hpath, ?_⟩, hgathered, hall, hrem'.bucket⟩
            rw [known, hrem'.kept path bytes hget, Option.getD_some, hparse]

end Run

end RunCache
