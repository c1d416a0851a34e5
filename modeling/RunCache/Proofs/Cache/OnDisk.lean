import RunCache.Cache.Pass
import RunCache.Proofs.Cache.ReadOnce

/-! # The same calls on another disk

    What is read from a bucket does not come from the disk that the cache
    is on.  So with another disk a scan finds the same runs, and reading
    them gives the same contents.

    * **`Store.SameOn`**: a store whose answers are the same with another
      disk.
    * **`scan_onDisk`**: scanning with another disk.
    * **`Run.gather_onDisk`**: what is read before a run is written. -/

namespace RunCache

/-! ## Calls -/

namespace World

variable {w w' : World} {d : Disk}

/-- A world with another disk. -/
def onDisk (w : World) (d : Disk) : World := { w with disk := d }

@[simp] theorem onDisk_disk (w : World) (d : Disk) : (w.onDisk d).disk = d := rfl

@[simp] theorem onDisk_signal (w : World) (d : Disk) : (w.onDisk d).signal = w.signal := rfl

@[simp] theorem onDisk_now (w : World) (d : Disk) : (w.onDisk d).now = w.now := rfl

@[simp] theorem onDisk_onDisk (w : World) (d d' : Disk) : (w.onDisk d).onDisk d' = w.onDisk d' := rfl

theorem fire_onDisk (w : World) (d : Disk) : (w.onDisk d).fire = w.fire.onDisk d := by
  unfold fire
  rw [onDisk_signal]
  split <;> rfl

theorem await_onDisk {α : Type} (w : World) (reply : Reply α) (d : Disk) :
    (w.onDisk d).await reply = ((w.await reply).1, (w.await reply).2.onDisk d) := by
  have hwait : (w.onDisk d).wait reply.delay = (w.wait reply.delay).onDisk d := rfl
  unfold await
  rw [onDisk_signal]
  split
  · rw [fire_onDisk]
  · simp only [hwait, fire_onDisk]
    cases reply.outcome <;> cases reply.fires <;> simp [fire_onDisk]

/-- A call that is answered in the same way comes to the same with another disk. -/
theorem call_onDisk {α : Type} {result : Except Error α} {e : Event} {reply : Reply α}
    (h : w.call e reply = (result, w')) : (w.onDisk d).call e reply = (result, w'.onDisk d) := by
  have hnote : (w.onDisk d).note e = (w.note e).onDisk d := rfl
  unfold call at h ⊢
  rw [onDisk_signal]
  split at h
  · next hfired =>
    obtain ⟨rfl, rfl⟩ := Prod.mk.inj h
    rw [if_pos hfired]
  · next hfired => rw [if_neg hfired, hnote, await_onDisk, h]

end World

/-- Two disks on which a store gives the same answers. -/
def Store.SameOn (store : Store) (d d' : Disk) : Prop :=
  ∀ w : World, (∀ q, store.list (w.onDisk d') q = store.list (w.onDisk d) q) ∧
    ∀ name, store.read (w.onDisk d') name = store.read (w.onDisk d) name

theorem Store.SameOn.symm {store : Store} {d d' : Disk} (h : store.SameOn d d') :
    store.SameOn d' d :=
  fun w => ⟨fun q => ((h w).1 q).symm, fun name => ((h w).2 name).symm⟩

theorem Store.SameOn.trans {store : Store} {d d' d'' : Disk} (h : store.SameOn d d')
    (h' : store.SameOn d' d'') : store.SameOn d d'' :=
  fun w => ⟨fun q => ((h' w).1 q).trans ((h w).1 q),
    fun name => ((h' w).2 name).trans ((h w).2 name)⟩

/-! ## Scans -/

section Scans

variable {store : Store} {w w' : World} {d : Disk} {o : ScanOptions} {job : String}

theorem World.list_onDisk {q : Query} {result : Except Error (List Delivery)}
    (hstore : store.SameOn w.disk d) (h : w.list store q = (result, w')) :
    (w.onDisk d).list store q = (result, w'.onDisk d) := by
  unfold list at h ⊢
  rw [(hstore w).1 q]
  exact call_onDisk h

theorem World.read_onDisk {name : String} {result : Except Error ByteArray}
    (hstore : store.SameOn w.disk d) (h : w.read store name = (result, w')) :
    (w.onDisk d).read store name = (result, w'.onDisk d) := by
  unfold read at h ⊢
  rw [(hstore w).2 name]
  exact call_onDisk h

/-- Taking items only looks at the signal and the time. -/
theorem takeItems_onDisk {items : List Delivery} {g g' : Grouping} {broken : Option Error}
    (h : takeItems o job items g w = (g', broken, w')) :
    takeItems o job items g (w.onDisk d) = (g', broken, w'.onDisk d) := by
  induction items generalizing g w with
  | nil =>
    unfold takeItems at h ⊢
    rw [World.onDisk_signal]
    split at h
    · next hfired =>
      obtain ⟨rfl, rfl, rfl⟩ := by simpa using h
      rw [if_pos hfired]
    · next hfired =>
      obtain ⟨rfl, rfl, rfl⟩ := by simpa using h
      rw [if_neg hfired]
  | cons x rest ih =>
    have hfires : (if x.fires then (w.onDisk d).fire else w.onDisk d) =
        (if x.fires then w.fire else w).onDisk d := by
      split
      · exact World.fire_onDisk w d
      · rfl
    unfold takeItems at h ⊢
    rw [World.onDisk_signal, hfires]
    split at h
    · next hfired =>
      obtain ⟨rfl, rfl, rfl⟩ := by simpa using h
      rw [if_pos hfired]
    · next hfired =>
      rw [if_neg hfired]
      cases hitem : x.item with
      | error e =>
        simp only [hitem] at h ⊢
        obtain ⟨rfl, rfl, rfl⟩ := by simpa using h
        rfl
      | ok object =>
        simp only [hitem] at h ⊢
        exact ih h

/-- With another disk a scan comes to the same. -/
theorem scan_onDisk {result : Except BrokenScan (List Run)} (hstore : store.SameOn w.disk d)
    (h : scan store o job w = (result, w')) :
    scan store o job (w.onDisk d) = (result, w'.onDisk d) := by
  unfold scan at h ⊢
  rcases hlist : w.list store (o.query job) with ⟨answer, w₁⟩
  rw [World.list_onDisk hstore hlist]
  rw [hlist] at h
  cases answer with
  | error source =>
    obtain ⟨rfl, rfl⟩ := Prod.mk.inj h
    rfl
  | ok items =>
    simp only at h ⊢
    rcases htake : takeItems o job items [] w₁ with ⟨g, broken, w₂⟩
    rw [takeItems_onDisk htake]
    rw [htake] at h
    cases broken with
    | none =>
      obtain ⟨rfl, rfl⟩ := Prod.mk.inj h
      rfl
    | some source =>
      obtain ⟨rfl, rfl⟩ := Prod.mk.inj h
      rfl

end Scans

/-! ## Runs -/

namespace Run

variable {store : Store} {r r' : Run} {w w' : World} {d : Disk} {memo : Fields ByteArray}

theorem content_onDisk {path : String} {result : Except Error ByteArray}
    (hr : r.origin = .bucket memo) (hstore : store.SameOn w.disk d)
    (h : r.content store path w = (result, r', w')) :
    r.content store path (w.onDisk d) = (result, r', w'.onDisk d) := by
  unfold content at h ⊢
  split at h
  · next hempty =>
    obtain ⟨rfl, rfl, rfl⟩ := by simpa using h
    rw [if_pos hempty]
  · next hempty =>
    rw [if_neg hempty]
    simp only [hr, bucketContent] at h ⊢
    split at h
    · obtain ⟨rfl, rfl, rfl⟩ := by simpa using h
      rfl
    · rcases hread : w.read store path with ⟨answer, w₁⟩
      rw [World.read_onDisk hstore hread]
      rw [hread] at h
      cases answer with
      | error e =>
        obtain ⟨rfl, rfl, rfl⟩ := by simpa using h
        rfl
      | ok bytes =>
        obtain ⟨rfl, rfl, rfl⟩ := by simpa using h
        rfl

/-- Behind one read the next one finds a run of a bucket and the same disk. -/
theorem content_then {path : String} {result : Except Error ByteArray}
    (hr : r.origin = .bucket memo) (hstore : store.SameOn w.disk d)
    (h : r.content store path w = (result, r', w')) :
    (∃ memo, r'.origin = .bucket memo) ∧ store.SameOn w'.disk d := by
  have hrem := (content_hasRead store hr path w).1.bucket
  have hdisk := (content_reads store path r w).calls.disk
  rw [h] at hrem hdisk
  exact ⟨hrem, hdisk ▸ hstore⟩

theorem descriptor_onDisk {result : Except Error Descriptor} (hr : r.origin = .bucket memo)
    (hstore : store.SameOn w.disk d) (h : r.descriptor store w = (result, r', w')) :
    r.descriptor store (w.onDisk d) = (result, r', w'.onDisk d) := by
  unfold descriptor at h ⊢
  split at h
  · obtain ⟨rfl, rfl, rfl⟩ := by simpa using h
    rfl
  · next path _ =>
    rcases hcontent : r.content store path w with ⟨answer, r₁, w₁⟩
    rw [content_onDisk hr hstore hcontent]
    rw [hcontent] at h
    cases answer with
    | error e =>
      obtain ⟨rfl, rfl, rfl⟩ := by simpa using h
      rfl
    | ok bytes =>
      obtain ⟨rfl, rfl, rfl⟩ := by simpa using h
      rfl

theorem sweep_onDisk {paths : List String} {failures : Failures} {contents : Fields ByteArray}
    {result : Except Error (Fields ByteArray)} (hr : r.origin = .bucket memo)
    (hstore : store.SameOn w.disk d)
    (h : sweep store paths failures contents r w = (result, r', w')) :
    sweep store paths failures contents r (w.onDisk d) = (result, r', w'.onDisk d) := by
  induction paths generalizing failures contents r w memo with
  | nil =>
    obtain ⟨rfl, rfl, rfl⟩ := by simpa [sweep] using h
    rfl
  | cons path rest ih =>
    unfold sweep at h ⊢
    rcases hcontent : r.content store path w with ⟨answer, r₁, w₁⟩
    obtain ⟨⟨memo₁, hr₁⟩, hstore₁⟩ := content_then hr hstore hcontent
    rw [content_onDisk hr hstore hcontent]
    rw [hcontent] at h
    cases answer with
    | ok bytes => exact ih hr₁ hstore₁ h
    | error e =>
      by_cases he : e = .cancelled
      · subst he
        obtain ⟨rfl, rfl, rfl⟩ := by simpa using h
        rfl
      · simp only at h ⊢
        exact ih hr₁ hstore₁ h

/-- With another disk the same is read before a run is written. -/
theorem gather_onDisk {root : Path} {result : Except Error (Descriptor × Fields ByteArray)}
    (hr : r.origin = .bucket memo) (hstore : store.SameOn w.disk d)
    (h : r.gather store root w = (result, r', w')) :
    r.gather store root (w.onDisk d) = (result, r', w'.onDisk d) := by
  unfold gather at h ⊢
  -- First the descriptor is read, then what is left of the contents, and neither looks at the disk.
  rcases hdesc : r.descriptor store w with ⟨answer, r₁, w₁⟩
  have hr₁ := (descriptor_hasRead store hr w).1
  have hdisk := (descriptor_reads store r w).calls.disk
  rw [hdesc] at hr₁ hdisk
  obtain ⟨memo₁, hr₁⟩ := hr₁
  rw [descriptor_onDisk hr hstore hdesc]
  rw [hdesc] at h
  cases answer with
  | error e =>
    obtain ⟨rfl, rfl, rfl⟩ := by simpa using h
    rfl
  | ok desc =>
    simp only at h ⊢
    rcases hcontents : r₁.contents store w₁ with ⟨answer, r₂, w₂⟩
    have hsame : r₁.contents store (w₁.onDisk d) = (answer, r₂, w₂.onDisk d) := by
      unfold contents at hcontents ⊢
      split at hcontents
      · obtain ⟨rfl, rfl, rfl⟩ := by simpa using hcontents
        rfl
      · exact sweep_onDisk hr₁ (hdisk ▸ hstore) hcontents
    rw [hsame]
    rw [hcontents] at h
    cases answer with
    | error e =>
      obtain ⟨rfl, rfl, rfl⟩ := by simpa using h
      rfl
    | ok contents =>
      simp only at h ⊢
      cases hesc : escaping? contents with
      | some name =>
        rw [hesc] at h
        obtain ⟨rfl, rfl, rfl⟩ := by simpa using h
        rfl
      | none =>
        rw [hesc] at h
        obtain ⟨rfl, rfl, rfl⟩ := by simpa using h
        rfl

end Run

end RunCache
