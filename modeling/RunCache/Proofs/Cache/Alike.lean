import RunCache.Proofs.Cache.Noted
import RunCache.Proofs.Cache.OnDisk
import RunCache.Proofs.Cache.OwnJob
import RunCache.Proofs.Disk.Alongside

/-! # Writing in trees that agree

    What writing comes to depends on nothing but the areas that the files
    lie in.  Where two trees agree there, the same files are written in both
    or the same one fails, and after cleaning up the trees still agree.

    * **`Writing.file_alike`**, **`Writing.files_alike`**: writing files.
    * **`Alongside.undone`**: cleaning up.
    * **`writeAll_alike`**: both together.
    * **`Run.write_alike`**, **`writeRuns_alike`**: writing runs. -/

namespace RunCache

open Disk (Alongside ChangesOnly)

variable {areas : List Location} {d d' : Disk} {files : List (Path × ByteArray)} {now : Int}

/-- Areas of which none lies in another one. -/
def LieApart (areas : List Location) : Prop := ∀ a ∈ areas, ∀ b ∈ areas, a <+: b → a = b

namespace Writing

variable {x y : Writing} {dir target : Path} {bytes : ByteArray} {a init loc : Location} {s : String}

/-! ## Writing files -/

theorem makeDirs_alike (h : Alongside areas x.disk y.disk) (ha : a ∈ areas) (hdir : dir.IsRooted)
    (htrim : dir.IsTrimmed) (hpre : a <+: dir.names) :
    (y.makeDirs dir).1 = (x.makeDirs dir).1 ∧
      Alongside areas (x.makeDirs dir).2.disk (y.makeDirs dir).2.disk := by
  obtain ⟨hresult, hdisk⟩ := makeDirs_eq h.tree hdir htrim
  obtain ⟨hresult', hdisk'⟩ := makeDirs_eq h.tree' hdir htrim
  obtain ⟨hsame, hmade⟩ := h.makeDirs ha hdir htrim hpre
  rw [hresult, hresult', hdisk, hdisk', hsame]
  exact ⟨rfl, hmade⟩

theorem put_alike {closed : Bool} (h : Alongside areas x.disk y.disk) (ha : a ∈ areas)
    (htarget : target.IsRooted) (htrim : target.IsTrimmed) (hnames : target.names = init ++ [s])
    (hpre : a <+: init) (hdir : x.disk.get? init = some (.dir closed)) :
    (y.put now target bytes).1 = (x.put now target bytes).1 ∧
      Alongside areas (x.put now target bytes).2.disk (y.put now target bytes).2.disk := by
  unfold put
  rcases h.writeFile ha htarget htrim hnames hpre hdir with ⟨f, hx, hy⟩ | ⟨e, e', hx, hy, hwritten⟩
  · rw [hx, hy]
    exact ⟨rfl, h⟩
  · rw [hx, hy]
    exact ⟨rfl, hwritten⟩

/-- A file in an area is written in both trees, or it fails in both for the same reason. -/
theorem file_alike (now : Int) (bytes : ByteArray) (h : Alongside areas x.disk y.disk)
    (htarget : target.LiesIn areas) :
    (y.file now target bytes).1 = (x.file now target bytes).1 ∧
      Alongside areas (x.file now target bytes).2.disk (y.file now target bytes).2.disk := by
  obtain ⟨a, ha, init, s, hnames, hpre⟩ := htarget.inside
  obtain ⟨dir, hparent, hdir, htrim, hdirNames⟩ := htarget.rooted.exists_parent hnames
  obtain ⟨hsame, halong⟩ := makeDirs_alike h ha hdir htrim (hdirNames ▸ hpre)
  unfold file
  simp only [hparent]
  rcases hx : x.makeDirs dir with ⟨result, x₁⟩
  rcases hy : y.makeDirs dir with ⟨result', y₁⟩
  rw [hx, hy] at hsame halong
  obtain rfl : result' = result := hsame
  cases result' with
  | error e => exact ⟨rfl, halong⟩
  | ok u =>
    obtain ⟨closed, hget⟩ := dir_of_makeDirs h.tree hdir htrim hx
    rw [hdirNames] at hget
    exact put_alike halong ha htarget.rooted htarget.trimmed hnames hpre hget

/-- Files in areas are written in both trees up to the same one. -/
theorem files_alike (now : Int) (h : Alongside areas x.disk y.disk)
    (hfiles : ∀ f ∈ files, f.1.LiesIn areas) :
    (y.files now files).1 = (x.files now files).1 ∧
      Alongside areas (x.files now files).2.disk (y.files now files).2.disk := by
  induction files generalizing x y with
  | nil => exact ⟨rfl, h⟩
  | cons f rest ih =>
    obtain ⟨hsame, halong⟩ := file_alike now f.2 h (hfiles f (by simp))
    unfold files
    rcases hx : x.file now f.1 f.2 with ⟨result, x₁⟩
    rcases hy : y.file now f.1 f.2 with ⟨result', y₁⟩
    rw [hx, hy] at hsame halong
    obtain rfl : result' = result := hsame
    cases result' with
    | error e => exact ⟨rfl, halong⟩
    | ok u => exact ih halong fun g hg => hfiles g (List.mem_cons_of_mem f hg)

/-! ## Cleaning up -/

/-- Where something is left in an area that lies in a new directory, a new directory lies in the
    area. The area itself is no new file, since files lie deeper. -/
theorem Underway.exists_inside (h : x.Underway d files) (hd : d.IsTree)
    (hfiles : ∀ f ∈ files, f.1.LiesIn areas) (hapart : LieApart areas) (ha : a ∈ areas)
    (hloc : a <+: loc) (hthere : x.disk.get? loc ≠ none) (hnew : x.InNew d loc) :
    ∃ l closed, a <+: l ∧ l <+: loc ∧ d.get? l = none ∧ x.disk.get? l = some (.dir closed) := by
  obtain ⟨l, closed, hl, hnone, hdir⟩ := hnew
  rcases List.prefix_or_prefix_of_prefix hl hloc with hla | hal
  · have hnone' : d.get? a = none := hd.none_below hnone hla
    cases hget : x.disk.get? a with
    | none => exact absurd (h.tracks.tree.none_below hget hloc) hthere
    | some e =>
      cases e with
      | dir closed => exact ⟨a, closed, List.prefix_rfl, hloc, hnone', hget⟩
      | link target => exact absurd (h.tracks.tree.noLink _ _ hget) (by simp [Entry.isLink])
      | file bytes time =>
        exfalso
        rcases h.tracks.grows.file_before hget with hold | ⟨⟨f, hf, hplace⟩, _⟩
        · rw [hnone'] at hold
          cases hold
        · obtain ⟨b, hb, init, s, hnames, hpre⟩ := (hfiles f hf).inside
          rw [Disk.place_of_isRooted (hfiles f hf).rooted, hnames] at hplace
          have hba : b = a := hapart b hb a ha (hplace ▸ hpre.trans (List.prefix_append init [s]))
          have hlength := (hba ▸ hpre).length_le
          rw [hplace, List.length_append, List.length_singleton] at hlength
          omega
  · exact ⟨l, closed, hal, hl, hnone, hdir⟩

/-- So in an area it is the same new directories that count in two trees that agree there. -/
theorem Underway.inNew (h : x.Underway d files) (hd : d.IsTree)
    (hfiles : ∀ f ∈ files, f.1.LiesIn areas) (hapart : LieApart areas) (ha : a ∈ areas)
    (hbefore : ∀ l, a <+: l → d'.get? l = d.get? l)
    (hafter : ∀ l, a <+: l → y.disk.get? l = x.disk.get? l) (hloc : a <+: loc)
    (hthere : x.disk.get? loc ≠ none) (hnew : x.InNew d loc) : y.InNew d' loc := by
  obtain ⟨l, closed, hal, hl, hnone, hdir⟩ :=
    h.exists_inside hd hfiles hapart ha hloc hthere hnew
  exact ⟨l, closed, hl, (hbefore l hal).trans hnone, (hafter l hal).trans hdir⟩

theorem Underway.undone_none (h : x.Underway d files) (hd : d.IsTree)
    (hnone : x.disk.get? loc = none) : x.undone.get? loc = none := by
  by_cases hnew : x.InNew d loc
  · exact (h.undone_get hd).1 hnew
  · rw [(h.undone_get hd).2 hnew, hnone]

/-- In an area cleaning up leaves the same in both trees. -/
theorem Underway.undone_inside (hx : x.Underway d files) (hy : y.Underway d' files)
    (hbefore : Alongside areas d d') (hafter : Alongside areas x.disk y.disk)
    (hfiles : ∀ f ∈ files, f.1.LiesIn areas) (hapart : LieApart areas) (ha : a ∈ areas)
    (hloc : a <+: loc) : y.undone.get? loc = x.undone.get? loc := by
  have hsame : y.disk.get? loc = x.disk.get? loc := hafter.inside a ha loc hloc
  by_cases hnone : x.disk.get? loc = none
  · rw [hx.undone_none hbefore.tree hnone, hy.undone_none hbefore.tree' (hsame.trans hnone)]
  · have hinside : ∀ l, a <+: l → d'.get? l = d.get? l := hbefore.inside a ha
    have hinside' : ∀ l, a <+: l → y.disk.get? l = x.disk.get? l := hafter.inside a ha
    by_cases hnew : x.InNew d loc
    · have hnew' : y.InNew d' loc :=
        hx.inNew hbefore.tree hfiles hapart ha hinside hinside' hloc hnone hnew
      rw [(hx.undone_get hbefore.tree).1 hnew, (hy.undone_get hbefore.tree').1 hnew']
    · have hnew' : ¬ y.InNew d' loc := by
        intro hnew'
        apply hnew
        exact hy.inNew hbefore.tree' hfiles hapart ha (fun l hl => (hinside l hl).symm)
          (fun l hl => (hinside' l hl).symm) hloc (hsame ▸ hnone) hnew'
      rw [(hx.undone_get hbefore.tree).2 hnew, (hy.undone_get hbefore.tree').2 hnew', hsame]

end Writing

/-- After cleaning up the trees still agree. -/
theorem Disk.Alongside.undone {x y : Writing} (hx : x.Underway d files) (hy : y.Underway d' files)
    (hbefore : Alongside areas d d') (hafter : Alongside areas x.disk y.disk)
    (hfiles : ∀ f ∈ files, f.1.LiesIn areas) (hapart : LieApart areas) :
    Alongside areas x.undone y.undone := by
  have hrooted : ∀ f ∈ files, f.1.IsRooted := fun f hf => (hfiles f hf).rooted
  have hin : ∀ f ∈ files, ∃ a ∈ areas, a <+: f.1.names := fun f hf => (hfiles f hf).below
  have hinside : ∀ a ∈ areas, ∀ loc, a <+: loc → y.undone.get? loc = x.undone.get? loc :=
    fun a ha loc hloc => hx.undone_inside hy hbefore hafter hfiles hapart ha hloc
  refine ⟨(Writing.undone_eq hbefore.tree hx.tracks hx.covers).1,
    (Writing.undone_eq hbefore.tree' hy.tracks hy.covers).1, hinside, ?_⟩
  intro a ha loc hloc
  by_cases hout : ∃ b ∈ areas, b <+: loc
  · obtain ⟨b, hb, hpre⟩ := hout
    exact .inl (hinside b hb loc hpre)
  · -- On the way everything is as it was before.
    have hleft : ∀ l, l <+: loc → x.undone.get? l = d.get? l ∧ y.undone.get? l = d'.get? l := by
      intro l hl
      have hfree : ∀ b ∈ areas, ¬ b <+: l := fun b hb hpre => hout ⟨b, hb, hpre.trans hl⟩
      exact ⟨Writing.undone_outside hbefore.tree hx.tracks hx.covers
          (hx.tracks.changesOnly hrooted hin) hfree,
        Writing.undone_outside hbefore.tree' hy.tracks hy.covers
          (hy.tracks.changesOnly hrooted hin) hfree⟩
    rw [(hleft loc List.prefix_rfl).1, (hleft loc List.prefix_rfl).2,
      (hleft _ (List.dropLast_prefix loc)).1]
    exact hbefore.way a ha loc hloc

/-- Files in areas are all written in two trees that agree there, or they fail in both for the same
    reason. -/
theorem writeAll_alike (now : Int) (h : Alongside areas d d')
    (hfiles : ∀ f ∈ files, f.1.LiesIn areas) (hapart : LieApart areas) :
    (writeAll d' now files).1 = (writeAll d now files).1 ∧
      Alongside areas (writeAll d now files).2 (writeAll d' now files).2 := by
  have hrooted : ∀ f ∈ files, f.1.IsRooted := fun f hf => (hfiles f hf).rooted
  have hx := Writing.files_underway h.tree now hrooted
  have hy := Writing.files_underway h.tree' now hrooted
  obtain ⟨hsame, halong⟩ := Writing.files_alike (x := ⟨d, []⟩) (y := ⟨d', []⟩) now h hfiles
  unfold writeAll
  rcases hwx : (Writing.mk d []).files now files with ⟨result, x⟩
  rcases hwy : (Writing.mk d' []).files now files with ⟨result', y⟩
  rw [hwx] at hx
  rw [hwy] at hy
  rw [hwx, hwy] at hsame halong
  obtain rfl : result' = result := hsame
  cases result' with
  | error e => exact ⟨rfl, .undone hx hy h halong hfiles hapart⟩
  | ok u => exact ⟨rfl, halong⟩

/-! ## Writing runs -/

/-- A store that does not hold what a tree has in some areas: it answers the same where the tree has
    been changed there. -/
def Store.IndependentOf (store : Store) (areas : List Location) (d : Disk) : Prop :=
  ∀ d', d'.IsTree → ChangesOnly areas d d' → store.SameOn d d'

theorem Memory.store_independentOf (m : Memory) (areas : List Location) (d : Disk) :
    m.store.IndependentOf areas d :=
  fun _ _ _ _ => ⟨fun _ => rfl, fun _ => rfl⟩

theorem Service.store_independentOf (s : Service) (areas : List Location) (d : Disk) :
    s.store.IndependentOf areas d :=
  fun _ _ _ _ => ⟨fun _ => rfl, fun _ => rfl⟩

theorem ownAreas_lieApart (root : Path) (job : String) : LieApart (ownAreas root job) := by
  intro a ha b hb hpre
  simp only [ownAreas, List.mem_cons, List.not_mem_nil, or_false] at ha hb
  have hlogs : ObjectName.logsRoot ≠ CachePath.indexRoot := by decide
  rcases ha with rfl | rfl <;> rcases hb with rfl | rfl
  · rfl
  · rw [List.prefix_append_right_inj, List.cons_prefix_cons] at hpre
    exact absurd hpre.1 hlogs
  · rw [List.prefix_append_right_inj, List.cons_prefix_cons] at hpre
    exact absurd hpre.1.symm hlogs
  · rfl

section Runs

variable {store : Store} {root : Path} {job : String} {w w₀ w' : World}

/-- A run is written with the same result where the trees agree in the areas of its files. -/
theorem Run.write_alike {r r' : Run} {memo : Fields ByteArray} {result : Except Error Written}
    (hr : r.origin = .bucket memo) (hstore : store.SameOn w.disk d')
    (h : Alongside areas w.disk d') (hapart : LieApart areas)
    (hfiles : ∀ d contents r₁ w₁, r.gather store root w = (.ok (d, contents), r₁, w₁) →
      ∀ f ∈ r₁.files root d contents, f.1.LiesIn areas)
    (hwrite : r.write store root w = (result, r', w')) :
    ∃ e, r.write store root (w.onDisk d') = (result, r', w'.onDisk e) ∧
      Alongside areas w'.disk e := by
  have hreads := gather_reads store root r w
  rw [write_eq] at hwrite ⊢
  rcases hgather : r.gather store root w with ⟨gathered, r₁, w₁⟩
  rw [gather_onDisk hr hstore hgather]
  rw [hgather] at hwrite hreads
  have hdisk : w₁.disk = w.disk := hreads.calls.disk
  cases gathered with
  | error e =>
    obtain ⟨rfl, rfl, rfl⟩ := by simpa using hwrite
    exact ⟨d', rfl, hdisk ▸ h⟩
  | ok gathered =>
    obtain ⟨desc, contents⟩ := gathered
    -- From here on only the files count, and the same are written on both disks.
    have hlies := hfiles desc contents r₁ w₁ hgather
    obtain ⟨hsame, halong⟩ := writeAll_alike w₁.now (hdisk ▸ h) hlies hapart
    simp only [World.writeAll, World.onDisk_disk, World.onDisk_now] at hwrite ⊢
    rcases hx : writeAll w₁.disk w₁.now (r₁.files root desc contents) with ⟨written, e⟩
    rcases hy : writeAll d' w₁.now (r₁.files root desc contents) with ⟨written', e'⟩
    rw [hx, hy] at hsame halong
    rw [hx] at hwrite
    obtain rfl : written' = written := hsame
    refine ⟨e', ?_⟩
    cases written' with
    | error f =>
      obtain ⟨rfl, rfl, rfl⟩ := by simpa using hwrite
      exact ⟨rfl, halong⟩
    | ok u =>
      obtain ⟨rfl, rfl, rfl⟩ := by simpa using hwrite
      exact ⟨rfl, halong⟩

variable {o : ScanOptions}

/-- The runs of a job are written with the same result where the trees agree in what belongs to the
    job. -/
theorem writeRuns_alike {runs : List Run} {s : Summary} {result : Except Error Summary}
    (hstore : store.ListsInside) (hjob : IsName job) (hroot : root.IsRooted)
    (hanswers : store.IndependentOf areas d) (hown : ownAreas root job ⊆ areas)
    (hruns : ∀ r ∈ runs, r ∈ scannedRuns (scan store o job w₀).1)
    (h : Alongside (ownAreas root job) w.disk d') (hw : ChangesOnly areas d w.disk)
    (hd' : ChangesOnly areas d d') (hwrite : writeRuns store root runs s w = (result, w')) :
    ∃ e, writeRuns store root runs s (w.onDisk d') = (result, w'.onDisk e) ∧
      Alongside (ownAreas root job) w'.disk e := by
  have hwiden : ∀ {d d' : Disk}, ChangesOnly (ownAreas root job) d d' → ChangesOnly areas d d' :=
    fun hchanges => hchanges.widen fun a ha => ⟨a, hown ha, List.prefix_rfl⟩
  induction runs generalizing s w d' with
  | nil =>
    obtain ⟨rfl, rfl⟩ := Prod.mk.inj hwrite
    exact ⟨d', rfl, h⟩
  | cons r runs ih =>
    have hr := hruns r List.mem_cons_self
    have hsame : store.SameOn w.disk d' :=
      (hanswers w.disk h.tree hw).symm.trans (hanswers d' h.tree' hd')
    unfold writeRuns at hwrite ⊢
    rcases hx : r.write store root w with ⟨written, r', w₁⟩
    rw [hx] at hwrite
    obtain ⟨e, hy, halong⟩ := Run.write_alike (scanned_run hstore hjob.2.2.2 hr).2.1 hsame h
      (ownAreas_lieApart root job)
      (fun _ _ _ _ hgather => Run.files_of_gather hstore hjob hroot hr hgather) hx
    rw [hy]
    cases written with
    | error f =>
      obtain ⟨rfl, rfl⟩ := Prod.mk.inj hwrite
      exact ⟨e, rfl, halong⟩
    | ok written =>
      -- What both have changed so far belongs to the job.
      have hw₁ := (Run.write_changes_own hstore hjob hroot h.tree hr hx).2
      have he := (Run.write_changes_own hstore hjob hroot h.tree' hr hy).2
      exact ih (fun t ht => hruns t (List.mem_cons_of_mem r ht)) halong (hw.trans (hwiden hw₁))
        (hd'.trans (hwiden he)) hwrite

/-- With them the whole of what follows a scan, whether that was cut short or not. -/
theorem cacheRuns_alike {runs : List Run} {broken : Option Error} {result : Except Error Summary}
    (hstore : store.ListsInside) (hjob : IsName job) (hroot : root.IsRooted)
    (hanswers : store.IndependentOf areas d) (hown : ownAreas root job ⊆ areas)
    (hruns : ∀ r ∈ runs, r ∈ scannedRuns (scan store o job w₀).1)
    (h : Alongside (ownAreas root job) w.disk d') (hw : ChangesOnly areas d w.disk)
    (hd' : ChangesOnly areas d d') (hcache : cacheRuns store root runs broken w = (result, w')) :
    ∃ e, cacheRuns store root runs broken (w.onDisk d') = (result, w'.onDisk e) ∧
      Alongside (ownAreas root job) w'.disk e := by
  unfold cacheRuns at hcache ⊢
  rcases hx : writeRuns store root runs ⟨runs.length, 0, 0⟩ w with ⟨written, w₁⟩
  obtain ⟨e, hy, halong⟩ :=
    writeRuns_alike hstore hjob hroot hanswers hown hruns h hw hd' hx
  rw [hy]
  rw [hx] at hcache
  cases written with
  | error f =>
    obtain ⟨rfl, rfl⟩ := Prod.mk.inj hcache
    exact ⟨e, rfl, halong⟩
  | ok s =>
    cases broken with
    | some f =>
      obtain ⟨rfl, rfl⟩ := Prod.mk.inj hcache
      exact ⟨e, rfl, halong⟩
    | none =>
      obtain ⟨rfl, rfl⟩ := Prod.mk.inj hcache
      exact ⟨e, rfl, halong⟩

/-- A pass comes to the same where the trees agree in what belongs to its job and it scans with the
    same options. -/
theorem runPass_alike {o : PassOptions} {result : Except Error Summary}
    (hstore : store.ListsInside) (hjob : IsName o.job) (hroot : o.workingDir.IsRooted)
    (hanswers : store.IndependentOf areas d) (hown : ownAreas o.workingDir o.job ⊆ areas)
    (h : Alongside (ownAreas o.workingDir o.job) w.disk d') (hw : ChangesOnly areas d w.disk)
    (hd' : ChangesOnly areas d d') (hoptions : o.scanOptions d' = o.scanOptions w.disk)
    (hpass : runPass store o w = (result, w')) :
    ∃ e, runPass store o (w.onDisk d') = (result, w'.onDisk e) ∧
      Alongside (ownAreas o.workingDir o.job) w'.disk e := by
  have hsame : store.SameOn w.disk d' :=
    (hanswers w.disk h.tree hw).symm.trans (hanswers d' h.tree' hd')
  unfold runPass at hpass ⊢
  rw [World.onDisk_disk, hoptions]
  cases hread : o.scanOptions w.disk with
  | error e =>
    rw [hread] at hpass
    obtain ⟨rfl, rfl⟩ := Prod.mk.inj hpass
    exact ⟨d', rfl, h⟩
  | ok options =>
    rw [hread] at hpass
    simp only at hpass ⊢
    rcases hscan : scan store options o.job w with ⟨found, w₁⟩
    rw [scan_onDisk hsame hscan]
    rw [hscan] at hpass
    -- The scan leaves the disk alone.
    have hdisk : w₁.disk = w.disk := by
      obtain ⟨_, w₂, heq, _, hcalls⟩ := scan_eq store options o.job w
      rw [hscan] at heq
      obtain ⟨_, rfl⟩ := Prod.mk.inj heq
      exact hcalls.disk
    rw [← hdisk] at h hw
    have hfound : ∀ r ∈ scannedRuns found, r ∈ scannedRuns (scan store options o.job w).1 := by
      intro r hr
      rwa [hscan]
    cases found with
    | ok runs => exact cacheRuns_alike hstore hjob hroot hanswers hown hfound h hw hd' hpass
    | error e =>
      simp only at hpass ⊢
      split at hpass
      · next hcancelled =>
        obtain ⟨rfl, rfl⟩ := Prod.mk.inj hpass
        rw [if_pos hcancelled]
        exact ⟨d', rfl, h⟩
      · next hcancelled =>
        rw [if_neg hcancelled]
        exact cacheRuns_alike hstore hjob hroot hanswers hown hfound h hw hd' hpass

end Runs

end RunCache
