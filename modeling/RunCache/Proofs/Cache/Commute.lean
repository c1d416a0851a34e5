import RunCache.Proofs.Cache.Alike
import RunCache.Proofs.Cache.Entered

/-! # Passes of different jobs

    Two jobs share the directories above theirs.  Either pass may make these,
    and one that fails removes those it made.  Still each pass comes to the
    same in either order, and so does the tree that both leave.

    * **`cachedIds_congr`**: the runs found in a cache depend only on the
      directory of the job.
    * **`Entered.alongside`**: after a pass the tree is as it was for the
      other job.
    * **`Disk.sameTree_of_orders`**: trees after both passes.
    * **`passes_commute`**: passes of different jobs. -/

namespace RunCache

open Disk (Alongside Entered SameTree)

variable {d d' : Disk} {root : Path} {job : String}

/-! ## The runs in a cache -/

/-- A disk whose names are plain, as the names in a directory are. -/
def Disk.IsPlain (d : Disk) : Prop := ∀ loc e, d.get? loc = some e → ∀ s ∈ loc, IsName s

/-- Which runs of a job are cached depends on nothing but the directory of the job. -/
theorem cachedIds_congr (h : d.IsTree) (h' : d'.IsTree) (hplain : d.IsPlain)
    (hroot : root.IsRooted) (hjob : IsName job)
    (hinside : ∀ loc, root.names ++ [ObjectName.logsRoot, job] <+: loc → d'.get? loc = d.get? loc)
    (hchildren : d'.children (root.names ++ [ObjectName.logsRoot, job]) =
      d.children (root.names ++ [ObjectName.logsRoot, job])) :
    cachedIds d' root job = cachedIds d root job := by
  have hsegs := CachePath.isName_of_mem_job hjob
  have hrooted : (CachePath.ofJob root job).IsRooted := by
    rw [CachePath.ofJob_eq]
    exact hroot.foldl_join hsegs
  have hnames : (CachePath.ofJob root job).names = root.names ++ [ObjectName.logsRoot, job] := by
    rw [CachePath.ofJob_eq, Path.names_foldl_join hsegs]
  have htrim : (CachePath.ofJob root job).IsTrimmed := Path.isTrimmed_join hjob
  rw [← hnames] at hinside hchildren
  -- A directory of the job has a descriptor in both trees or in neither.
  have hrun : ∀ child ∈ d.children (CachePath.ofJob root job).names,
      isCachedRun d' (CachePath.ofJob root job) child =
        isCachedRun d (CachePath.ofJob root job) child := by
    intro child hchild
    have hname : IsName child.1 :=
      hplain _ _ ((Disk.mem_children h.once).mp hchild) child.1 (by simp)
    have hdir := hrooted.join hname
    unfold isCachedRun
    rw [h.isFile_congr h' (hdir.join CachePath.isName_descriptorFile)
      (Path.isTrimmed_join CachePath.isName_descriptorFile)]
    apply hinside
    rw [Path.names_join CachePath.isName_descriptorFile, Path.names_join hname, List.append_assoc]
    exact List.prefix_append _ _
  have hread : ∀ d : Disk, d.IsTree → d.isDir (CachePath.ofJob root job) = true →
      d.readDir (CachePath.ofJob root job) =
        .ok (d.children (CachePath.ofJob root job).names) := by
    intro d hd hdir
    obtain ⟨loc, closed, hstat⟩ := Disk.stat_of_isDir hdir
    rw [Disk.readDir, hstat, (hd.stat_ok hstat).1, Disk.place_of_isRooted hrooted]
  have hsame := h.isDir_congr h' hrooted htrim (hinside _ List.prefix_rfl)
  unfold cachedIds
  simp only [hsame]
  cases hdir : d.isDir (CachePath.ofJob root job) with
  | false => rfl
  | true =>
    rw [hread d h hdir, hread d' h' (hsame.trans hdir), hchildren]
    simp only [List.filter_congr hrun]

/-- So does the mark at which a pass resumes. -/
theorem PassOptions.scanOptions_congr {o : PassOptions}
    (h : cachedIds d' o.workingDir o.job = cachedIds d o.workingDir o.job) :
    o.scanOptions d' = o.scanOptions d := by
  unfold scanOptions newestCached?
  rw [h]

/-! ## Two sets of areas -/

/-- After writing in some areas the tree is as it was for others, and on the way to these there may
    be directories that could be made before. -/
theorem Disk.Entered.alongside {areas others : List Location} (h : Entered areas d d')
    (hd : d.IsTree) (hapart : ∀ a ∈ others, ∀ b ∈ areas, ¬ a <+: b ∧ ¬ b <+: a) :
    Alongside others d d' := by
  have hout : ∀ a ∈ others, ∀ loc, (a <+: loc ∨ loc <+: a) → ∀ b ∈ areas, ¬ b <+: loc := by
    intro a ha loc hor b hb hpre
    rcases hor with hal | hla
    · rcases List.prefix_or_prefix_of_prefix hal hpre with hab | hba
      · exact (hapart a ha b hb).1 hab
      · exact (hapart a ha b hb).2 hba
    · exact (hapart a ha b hb).2 (hpre.trans hla)
  refine ⟨hd, h.tree, ?_, ?_⟩
  · intro a ha loc hal
    rcases h.changes loc (hout a ha loc (.inl hal)) with hsame | ⟨⟨b, hb, hlb⟩, _⟩
    · exact hsame
    · exact absurd (hal.trans hlb) (hapart a ha b hb).1
  · intro a ha loc hla
    have hfree := hout a ha loc (.inr hla)
    rcases h.changes loc hfree with hsame | ⟨_, hnone, hdir⟩
    · exact .inl hsame
    · exact .inr ⟨hnone, hdir, (h.made loc hfree hnone (by simp [hdir])).1⟩

/-- What is on the way to one of two sets of areas after writing in both is there as well when they
    have been written in the other order. -/
theorem Disk.Entered.there {areas others : List Location} {dA dB dAB dBA : Disk} {loc : Location}
    (hA : Entered areas d dA) (hAB : Entered others dA dAB) (hBA : Entered areas dB dBA)
    (hareas : Alongside areas dA dBA) (hothers : Alongside others dB dAB)
    (hout : ∀ a ∈ areas ++ others, ¬ a <+: loc) (hnone : d.get? loc = none)
    (hthere : dAB.get? loc ≠ none) : dBA.get? loc ≠ none := by
  intro hgone
  by_cases hnone' : dA.get? loc = none
  · obtain ⟨_, b, hb, hlb, hthere'⟩ :=
      hAB.made loc (fun b hb => hout b (List.mem_append_right _ hb)) hnone' hthere
    rw [hothers.inside b hb b List.prefix_rfl] at hthere'
    exact hthere' (hBA.kept b (hBA.tree.none_below hgone hlb))
  · obtain ⟨_, a, ha, hla, hthere'⟩ :=
      hA.made loc (fun a ha => hout a (List.mem_append_left _ ha)) hnone hnone'
    rw [← hareas.inside a ha a List.prefix_rfl] at hthere'
    exact hthere' (hBA.tree.none_below hgone hla)

/-- A tree in which two sets of areas are written is the same in either order, if what is written in
    each does not depend on the other one. -/
theorem Disk.sameTree_of_orders {areas others : List Location} {dA dB dAB dBA : Disk}
    (hapart : ∀ a ∈ areas, ∀ b ∈ others, ¬ a <+: b ∧ ¬ b <+: a)
    (hA : Entered areas d dA) (hAB : Entered others dA dAB) (hB : Entered others d dB)
    (hBA : Entered areas dB dBA) (hareas : Alongside areas dA dBA)
    (hothers : Alongside others dB dAB) : SameTree dAB dBA := by
  have hkeepA : Alongside areas dA dAB := hAB.alongside hA.tree hapart
  have hkeepB : Alongside others dB dBA :=
    hBA.alongside hB.tree fun b hb a ha => (hapart a ha b hb).symm
  intro loc
  by_cases hinA : ∃ a ∈ areas, a <+: loc
  · obtain ⟨a, ha, hpre⟩ := hinA
    rw [hareas.inside a ha loc hpre, hkeepA.inside a ha loc hpre]
  · by_cases hinB : ∃ b ∈ others, b <+: loc
    · obtain ⟨b, hb, hpre⟩ := hinB
      rw [hkeepB.inside b hb loc hpre, hothers.inside b hb loc hpre]
    · have hout : ∀ a ∈ areas ++ others, ¬ a <+: loc := by
        intro a ha hpre
        rcases List.mem_append.mp ha with ha | ha
        · exact hinA ⟨a, ha, hpre⟩
        · exact hinB ⟨a, ha, hpre⟩
      have hleft : ∀ a ∈ areas, ∃ b ∈ areas ++ others, b <+: a :=
        fun a ha => ⟨a, List.mem_append_left _ ha, List.prefix_rfl⟩
      have hright : ∀ b ∈ others, ∃ a ∈ areas ++ others, a <+: b :=
        fun b hb => ⟨b, List.mem_append_right _ hb, List.prefix_rfl⟩
      have hchangesAB := (hA.changes.widen hleft).trans (hAB.changes.widen hright)
      have hchangesBA := (hB.changes.widen hright).trans (hBA.changes.widen hleft)
      -- Outside both, what one order has made the other one has made, too.
      rcases hchangesAB loc hout with hsame | ⟨_, hnone, hdir⟩ <;>
        rcases hchangesBA loc hout with hsame' | ⟨_, hnone', hdir'⟩
      · rw [hsame, hsame']
      · have hout' : ∀ b ∈ others ++ areas, ¬ b <+: loc :=
          fun b hb => hout b (by rwa [List.mem_append, or_comm, ← List.mem_append])
        have hthere : dAB.get? loc ≠ none :=
          hB.there hBA hAB hothers hareas hout' hnone' (by simp [hdir'])
        exact absurd (hsame.trans hnone') hthere
      · have hthere : dBA.get? loc ≠ none :=
          hA.there hAB hBA hareas hothers hout hnone (by simp [hdir])
        exact absurd (hsame'.trans hnone) hthere
      · rw [hdir, hdir']

/-! ## Passes -/

theorem prefix_area_iff {names : Location} {x y job job' : String} :
    names ++ [x, job] <+: names ++ [y, job'] ↔ x = y ∧ job = job' := by
  rw [List.prefix_append_right_inj, List.cons_prefix_cons, List.cons_prefix_cons]
  simp

/-- What belongs to one job lies apart from what belongs to another one. -/
theorem ownAreas_apart (root : Path) {job' : String} (hjobs : job ≠ job') :
    ∀ a ∈ ownAreas root job, ∀ b ∈ ownAreas root job', ¬ a <+: b ∧ ¬ b <+: a := by
  intro a ha b hb
  simp only [ownAreas, List.mem_cons, List.not_mem_nil, or_false] at ha hb
  rcases ha with rfl | rfl <;> rcases hb with rfl | rfl <;>
    exact ⟨fun h => hjobs (prefix_area_iff.mp h).2, fun h => hjobs (prefix_area_iff.mp h).2.symm⟩

/-- What a pass over a disk returns, and the disk that it leaves. -/
def passOn (store : Store) (o : PassOptions) (w : World) (d : Disk) :
    Except Error Summary × Disk :=
  ((runPass store o (w.onDisk d)).1, (runPass store o (w.onDisk d)).2.disk)

section Passes

variable {store storeA storeB : Store} {o oA oB : PassOptions} {w wA wB : World}

theorem passOn_entered (hstore : store.ListsInside) (hjob : IsName o.job)
    (hshared : o.workingDir = root) (hroot : root.IsRooted) (hd : d.IsTree) :
    Entered (ownAreas root o.job) d (passOn store o w d).2 := by
  subst hshared
  exact runPass_entered hstore hjob hroot hd (w := w.onDisk d) rfl

/-- After a pass of another job, a pass comes to the same as before. -/
theorem passOn_alike {areas : List Location} {other : String} (hstore : store.ListsInside)
    (hjob : IsName o.job) (hjobs : o.job ≠ other) (hshared : o.workingDir = root)
    (hroot : root.IsRooted) (hd : d.IsTree) (hplain : d.IsPlain)
    (hanswers : store.IndependentOf areas d) (hown : ownAreas root o.job ⊆ areas)
    (hother : ownAreas root other ⊆ areas) (h : Entered (ownAreas root other) d d') :
    (passOn store o w d').1 = (passOn store o w d).1 ∧
      Alongside (ownAreas root o.job) (passOn store o w d).2 (passOn store o w d').2 := by
  subst hshared
  have hapart := ownAreas_apart o.workingDir hjobs
  have halong := h.alongside hd hapart
  have hlogs : o.workingDir.names ++ [ObjectName.logsRoot, o.job] ∈ ownAreas o.workingDir o.job :=
    List.mem_cons_self
  have hoptions : o.scanOptions d' = o.scanOptions d := by
    apply PassOptions.scanOptions_congr
    apply cachedIds_congr hd h.tree hplain hroot hjob (halong.inside _ hlogs)
    apply Disk.children_of_within List.prefix_rfl
    exact h.within _ (by simp) fun b hb => (hapart _ hlogs b hb).symm
  have hchanges : Disk.ChangesOnly areas d d' :=
    h.changes.widen fun b hb => ⟨b, hother hb, List.prefix_rfl⟩
  rcases hpass : runPass store o (w.onDisk d) with ⟨result, w'⟩
  obtain ⟨e, hpass', hend⟩ := runPass_alike (w := w.onDisk d) hstore hjob hroot hanswers
    hown halong (.refl areas d) hchanges hoptions hpass
  rw [World.onDisk_onDisk] at hpass'
  rw [passOn, passOn, hpass, hpass']
  exact ⟨rfl, hend⟩

/-- **Passes of different jobs commute.** Whatever they cache, from whatever buckets and with
    whatever options, each of them has the same result whether the other one has run before or not,
    failed or not, and the tree that both leave is the same in either order. The buckets must not be
    part of what the passes write. -/
theorem passes_commute (hstoreA : storeA.ListsInside) (hstoreB : storeB.ListsInside)
    (hjobA : IsName oA.job) (hjobB : IsName oB.job) (hjobs : oA.job ≠ oB.job)
    (hroot : oA.workingDir.IsRooted) (hshared : oB.workingDir = oA.workingDir) (hd : d.IsTree)
    (hplain : d.IsPlain)
    (hanswersA : storeA.IndependentOf
      (ownAreas oA.workingDir oA.job ++ ownAreas oA.workingDir oB.job) d)
    (hanswersB : storeB.IndependentOf
      (ownAreas oA.workingDir oA.job ++ ownAreas oA.workingDir oB.job) d) :
    (passOn storeB oB wB (passOn storeA oA wA d).2).1 = (passOn storeB oB wB d).1 ∧
      (passOn storeA oA wA (passOn storeB oB wB d).2).1 = (passOn storeA oA wA d).1 ∧
      SameTree (passOn storeB oB wB (passOn storeA oA wA d).2).2
        (passOn storeA oA wA (passOn storeB oB wB d).2).2 := by
  have hA : Entered (ownAreas oA.workingDir oA.job) d (passOn storeA oA wA d).2 :=
    passOn_entered hstoreA hjobA rfl hroot hd
  have hB : Entered (ownAreas oA.workingDir oB.job) d (passOn storeB oB wB d).2 :=
    passOn_entered hstoreB hjobB hshared hroot hd
  have hAB : Entered (ownAreas oA.workingDir oB.job) (passOn storeA oA wA d).2
      (passOn storeB oB wB (passOn storeA oA wA d).2).2 :=
    passOn_entered hstoreB hjobB hshared hroot hA.tree
  have hBA : Entered (ownAreas oA.workingDir oA.job) (passOn storeB oB wB d).2
      (passOn storeA oA wA (passOn storeB oB wB d).2).2 :=
    passOn_entered hstoreA hjobA rfl hroot hB.tree
  obtain ⟨hresultA, halongA⟩ := passOn_alike (w := wA) hstoreA hjobA hjobs rfl hroot hd hplain
    hanswersA (List.subset_append_left _ _) (List.subset_append_right _ _) hB
  obtain ⟨hresultB, halongB⟩ := passOn_alike (w := wB) hstoreB hjobB hjobs.symm hshared hroot hd
    hplain hanswersB (List.subset_append_right _ _) (List.subset_append_left _ _) hA
  have hsame := Disk.sameTree_of_orders (ownAreas_apart _ hjobs) hA hAB hB hBA halongA halongB
  exact ⟨hresultB, hresultA, hsame⟩

end Passes

/-- A bucket with a run of one job, and one of another job in which a test result lies below another
    test result, so that it cannot be written. -/
def sharedBucket : Memory where
  objects :=
    [("logs/a/1/prowjob.json", ⟨Run.labelledText.toUTF8, 0⟩),
     ("logs/b/1/junit.xml", ⟨"<testsuites/>".toUTF8, 0⟩),
     ("logs/b/1/junit.xml/junit.xml", ⟨"<testsuites/>".toUTF8, 0⟩),
     ("logs/b/1/prowjob.json", ⟨Run.labelledText.toUTF8, 0⟩)]

/-- A pass over that bucket that resumes behind what is cached. -/
def sharedPass (job : String) : PassOptions where
  job := job
  workingDir := ⟨"/work"⟩
  resume := true

/-- The pass that fails removes the directory of the cache again where it comes first, and the other
    pass makes it anew. -/
theorem passes_commute_sharedBucket :
    (passOn sharedBucket.store (sharedPass "a") { disk := {} } {}).1.isOk = true ∧
      (passOn sharedBucket.store (sharedPass "b") { disk := {} } {}).1.isOk = false ∧
      ((passOn sharedBucket.store (sharedPass "b") { disk := {} } {}).2.get? ["work"]).isNone = true ∧
      (passOn sharedBucket.store (sharedPass "b") { disk := {} }
          (passOn sharedBucket.store (sharedPass "a") { disk := {} } {}).2).1 =
        (passOn sharedBucket.store (sharedPass "b") { disk := {} } {}).1 ∧
      (passOn sharedBucket.store (sharedPass "a") { disk := {} }
          (passOn sharedBucket.store (sharedPass "b") { disk := {} } {}).2).1 =
        (passOn sharedBucket.store (sharedPass "a") { disk := {} } {}).1 ∧
      SameTree
        (passOn sharedBucket.store (sharedPass "b") { disk := {} }
          (passOn sharedBucket.store (sharedPass "a") { disk := {} } {}).2).2
        (passOn sharedBucket.store (sharedPass "a") { disk := {} }
          (passOn sharedBucket.store (sharedPass "b") { disk := {} } {}).2).2 := by
  have hplain : ({} : Disk).IsPlain := by
    intro loc e hget s hs
    rw [Disk.get_of_ne_nil (List.ne_nil_of_mem hs)] at hget
    cases hget
  have hroot : (sharedPass "a").workingDir.IsRooted := ⟨by decide, by decide⟩
  refine ⟨by decide +kernel, by decide +kernel, by decide +kernel, ?_⟩
  generalize ({ disk := {} } : World) = w
  exact passes_commute sharedBucket.store_listsInside sharedBucket.store_listsInside (by decide)
    (by decide) (by decide) hroot rfl Disk.IsTree.empty hplain
    (sharedBucket.store_independentOf _ _) (sharedBucket.store_independentOf _ _)

end RunCache
