import RunCache.Bucket.Memory
import RunCache.Proofs.Cache.Contents
import RunCache.Proofs.Cache.Files
import RunCache.Proofs.Cache.Writing

/-! # Failed writes

    A write that fails removes the directories it made and nothing else.

    * **`Disk.Restored`**: what is left of a tree then: all that was there
      before, and new files only in directories that were there before.
    * **`writeAll_restored`**: files that could not all be written.
    * **`Run.targets?`**: the files that writing a run comes to write.
    * **`Run.failed_write_restored`**: a run that could not be written. -/

namespace RunCache

/-! ## What is left -/

/-- A tree after some files could not all be written: nothing is lost, only those files may have
    other bytes, and what is new is one of them in a directory that was there before. -/
structure Disk.Restored (targets : List Path) (d d' : Disk) : Prop where
  dirs : ∀ loc closed, d.get? loc = some (.dir closed) → d'.get? loc = some (.dir closed)
  files : ∀ loc bytes time, d.get? loc = some (.file bytes time) →
    ∃ bytes time, d'.get? loc = some (.file bytes time)
  others : ∀ loc e, d.get? loc = some e → (∀ t ∈ targets, d.place t ≠ loc) → d'.get? loc = some e
  new : ∀ loc e, d.get? loc = none → d'.get? loc = some e →
    e.isFile = true ∧ (∃ t ∈ targets, d.place t = loc) ∧
      ∃ closed, d.get? loc.dropLast = some (.dir closed)

/-- Where no target lies in a directory that was there before, everything is as it was. -/
theorem Disk.Restored.sameTree {targets : List Path} {d d' : Disk} (h : Restored targets d d')
    (hd : d.IsTree)
    (hparents : ∀ t ∈ targets, ∀ closed, d.get? (d.place t).dropLast ≠ some (.dir closed)) :
    SameTree d d' := by
  -- A target that was there before would lie in a directory that was.
  have hfree : ∀ loc e, d.get? loc = some e → loc ≠ [] → ∀ t ∈ targets, d.place t ≠ loc := by
    rintro loc e hget hne t ht rfl
    have hlast := List.dropLast_append_getLast hne
    rw [← hlast] at hget
    obtain ⟨closed, hdir⟩ := hd.inDir _ _ _ hget
    exact hparents t ht closed hdir
  intro loc
  cases hget : d.get? loc with
  | none =>
    cases hget' : d'.get? loc with
    | none => rfl
    | some e =>
      obtain ⟨_, ⟨t, ht, rfl⟩, closed, hdir⟩ := h.new loc e hget hget'
      exact absurd hdir (hparents t ht closed)
  | some e =>
    by_cases hnil : loc = []
    · subst hnil
      simpa using hget
    · exact h.others loc e hget (hfree loc e hget hnil)

/-- Writing files that cannot all be written removes what was made for them. -/
theorem writeAll_restored {d d' : Disk} {now : Int} {files : List (Path × ByteArray)} {e : Error}
    (hd : d.IsTree) (hrooted : ∀ f ∈ files, f.1.IsRooted)
    (h : writeAll d now files = (.error e, d')) : Disk.Restored (files.map (·.1)) d d' := by
  have htracks := Writing.files_tracks hd now files
  have hcovers := Writing.files_covers hd now hrooted
  unfold writeAll at h
  split at h
  · cases h
  · next e' x hfiles =>
    rw [hfiles] at htracks hcovers
    obtain ⟨_, rfl⟩ := Prod.mk.inj h
    obtain ⟨_, hkept, hleft⟩ := Writing.undone_spec hd htracks hcovers
    obtain ⟨htree, hgrows⟩ := htracks
    refine ⟨?_, ?_, ?_, ?_⟩
    · intro loc closed hget
      rw [hkept loc _ hget, hgrows.dir hget]
    · intro loc bytes time hget
      rw [hkept loc _ hget]
      exact hgrows.file hget
    · intro loc e hget hnot
      rw [hkept loc _ hget]
      refine hgrows.kept hget ?_
      rintro ⟨f, hf, hplace⟩
      exact hnot f.1 (List.mem_map_of_mem hf) hplace.symm
    · intro loc e hnone hget
      obtain ⟨hget, hnot⟩ := hleft loc e hget
      -- Something new is a directory, which is removed again, or one of the files.
      rcases hgrows.new hnone with hnone' | ⟨_, hdir⟩ | ⟨⟨f, hf, hplace⟩, bytes, time, hfile⟩
      · rw [hget] at hnone'
        cases hnone'
      · obtain ⟨p, hp, hpre⟩ := hcovers.covered loc _ hdir hnone
        exact absurd hpre (hnot p hp)
      · rw [hget] at hfile
        obtain rfl := Option.some.inj hfile
        refine ⟨rfl, ⟨f.1, List.mem_map_of_mem hf, hplace.symm⟩, ?_⟩
        have hne : loc ≠ [] := by
          rintro rfl
          cases hnone
        rw [← List.dropLast_append_getLast hne] at hget
        obtain ⟨closed, hparent⟩ := htree.inDir _ _ _ hget
        -- The directory of a new file is not new, or the file would have been removed with it.
        rcases hgrows.dir_before hparent with hold | ⟨_, hnew⟩
        · exact ⟨closed, hold⟩
        · obtain ⟨p, hp, hpre⟩ := hcovers.covered _ _ hparent hnew
          exact absurd (hpre.trans (List.dropLast_prefix loc)) (hnot p hp)

/-! ## Runs -/

namespace Run

/-- The files that writing a run comes to write; none where it fails before the first of them. -/
def targets? (store : Store) (root : Path) (r : Run) (w : World) : Option (List Path) :=
  match r.gather store root w with
  | (.error _, _, _) => none
  | (.ok (d, contents), r, _) => some ((r.files root d contents).map (·.1))

/-- A write that fails cleans up after itself: where it fails before the first file the disk is as
    it was, and else its tree is restored. In particular it is as it was where no file was to be
    written in a directory that was there. -/
theorem failed_write_restored (store : Store) {root : Path} {r r' : Run} {w w' : World} {e : Error}
    (hd : w.disk.IsTree) (hroot : root.IsRooted) (hjob : IsName r.job)
    (h : r.write store root w = (.error e, r', w')) :
    match r.targets? store root w with
    | none => w'.disk = w.disk
    | some targets =>
      Disk.Restored targets w.disk w'.disk ∧
        ((∀ t ∈ targets, ∀ closed,
            w.disk.get? (w.disk.place t).dropLast ≠ some (.dir closed)) →
          Disk.SameTree w.disk w'.disk) := by
  have hreads := gather_reads store root r w
  rw [write_eq] at h
  unfold targets?
  rcases hgather : r.gather store root w with ⟨result, r₁, w₁⟩
  rw [hgather] at hreads h
  have hdisk : w₁.disk = w.disk := hreads.calls.disk
  cases result with
  | error e₁ =>
    obtain ⟨_, _, rfl⟩ := by simpa using h
    exact hdisk
  | ok gathered =>
    obtain ⟨d, contents⟩ := gathered
    -- Only the writing itself can fail from here on.
    have hjob₁ : IsName r₁.job := hreads.job ▸ hjob
    simp only at h ⊢
    split at h
    · next e₂ w₂ hwrite =>
      obtain ⟨_, _, rfl⟩ := by simpa using h
      have hrestored := writeAll_restored (hdisk ▸ hd)
        (files_isRooted hroot hjob₁ (gather_stays hgather)) (World.writeAll_cases hwrite).1
      rw [hdisk] at hrestored
      exact ⟨hrestored, hrestored.sameTree hd⟩
    · cases (Prod.mk.inj h).1

/-! ### A blocked index -/

/-- A directory in which a file stands in the way of the by-name index. -/
def blockedDisk : Disk :=
  (({} : Disk).put ["work"] (.dir false)).put ["work", "by-name"] (.file ⟨#[]⟩ 0)

/-- The descriptor of a run that is to be found in the by-name index. -/
def labelledText : String :=
  "\x7b\"metadata\":\x7b\"name\":\"run\"," ++
    "\"labels\":\x7b\"release.openshift.io/analysis\":\"label\"\x7d\x7d\x7d"

/-- A bucket with that descriptor. -/
def labelledRun : Memory where
  objects := [("logs/job/1/prowjob.json", ⟨labelledText.toUTF8, 0⟩)]

theorem blockedDisk_isTree : blockedDisk.IsTree := by
  have hroot : ∃ closed, ({} : Disk).get? [] = some (.dir closed) := ⟨false, rfl⟩
  have hwork : (({} : Disk).put ([] ++ ["work"]) (.dir false)).IsTree :=
    Disk.IsTree.empty.put_new hroot rfl (by decide) rfl
  have hdir : ∃ closed, (({} : Disk).put ["work"] (.dir false)).get? ["work"] =
      some (.dir closed) := ⟨false, rfl⟩
  show (Disk.put _ (["work"] ++ ["by-name"]) (.file ⟨#[]⟩ 0)).IsTree
  exact hwork.put_new hdir rfl (by decide) rfl

theorem failed_write_restored_blocked_index :
    ∃ e r' w' targets,
      Run.write labelledRun.store ⟨"/work"⟩
        { job := "job", id := "1", descriptorPath := some "logs/job/1/prowjob.json" }
        { disk := blockedDisk } = (.error e, r', w') ∧
      Disk.Restored targets blockedDisk w'.disk := by
  generalize hrun : Run.mk "job" "1" (some "logs/job/1/prowjob.json") [] (.bucket []) = r
  generalize hw : ({ disk := blockedDisk } : World) = w
  have hfails : (r.write labelledRun.store ⟨"/work"⟩ w).1.isOk = false := by
    subst hrun hw
    decide +kernel
  have hbegun : (r.targets? labelledRun.store ⟨"/work"⟩ w).isSome = true := by
    subst hrun hw
    decide +kernel
  obtain ⟨targets, htargets⟩ := Option.isSome_iff_exists.mp hbegun
  have hroot : Path.IsRooted ⟨"/work"⟩ := ⟨by decide, by decide⟩
  cases hwrite : r.write labelledRun.store ⟨"/work"⟩ w with
  | mk result rest =>
    obtain ⟨r', w'⟩ := rest
    cases result with
    | ok written =>
      rw [hwrite] at hfails
      cases hfails
    | error e =>
      have hleft := failed_write_restored labelledRun.store (hw ▸ blockedDisk_isTree) hroot
        (by subst hrun; decide) hwrite
      rw [htargets] at hleft
      subst hw
      exact ⟨e, r', w', targets, rfl, hleft.1⟩

end Run

end RunCache
