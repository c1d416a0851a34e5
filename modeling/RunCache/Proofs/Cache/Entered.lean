import RunCache.Proofs.Cache.OwnJob
import RunCache.Proofs.Cache.Written
import RunCache.Proofs.Disk.Within

/-! # What writing in some areas leaves of the rest

    Outside the areas of its files writing leaves everything as it is, but
    for directories on the way to an area that is there afterwards.

    * **`Disk.Entered`**: a tree that has been written to in some areas.
    * **`writeAll_entered`**: writing files, whether all could be written
      or not.
    * **`runPass_entered`**: a pass. -/

namespace RunCache

open Disk (ChangesOnly NewInOpen)

variable {areas : List Location} {d d' d'' : Disk} {files : List (Path × ByteArray)} {now : Int}

/-- A tree after writing in some areas. Nothing has gone; outside the areas only directories are new,
    in directories that were open, on the way to an area that is there by now; and what lies beside
    the areas is still held in the same order. -/
structure Disk.Entered (areas : List Location) (d d' : Disk) : Prop where
  tree : d'.IsTree
  changes : ChangesOnly areas d d'
  kept : ∀ loc, d'.get? loc = none → d.get? loc = none
  made : ∀ loc, (∀ a ∈ areas, ¬ a <+: loc) → d.get? loc = none → d'.get? loc ≠ none →
    d.get? loc.dropLast ≠ some (.dir true) ∧ ∃ a ∈ areas, loc <+: a ∧ d'.get? a ≠ none
  within : ∀ b, b ≠ [] → (∀ a ∈ areas, ¬ a <+: b ∧ ¬ b <+: a) → d'.within b = d.within b

namespace Disk.Entered

theorem refl (h : d.IsTree) : Entered areas d d :=
  ⟨h, .refl areas d, fun _ hnone => hnone, fun _ _ hnone hthere => absurd hnone hthere,
    fun _ _ _ => rfl⟩

theorem trans (h : Entered areas d d') (h' : Entered areas d' d'') : Entered areas d d'' := by
  refine ⟨h'.tree, h.changes.trans h'.changes, ?_, ?_, ?_⟩
  · intro loc hnone
    exact h.kept loc (h'.kept loc hnone)
  · intro loc hout hnone hthere
    by_cases hnone' : d'.get? loc = none
    · obtain ⟨hopen, harea⟩ := h'.made loc hout hnone' hthere
      refine ⟨?_, harea⟩
      intro hclosed
      -- A directory that was closed is closed still.
      have hout' : ∀ a ∈ areas, ¬ a <+: loc.dropLast :=
        fun a ha hpre => hout a ha (hpre.trans (List.dropLast_prefix loc))
      rcases h.changes _ hout' with hsame | ⟨_, hmissing, _⟩
      · exact hopen (hsame.trans hclosed)
      · rw [hclosed] at hmissing
        cases hmissing
    · obtain ⟨hopen, a, ha, hloc, hthere'⟩ := h.made loc hout hnone hnone'
      exact ⟨hopen, a, ha, hloc, fun hgone => hthere' (h'.kept a hgone)⟩
  · intro b hne hb
    rw [h'.within b hne hb, h.within b hne hb]

end Disk.Entered

/-! ## Files -/

namespace Writing

variable {x : Writing} {b : Location}

/-- All that is new lies in directories that were open. -/
theorem files_newInOpen (hd : d.IsTree) (now : Int) (files : List (Path × ByteArray)) :
    NewInOpen d ((Writing.mk d []).files now files).2.disk := by
  refine (files_invariant (P := fun x => x.Tracks d files ∧ NewInOpen d x.disk) ?_ ?_
    ⟨.start hd, .refl d⟩).2
  · intro e he dir hdir x ⟨htracks, hopen⟩
    refine ⟨htracks.makeDirs he hdir, ?_⟩
    rcases x.makeDirs_cases dir with hx | ⟨y, _, _, hmakes⟩
    · rwa [hx]
    · exact hopen.trans htracks.grows hmakes.newInOpen
  · intro e he x ⟨htracks, hopen⟩
    refine ⟨htracks.put he, ?_⟩
    rcases x.put_cases now e.1 e.2 with hx | ⟨d', hw, hx⟩
    · rwa [hx]
    · rw [hx]
      exact hopen.trans htracks.grows (Disk.writeFile_newInOpen hw)

/-- Beside the areas nothing is touched while files are written. -/
theorem files_within (hd : d.IsTree) (now : Int) (hfiles : ∀ f ∈ files, f.1.LiesIn areas)
    (hb : ∀ a ∈ areas, ¬ a <+: b ∧ ¬ b <+: a) :
    ((Writing.mk d []).files now files).2.disk.within b = d.within b := by
  -- What is above a file leads into an area or lies in one.
  have hfree : ∀ e ∈ files, ∀ loc, loc <+: e.1.names → ¬ b <+: loc := by
    intro e he loc hloc hpre
    obtain ⟨a, ha, hbelow⟩ := (hfiles e he).below
    rcases List.prefix_or_prefix_of_prefix (hpre.trans hloc) hbelow with hba | hab
    · exact (hb a ha).2 hba
    · exact (hb a ha).1 hab
  refine (files_invariant (P := fun x => x.Tracks d files ∧ x.disk.within b = d.within b) ?_ ?_
    ⟨.start hd, rfl⟩).2
  · intro e he dir hdir x ⟨htracks, hsame⟩
    refine ⟨htracks.makeDirs he hdir, ?_⟩
    rcases x.makeDirs_cases dir with hx | ⟨y, _, _, hmakes⟩
    · rwa [hx]
    · rw [hmakes.within htracks.tree, hsame]
      intro q hq
      obtain ⟨hdir', _, hpre⟩ := (hfiles e he).rooted.of_parent hdir
      rw [Disk.place_of_isRooted (hdir'.of_mem_ancestors hq)]
      apply hfree e he
      exact (Path.mem_ancestorsWithin hq).2.1.trans hpre
  · intro e he x ⟨htracks, hsame⟩
    refine ⟨htracks.put he, ?_⟩
    rcases x.put_cases now e.1 e.2 with hx | ⟨d', hw, hx⟩
    · rwa [hx]
    · rw [hx]
      have hplace : ¬ b <+: x.disk.place e.1 := by
        rw [Disk.place_of_isRooted (hfiles e he).rooted]
        exact hfree e he _ List.prefix_rfl
      exact (htracks.tree.writeFile_within hw hplace).trans hsame

/-- Removing directories that nothing beside the areas lies in. -/
theorem foldl_removed_within {paths : List Path} (hd : d.IsTree)
    (hpaths : ∀ p ∈ paths, p.IsRooted ∧ p.IsTrimmed ∧ Disk.accept p = .ok () ∧
      ¬ p.names <+: d.home)
    (hfree : ∀ p ∈ paths, ∀ y ∈ d.within b, ¬ p.names <+: y.1) :
    (paths.foldl removed d).within b = d.within b := by
  induction paths generalizing d with
  | nil => rfl
  | cons p rest ih =>
    obtain ⟨hp, htrim, hacc, hhome⟩ := hpaths p (by simp)
    obtain ⟨htree, hhome', _⟩ := removed_spec hd hp htrim hacc hhome
    have hsame : (removed d p).within b = d.within b := by
      unfold removed
      split
      · next d' hr =>
        rw [hd.remove_ok hr, Disk.place_of_isRooted hp]
        exact Disk.within_erase_of_free (hfree p (by simp))
      · rfl
    rw [List.foldl_cons, ih htree, hsame]
    · intro q hq
      rw [hhome']
      exact hpaths q (List.mem_cons_of_mem p hq)
    · intro q hq
      rw [hsame]
      exact hfree q (List.mem_cons_of_mem p hq)

/-- Beside the areas nothing is touched by cleaning up either: what is noted was missing before. -/
theorem undone_within (hd : d.IsTree) (htracks : x.Tracks d files) (hcovers : x.Covers d)
    (hb : b ≠ []) (hsame : x.disk.within b = d.within b) : x.undone.within b = d.within b := by
  rw [← hsame]
  apply foldl_removed_within htracks.tree
  · intro p hp
    obtain ⟨hrooted, htrim, hacc, _⟩ := hcovers.noted p hp
    refine ⟨hrooted, htrim, hacc, ?_⟩
    rw [htracks.grows.home]
    obtain ⟨closed, hhome⟩ := hd.home
    exact hcovers.free hd hhome p hp
  · intro p hp y hy
    rw [hsame] at hy
    exact hcovers.free hd (Disk.get_of_mem_within hd hb hy) p hp

end Writing

/-- Files that have all been written in areas. -/
theorem Writing.Wrote.entered (h : Writing.Wrote files now d d')
    (hfiles : ∀ f ∈ files, f.1.LiesIn areas) (hchanges : ChangesOnly areas d d')
    (hopen : NewInOpen d d')
    (hwithin : ∀ b, (∀ a ∈ areas, ¬ a <+: b ∧ ¬ b <+: a) → d'.within b = d.within b) :
    Disk.Entered areas d d' := by
  refine ⟨h.tree, hchanges, fun _ hnone => h.grows.missing hnone, ?_, fun b _ => hwithin b⟩
  intro loc hout hnone hthere
  refine ⟨hopen loc hnone hthere, ?_⟩
  rcases h.grows.new hnone with hmissing | ⟨⟨f, hf, dir, hdir, q, hq, rfl⟩, _⟩ | ⟨⟨f, hf, rfl⟩, _⟩
  · exact absurd hmissing hthere
  · -- A new directory stands above a file that has been written, in an area.
    obtain ⟨hdir', _, hdirf⟩ := (hfiles f hf).rooted.of_parent hdir
    rw [Disk.place_of_isRooted (hdir'.of_mem_ancestors hq)] at hout ⊢
    have hqf : q.names <+: f.1.names := (Path.mem_ancestorsWithin hq).2.1.trans hdirf
    obtain ⟨a, ha, hpre⟩ := (hfiles f hf).below
    refine ⟨a, ha, way_of_above hpre hqf (hout a ha), ?_⟩
    intro hgone
    obtain ⟨loc, bytes, time, hstat⟩ := h.found f hf
    obtain ⟨rfl, hget⟩ := h.tree.stat_ok hstat
    rw [Disk.place_of_isRooted (hfiles f hf).rooted, h.tree.none_below hgone hpre] at hget
    cases hget
  · -- No file lies outside the areas.
    obtain ⟨a, ha, hpre⟩ := (hfiles f hf).below
    rw [Disk.place_of_isRooted (hfiles f hf).rooted] at hout
    exact absurd hpre (hout a ha)

/-- Files that lie in some areas are written there, or it fails and what was made for them outside is
    removed again. -/
theorem writeAll_entered {result : Except Error Unit} (hd : d.IsTree)
    (hfiles : ∀ f ∈ files, f.1.LiesIn areas) (h : writeAll d now files = (result, d')) :
    Disk.Entered areas d d' := by
  have hrooted : ∀ f ∈ files, f.1.IsRooted := fun f hf => (hfiles f hf).rooted
  have hin : ∀ f ∈ files, ∃ a ∈ areas, a <+: f.1.names := fun f hf => (hfiles f hf).below
  obtain ⟨htree, hchanges⟩ := writeAll_changesOnly hd hrooted hin h
  have hopen := Writing.files_newInOpen hd now files
  have hwithin : ∀ b, (∀ a ∈ areas, ¬ a <+: b ∧ ¬ b <+: a) → _ :=
    fun b hb => Writing.files_within hd now hfiles hb
  cases result with
  | ok u =>
    have hwrote := writeAll_written hd h
    obtain ⟨x, hx, rfl⟩ := writeAll_ok h
    rw [hx] at hopen hwithin
    exact hwrote.entered hfiles hchanges hopen hwithin
  | error e =>
    have htracks := Writing.files_tracks hd now files
    have hcovers := Writing.files_covers hd now hrooted
    unfold writeAll at h
    rcases hx : (Writing.mk d []).files now files with ⟨result, x⟩
    rw [hx] at h htracks hcovers hwithin
    cases result with
    | ok u => cases h
    | error e' =>
      obtain ⟨_, rfl⟩ := Prod.mk.inj h
      refine ⟨htree, hchanges, ?_, ?_, ?_⟩
      · intro loc hnone
        cases hget : d.get? loc with
        | none => rfl
        | some e =>
          obtain ⟨_, hkept, _⟩ := Writing.undone_spec hd htracks hcovers
          rw [hkept loc e hget] at hnone
          exact hget.symm.trans (htracks.grows.missing hnone)
      · -- Outside the areas nothing is new.
        intro loc hout hnone hthere
        have hsame := Writing.undone_outside hd htracks hcovers
          (htracks.changesOnly hrooted hin) hout
        exact absurd (hsame.trans hnone) hthere
      · intro b hne hb
        exact Writing.undone_within hd htracks hcovers hne (hwithin b hb)

/-! ## Passes -/

section Passes

variable {store : Store} {w w' : World} {o : PassOptions} {result : Except Error Summary}

/-- A pass leaves the tree as writing in what belongs to its job does, however it ends. -/
theorem runPass_entered (hstore : store.ListsInside) (hjob : IsName o.job)
    (hroot : o.workingDir.IsRooted) (hd : w.disk.IsTree) (h : runPass store o w = (result, w')) :
    Disk.Entered (ownAreas o.workingDir o.job) w.disk w'.disk := by
  rcases runPass_cases h with ⟨_, hdisk⟩ | ⟨options, w₁, s, written, _, hdisk, hwrite, _⟩
  · rw [hdisk]
    exact .refl hd
  · have hstart : Disk.Entered (ownAreas o.workingDir o.job) w.disk w₁.disk := by
      rw [hdisk]
      exact .refl hd
    apply writeRuns_keeps (P := Disk.Entered (ownAreas o.workingDir o.job) w.disk) hstart _ hwrite
    intro r hr v written r' v' hv hrun
    apply Run.write_keeps (P := Disk.Entered (ownAreas o.workingDir o.job) w.disk) hrun hv
    intro d contents r₁ v₁ hgather written d' hfiles
    have hlies := Run.files_of_gather hstore hjob hroot hr hgather
    exact hv.trans (writeAll_entered hv.tree hlies hfiles)

end Passes

end RunCache
