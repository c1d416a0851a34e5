import RunCache.Proofs.Disk.Below

/-! # What is there already

    A directory that has been made is found under its path, and making it
    again changes nothing.  So a file that has been written can be written
    again, on every later disk, with nothing made for it.

    * **`IsTree.locate_follow`**: without links, none is followed.
    * **`IsTree.isDir_of_makeDirs`**, **`IsTree.makeDirs_of_isDir`**:
      directories once made.
    * **`IsTree.stands_of_stat`**: the directory around what is found.
    * **`Disk.HasFile`**: a file that is there, in a directory that is. -/

namespace RunCache

namespace Disk

variable {d d' : Disk} {p : Path} {dirs files : Location → Prop}

namespace IsTree

variable {here : Location} {segs : List String}
  {onLink onLink' : Location → Path → List String → Except Fault Place}

/-- In a tree it does not matter what would be done with links. -/
theorem walkWith_follow (h : d.IsTree) (follow follow' : Bool) :
    d.walkWith follow onLink here segs = d.walkWith follow' onLink' here segs := by
  induction segs generalizing here with
  | nil =>
    unfold walkWith
    rfl
  | cons s rest ih =>
    unfold walkWith
    by_cases hdot : s = "."
    · rw [if_pos hdot, if_pos hdot, ih]
    by_cases hup : s = ".."
    · rw [if_neg hdot, if_neg hdot, if_pos hup, if_pos hup, ih]
    rw [if_neg hdot, if_neg hdot, if_neg hup, if_neg hup]
    cases hget : d.get? (here ++ [s]) with
    | none => rfl
    | some e =>
      cases e with
      | dir closed => simp only [@ih (here ++ [s])]
      | file bytes time => rfl
      | link target => exact absurd (h.noLink _ _ hget) (by simp [Entry.isLink])

theorem locate_follow (h : d.IsTree) (p : Path) (follow follow' : Bool) :
    d.locate follow p = d.locate follow' p := by
  cases hacc : accept p with
  | error f => simp only [locate, hacc]
  | ok u =>
    obtain ⟨onLink, hwalk⟩ := walkFrom_eq_walkWith d follow linkLimit
    obtain ⟨onLink', hwalk'⟩ := walkFrom_eq_walkWith d follow' linkLimit
    rw [locate_eq_walkFrom hacc, locate_eq_walkFrom hacc, hwalk, hwalk', h.walkWith_follow]

/-! ## Directories -/

/-- A directory that a look-up comes to is found. -/
theorem isDir_of_locate {loc : Location} {closed follow : Bool} (h : d.IsTree)
    (hl : d.locate follow p = .ok (.found loc (.dir closed))) : d.isDir p = true := by
  rw [isDir, stat_of_locate fun follow' => (h.locate_follow p follow' follow).trans hl]
  rfl

/-- A directory that has been made is there. -/
theorem isDir_of_makeDir (h : d.IsTree) (hm : d.makeDir p = .ok d') : d'.isDir p = true := by
  have htree := (h.makeDir hm).2.2
  obtain ⟨parent, name, hl, _, hd'⟩ := makeDir_ok hm
  have hgrows : Grows (fun _ => True) (fun _ => False) d d' :=
    makeDir_grows hm fun _ _ _ => trivial
  have hget : d'.get? (parent ++ [name]) = some (.dir false) := by
    rw [hd', get_put_self (by simp)]
  have hseen := hgrows.locate hl
  simp only [seen, hget] at hseen
  exact htree.isDir_of_locate hseen

/-- Where directories could be made, the first of them is there. -/
theorem isDir_of_makeChain {above : List Path} (h : d.IsTree)
    (hm : d.makeChain (p :: above) = (.ok (), d')) : p.text = "" ∨ d'.isDir p = true := by
  unfold makeChain at hm
  split at hm
  · next hempty => exact .inl (by simpa using hempty)
  · refine .inr ?_
    split at hm
    · next hmake =>
      obtain ⟨_, rfl⟩ := Prod.mk.inj hm
      exact h.isDir_of_makeDir hmake
    · -- The paths above have been made in between, which leaves a tree.
      have hmakes := makeChain_makes d above
      split at hm
      · cases (Prod.mk.inj hm).1
      · next d₁ hchain =>
        rw [hchain] at hmakes
        split at hm
        · next hmake =>
          obtain ⟨_, rfl⟩ := Prod.mk.inj hm
          exact (hmakes.tree h).1.isDir_of_makeDir hmake
        · split at hm
          · next hdir =>
            obtain ⟨_, rfl⟩ := Prod.mk.inj hm
            exact hdir
          · cases (Prod.mk.inj hm).1
    · split at hm
      · next hdir =>
        obtain ⟨_, rfl⟩ := Prod.mk.inj hm
        exact hdir
      · cases (Prod.mk.inj hm).1

theorem isDir_of_makeDirs (h : d.IsTree) (hm : d.makeDirs p = (.ok (), d')) :
    p.text = "" ∨ d'.isDir p = true := by
  rw [makeDirs, Path.ancestors_eq_cons] at hm
  exact h.isDir_of_makeChain hm

/-- Where a directory is there, nothing is made. -/
theorem makeDirs_of_isDir (h : d.IsTree) (hdir : d.isDir p = true) :
    d.makeDirs p = (.ok (), d) := by
  obtain ⟨loc, closed, hs⟩ := stat_of_isDir hdir
  have hl := locate_of_stat hs
  have hne : p.text ≠ "" := (accept_eq_ok_iff.mp (accept_of_locate hl)).2.1
  have hmake : d.makeDir p = .error .present := by
    rw [Disk.makeDir, h.locate_follow p false, hl]
  rw [makeDirs, Path.ancestors_eq_cons, makeChain, if_neg (by simpa using hne), hmake]
  simp only [hdir, if_true]

/-- A directory below which something is found is found. -/
theorem stands_of_stat {root : Path} {names : List String} {loc : Location} {e : Entry}
    (h : d.IsTree) (hne : root.text ≠ "") (hnames : ∀ s ∈ names, IsName s) (hsome : names ≠ [])
    (hs : d.stat true (names.foldl Path.join root) = .ok (loc, e)) : d.Stands root := by
  have hl := locate_of_stat hs
  have hacc := accept_of_locate hl
  rw [Bool.true_or, locate_eq_walkFrom hacc, steps_foldl_join hnames, start,
    Path.isAbsolute_foldl_join hnames, ← start] at hl
  obtain ⟨onLink, hwalk⟩ := walkFrom_eq_walkWith d true linkLimit
  rw [hwalk] at hl
  obtain ⟨closed, _, hroot⟩ := h.walkWith_append (h.start_dir root) hsome hl
  have hfound := hroot true onLink
  rw [← hwalk, ← locate_eq_walkFrom (accept_of_foldl_join hnames hne hacc)] at hfound
  exact ⟨h, h.isDir_of_locate hfound⟩

end IsTree

theorem exists_of_isDir (h : d.isDir p = true) : d.exists? p = .ok true := by
  obtain ⟨loc, closed, hs⟩ := stat_of_isDir h
  rw [exists?, hs]

/-! ## Files -/

/-- A file that is found under a path, in a directory that is found as well, where the path names
    one. -/
structure HasFile (d : Disk) (p : Path) : Prop where
  file : ∃ loc bytes time, d.stat true p = .ok (loc, .file bytes time)
  dir : ∀ dir, p.parent? = some dir → dir.text = "" ∨ d.isDir dir = true

/-- What is there is there on every later disk. -/
theorem HasFile.grows (h : d.HasFile p) (hd : d.IsTree) (hd' : d'.IsTree)
    (hg : Grows dirs files d d') : d'.HasFile p := by
  obtain ⟨loc, bytes, time, hs⟩ := h.file
  obtain ⟨bytes', time', _, hs'⟩ := hg.stat_file hs
  refine ⟨⟨loc, bytes', time', hs'⟩, fun dir hparent => ?_⟩
  rcases h.dir dir hparent with hempty | hdir
  · exact .inl hempty
  · exact .inr ((Stands.mk hd hdir).grows hd' hg).found

/-- A file that is there can be written, and its bytes are put where it is. -/
theorem HasFile.writeFile (h : d.HasFile p) (now : Int) (bytes : ByteArray) :
    ∃ loc old time, d.get? loc = some (.file old time) ∧
      d.writeFile now p bytes = .ok (d.put loc (.file bytes now)) := by
  obtain ⟨loc, old, time, hs⟩ := h.file
  obtain ⟨hslash, hl⟩ := stat_file_iff.mp hs
  refine ⟨loc, old, time, get_of_locate_file hl, ?_⟩
  simp [Disk.writeFile, hl, hslash]

end Disk

end RunCache
