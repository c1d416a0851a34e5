import RunCache.Proofs.Disk.Growth
import RunCache.Proofs.Disk.Lookup

/-! # Changes of trees

    In a tree a directory is made, and a file is written, at the place of
    its path and nowhere else.

    * **`IsTree.makeDir`**, **`IsTree.writeFile`**, **`IsTree.remove_ok`**:
      single changes.
    * **`Disk.Makes`**: directories made one after the other, as
      `Disk.makeDirs` does it (`makeDirs_makes`).
    * **`Makes.tree`**: what is new then are directories at the places of
      these paths. -/

namespace RunCache

namespace Disk

variable {d d' d'' : Disk} {p : Path}

/-! ## Single changes -/

namespace IsTree

theorem makeDir (h : d.IsTree) (hm : d.makeDir p = .ok d') :
    d.get? (d.place p) = none ∧ d' = d.put (d.place p) (.dir false) ∧ d'.IsTree := by
  obtain ⟨parent, name, hl, hparent, rfl⟩ := makeDir_ok hm
  obtain ⟨hplace, hnone, hdir, hname⟩ := h.locate_absent hl
  rw [hplace] at hnone ⊢
  exact ⟨hnone, rfl, h.put_new hdir hnone hname rfl⟩

theorem writeFile {now : Int} {bytes : ByteArray} (h : d.IsTree)
    (hw : d.writeFile now p bytes = .ok d') :
    (d.get? (d.place p) = none ∨ ∃ old time, d.get? (d.place p) = some (.file old time)) ∧
      d' = d.put (d.place p) (.file bytes now) ∧ d'.IsTree := by
  obtain ⟨_, loc, rfl, ⟨old, time, hl⟩ | ⟨parent, name, rfl, hl, _⟩⟩ := writeFile_ok hw
  · obtain ⟨rfl, hget⟩ := h.locate_found hl
    exact ⟨.inr ⟨old, time, hget⟩, rfl, h.put_file hget⟩
  · obtain ⟨hplace, hnone, hdir, hname⟩ := h.locate_absent hl
    rw [hplace] at hnone ⊢
    exact ⟨.inl hnone, rfl, h.put_new hdir hnone hname rfl⟩

theorem remove_ok (h : d.IsTree) (hr : d.remove p = .ok d') : d' = d.erase (d.place p) := by
  unfold remove at hr
  cases hs : d.stat false p with
  | error f =>
    rw [hs] at hr
    cases hr
  | ok x =>
    obtain ⟨loc, e⟩ := x
    rw [hs] at hr
    obtain rfl := Except.ok.inj hr
    show d.erase loc = d.erase (d.place p)
    rw [(h.stat_ok hs).1]

theorem remove_error {f : Fault} (h : d.IsTree) (hp : p.IsRooted) (htrim : p.IsTrimmed)
    (hacc : accept p = .ok ()) (hr : d.remove p = .error f) : d.get? (d.place p) = none := by
  unfold remove at hr
  cases hs : d.stat false p with
  | error f => exact h.stat_error hp htrim hacc hs
  | ok x =>
    rw [hs] at hr
    cases hr

end IsTree

/-! ## Directories one after the other -/

/-- Directories made one after the other, each under one of some paths. -/
inductive Makes (paths : List Path) : Disk → Disk → Prop
  | none (d : Disk) : Makes paths d d
  | more {d d' d'' : Disk} {p : Path} (hp : p ∈ paths) (hm : d.makeDir p = .ok d')
      (h : Makes paths d' d'') : Makes paths d d''

namespace Makes

variable {paths : List Path}

theorem trans (h : Makes paths d d') (h' : Makes paths d' d'') : Makes paths d d'' := by
  induction h with
  | none => exact h'
  | more hp hm _ ih => exact .more hp hm (ih h')

theorem mono {paths' : List Path} (h : Makes paths d d') (hsub : paths ⊆ paths') :
    Makes paths' d d' := by
  induction h with
  | none => exact .none _
  | more hp hm _ ih => exact .more (hsub hp) hm ih

theorem one (hp : p ∈ paths) (hm : d.makeDir p = .ok d') : Makes paths d d' :=
  .more hp hm (.none _)

theorem grows (h : Makes paths d d') : Grows (fun _ => True) (fun _ => False) d d' := by
  induction h with
  | none => exact .refl _
  | more _ hm _ ih => exact (makeDir_grows hm fun _ _ _ => trivial).trans ih

/-- In a tree the directories are at the places of their paths. -/
theorem tree (h : Makes paths d d') (hd : d.IsTree) :
    d'.IsTree ∧ Grows (fun loc => ∃ q ∈ paths, loc = d.place q) (fun _ => False) d d' := by
  induction h with
  | none => exact ⟨hd, .refl _⟩
  | @more d d' d'' q hq hm _ ih =>
    -- The first directory leaves a tree with the same home, where paths have the same places.
    obtain ⟨_, hput, htree⟩ := hd.makeDir hm
    obtain ⟨htree', hgrows⟩ := ih htree
    have hhome : d'.home = d.home := by rw [hput, put_home]
    have hfirst : Grows (fun loc => ∃ q ∈ paths, loc = d.place q) (fun _ => False) d d' :=
      makeDir_grows hm fun parent name hl => ⟨q, hq, (hd.locate_absent hl).1.symm⟩
    refine ⟨htree', hfirst.trans (hgrows.mono ?_ fun _ hf => hf)⟩
    rintro loc ⟨r, hr, rfl⟩
    exact ⟨r, hr, place_congr hhome r⟩

end Makes

theorem makeChain_makes (d : Disk) (paths : List Path) : Makes paths d (d.makeChain paths).2 := by
  induction paths generalizing d with
  | nil => exact .none d
  | cons p rest ih =>
    unfold makeChain
    split
    · exact .none d
    · split
      · next hm => exact .one (by simp) hm
      · -- Those above are made first, and then another attempt at this one.
        have hrest := (ih d).mono (List.subset_cons_self p rest)
        split
        · next d₁ hchain =>
          rw [hchain] at hrest
          exact hrest
        · next d₁ hchain =>
          rw [hchain] at hrest
          split
          · next hm => exact hrest.trans (.one (by simp) hm)
          · split <;> exact hrest
      · split <;> exact .none d

theorem makeDirs_makes (d : Disk) (p : Path) : Makes p.ancestors d (d.makeDirs p).2 :=
  makeChain_makes d p.ancestors

end Disk

end RunCache
