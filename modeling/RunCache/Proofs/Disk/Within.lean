import RunCache.Proofs.Disk.Changes
import RunCache.Proofs.Disk.Walk

/-! # Listings that stay as they are

    A directory lists its entries in the order in which the disk holds
    them.  Changes elsewhere leave that order alone, and a closed directory
    gets nothing new.

    * **`Disk.within`**: what lies at a location and below it, in order.
    * **`within_put`**, **`within_erase`**: changes elsewhere.
    * **`Disk.NewInOpen`**: trees in which all that is new lies in open
      directories. -/

namespace RunCache.Disk

variable {d d' d'' : Disk} {b loc : Location} {e : Entry} {p : Path}

/-! ## Order -/

/-- What lies at a location and below it, in the order in which the disk holds it. -/
def within (d : Disk) (b : Location) : List (Location × Entry) :=
  d.entries.filter fun x => b.isPrefixOf x.1

/-- Below a location a directory lists what lies there. -/
theorem children_of_within (hb : b <+: loc) (h : d'.within b = d.within b) :
    d'.children loc = d.children loc := by
  have hchildren : ∀ d : Disk, d.children loc = (d.within b).filterMap fun x =>
      if x.1.dropLast = loc then x.1.getLast?.map (·, x.2) else none := by
    intro d
    rw [within, List.filterMap_filter]
    apply List.filterMap_congr
    intro x _
    by_cases hparent : x.1.dropLast = loc
    · -- An entry of the directory lies below the location.
      have hpre : b <+: x.1 := hb.trans (hparent ▸ List.dropLast_prefix x.1)
      rw [if_pos hparent, if_pos (List.isPrefixOf_iff_prefix.mpr hpre)]
    · rw [if_neg hparent, ite_self]
  rw [hchildren, hchildren, h]

/-- Putting an entry elsewhere changes neither what lies below a location nor its order. -/
theorem within_put (h : ¬ b <+: loc) : (d.put loc e).within b = d.within b := by
  have hloc : b.isPrefixOf loc = false := by
    rw [← Bool.not_eq_true, List.isPrefixOf_iff_prefix]
    exact h
  unfold put within
  split
  · rw [List.filter_map]
    have hsame : (fun x : Location × Entry => b.isPrefixOf x.1) ∘
        (fun x => if x.1 = loc then (loc, e) else x) = fun x => b.isPrefixOf x.1 := by
      funext x
      by_cases hx : x.1 = loc <;> simp [hx]
    have hfixed : ∀ x ∈ d.entries.filter (fun x => b.isPrefixOf x.1),
        (if x.1 = loc then (loc, e) else x) = x := by
      intro x hx
      have hpre := (List.mem_filter.mp hx).2
      rw [if_neg]
      rintro hxloc
      rw [hxloc, hloc] at hpre
      cases hpre
    rw [hsame, List.map_congr_left hfixed, List.map_id']
  · rw [List.filter_append]
    simp [hloc]

theorem within_erase (d : Disk) (loc b : Location) :
    (d.erase loc).within b = (d.within b).filter fun x => !loc.isPrefixOf x.1 := by
  rw [erase, within, within, List.filter_filter, List.filter_filter]
  simp only [Bool.and_comm]

/-- Erasing what nothing lies below does not change it either. -/
theorem within_erase_of_free (h : ∀ x ∈ d.within b, ¬ loc <+: x.1) :
    (d.erase loc).within b = d.within b := by
  rw [within_erase, List.filter_eq_self]
  intro x hx
  rw [Bool.not_eq_true', ← Bool.not_eq_true, List.isPrefixOf_iff_prefix]
  exact h x hx

/-- What is held below a location other than the root is what is there. -/
theorem get_of_mem_within {x : Location × Entry} (h : d.IsTree) (hb : b ≠ [])
    (hx : x ∈ d.within b) : d.get? x.1 = some x.2 := by
  obtain ⟨hmem, hpre⟩ := List.mem_filter.mp hx
  rw [List.isPrefixOf_iff_prefix] at hpre
  apply get_of_mem h.once _ hmem
  intro hnil
  exact hb (List.prefix_nil.mp (hnil ▸ hpre))

/-! ## Making directories and writing files -/

/-- Directories made elsewhere. -/
theorem Makes.within {paths : List Path} (h : Makes paths d d') (hd : d.IsTree)
    (hpaths : ∀ q ∈ paths, ¬ b <+: d.place q) : d'.within b = d.within b := by
  induction h with
  | none => rfl
  | @more d d' d'' q hq hm _ ih =>
    obtain ⟨_, hput, htree⟩ := hd.makeDir hm
    have hhome : d'.home = d.home := by rw [hput, put_home]
    have hfirst : d'.within b = d.within b := by rw [hput, within_put (hpaths q hq)]
    rw [ih htree fun r hr => by rw [place_congr hhome]; exact hpaths r hr, hfirst]

/-- A file written elsewhere. -/
theorem IsTree.writeFile_within {now : Int} {bytes : ByteArray} (h : d.IsTree)
    (hw : d.writeFile now p bytes = .ok d') (hp : ¬ b <+: d.place p) :
    d'.within b = d.within b := by
  rw [(h.writeFile hw).2.1, within_put hp]

/-! ## Closed directories -/

/-- What is new lies in no directory that was closed. -/
def NewInOpen (d d' : Disk) : Prop :=
  ∀ loc, d.get? loc = none → d'.get? loc ≠ none → d.get? loc.dropLast ≠ some (.dir true)

namespace NewInOpen

theorem refl (d : Disk) : NewInOpen d d := fun _ hnone hthere => absurd hnone hthere

theorem trans {dirs files : Location → Prop} (h : NewInOpen d d') (hgrows : Grows dirs files d d')
    (h' : NewInOpen d' d'') : NewInOpen d d'' := by
  intro loc hnone hthere hclosed
  by_cases hnone' : d'.get? loc = none
  · exact h' loc hnone' hthere (hgrows.dir hclosed)
  · exact h loc hnone hnone' hclosed

/-- An entry put in an open directory. -/
theorem put {parent : Location} {name : String} (hparent : d.get? parent = some (.dir false)) :
    NewInOpen d (d.put (parent ++ [name]) e) := by
  intro l hnone hthere
  by_cases hl : l = parent ++ [name]
  · rw [hl, List.dropLast_concat, hparent]
    simp
  · rw [get_put_of_ne hl] at hthere
    exact absurd hnone hthere

end NewInOpen

theorem Makes.newInOpen {paths : List Path} (h : Makes paths d d') : NewInOpen d d' := by
  induction h with
  | none => exact .refl _
  | @more d d' d'' p _ hm _ ih =>
    obtain ⟨parent, name, _, hparent, hput⟩ := makeDir_ok hm
    have hgrows : Grows (fun _ => True) (fun _ => False) d d' :=
      makeDir_grows hm fun _ _ _ => trivial
    have hfirst : NewInOpen d d' := hput ▸ NewInOpen.put hparent
    exact hfirst.trans hgrows ih

theorem writeFile_newInOpen {now : Int} {bytes : ByteArray}
    (hw : d.writeFile now p bytes = .ok d') : NewInOpen d d' := by
  obtain ⟨_, loc, rfl, ⟨old, time, hl⟩ | ⟨parent, name, rfl, _, hparent⟩⟩ := writeFile_ok hw
  · -- The file was there before.
    intro l hnone hthere
    by_cases hloc : l = loc
    · rw [hloc, get_of_locate_file hl] at hnone
      cases hnone
    · rw [get_put_of_ne hloc] at hthere
      exact absurd hnone hthere
  · exact .put hparent

end RunCache.Disk
