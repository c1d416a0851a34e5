import Mathlib.Data.List.Induction
import Mathlib.Data.List.Nodup
import RunCache.Disk.Basic

/-! # Disks as trees

    A disk is a map from locations to entries.  What follows says what
    putting and erasing do to that map, and which disks are file trees.

    * **`get_put`**, **`get_erase`**: the map after a change.
    * **`Disk.IsTree`**: whatever there is lies in a directory, under names
      the system takes, and nothing is a link.
    * **`Disk.IsTreeBelow`**: the same below one location only.
    * **`Disk.SameTree`**: disks with the same entries everywhere. -/

namespace RunCache

namespace Entry

/-- Whether an entry is a symbolic link. -/
def isLink : Entry → Bool
  | .link _ => true
  | _ => false

theorem eq_dir_of_isDir {e : Entry} (h : e.isDir = true) : ∃ closed, e = .dir closed := by
  cases e with
  | dir closed => exact ⟨closed, rfl⟩
  | file => cases h
  | link => cases h

theorem eq_file_of_isFile {e : Entry} (h : e.isFile = true) : ∃ bytes time, e = .file bytes time := by
  cases e with
  | file bytes time => exact ⟨bytes, time, rfl⟩
  | dir => cases h
  | link => cases h

end Entry

namespace Disk

variable {d : Disk} {loc l : Location} {e : Entry}

/-! ## Entries at locations -/

@[simp] theorem get_nil (d : Disk) : d.get? [] = some (.dir false) := rfl

theorem get_of_ne_nil (h : l ≠ []) :
    d.get? l = (d.entries.find? (·.1 = l)).map (·.2) := by
  simp [get?, h]

/-- What is at a location is among the entries. -/
theorem mem_of_get (h : l ≠ []) (hget : d.get? l = some e) : (l, e) ∈ d.entries := by
  rw [get_of_ne_nil h, Option.map_eq_some_iff] at hget
  obtain ⟨x, hfind, rfl⟩ := hget
  have hx : x.1 = l := by simpa using List.find?_some hfind
  rw [← hx]
  exact List.mem_of_find?_eq_some hfind

/-- Where each location is held once, an entry is what is at its location. -/
theorem get_of_mem (hnd : (d.entries.map (·.1)).Nodup) (h : l ≠ []) (hmem : (l, e) ∈ d.entries) :
    d.get? l = some e := by
  rw [get_of_ne_nil h]
  cases hfind : d.entries.find? (·.1 = l) with
  | none => simpa using List.find?_eq_none.mp hfind _ hmem
  | some x =>
    have hx : x.1 = l := by simpa using List.find?_some hfind
    have hxe : x = (l, e) := List.inj_on_of_nodup_map hnd (List.mem_of_find?_eq_some hfind) hmem hx
    rw [hxe]
    rfl

/-! ## Changes -/

@[simp] theorem put_home (d : Disk) (loc : Location) (e : Entry) : (d.put loc e).home = d.home := by
  unfold put
  split <;> rfl

@[simp] theorem erase_home (d : Disk) (loc : Location) : (d.erase loc).home = d.home := rfl

/-- Putting an entry changes one location. -/
theorem get_put (hl : l ≠ []) :
    (d.put loc e).get? l = if l = loc then some e else d.get? l := by
  rw [get_of_ne_nil hl, get_of_ne_nil hl]
  unfold put
  by_cases hany : (d.entries.any fun x => x.1 = loc) = true
  · rw [if_pos hany]
    -- An entry keeps its location when it is replaced, so the search finds the same one.
    have hsame : (fun x : Location × Entry => decide (x.1 = l)) ∘
        (fun x => if x.1 = loc then (loc, e) else x) = fun x => decide (x.1 = l) := by
      funext x
      by_cases hx : x.1 = loc <;> simp [hx]
    simp only [List.find?_map, hsame]
    by_cases heq : l = loc
    · subst heq
      obtain ⟨x, hx⟩ : ∃ x, d.entries.find? (fun x => x.1 = l) = some x := by
        rw [← Option.isSome_iff_exists]
        simpa using hany
      have hxl : x.1 = l := by simpa using List.find?_some hx
      simp [hx, hxl]
    · rw [if_neg heq]
      cases hfind : d.entries.find? fun x => x.1 = l with
      | none => rfl
      | some x =>
        have hxl : x.1 = l := by simpa using List.find?_some hfind
        simp [hxl, heq]
  · rw [if_neg hany]
    have hnone : ∀ x ∈ d.entries, x.1 ≠ loc :=
      fun x hx heq => hany (List.any_eq_true.mpr ⟨x, hx, by simpa using heq⟩)
    rw [List.find?_append]
    by_cases heq : l = loc
    · subst heq
      have hfind : d.entries.find? (fun x => x.1 = l) = none := by simpa using hnone
      simp [hfind]
    · have hfind : [(loc, e)].find? (fun x => x.1 = l) = none := by simp [Ne.symm heq]
      rw [if_neg heq, hfind, Option.or_none]

theorem get_put_self (h : loc ≠ []) : (d.put loc e).get? loc = some e := by
  rw [get_put h, if_pos rfl]

theorem get_put_of_ne (h : l ≠ loc) : (d.put loc e).get? l = d.get? l := by
  by_cases hl : l = []
  · rw [hl]
    rfl
  · rw [get_put hl, if_neg h]

/-- Erasing takes a location and everything below it away. -/
theorem get_erase (hl : l ≠ []) :
    (d.erase loc).get? l = if loc <+: l then none else d.get? l := by
  rw [get_of_ne_nil hl, get_of_ne_nil hl, erase, List.find?_filter]
  by_cases h : loc <+: l
  · rw [if_pos h]
    simp only [Option.map_eq_none_iff, List.find?_eq_none]
    rintro x _
    by_cases hx : x.1 = l
    · simp [hx, h]
    · simp [hx]
  · rw [if_neg h]
    congr 2
    funext x
    by_cases hx : x.1 = l
    · have hnot : loc.isPrefixOf l = false := by
        rw [← Bool.not_eq_true, List.isPrefixOf_iff_prefix]
        exact h
      simp [hx, hnot]
    · simp [hx]

theorem keys_put (d : Disk) (loc : Location) (e : Entry) :
    (d.put loc e).entries.map (·.1) =
      if loc ∈ d.entries.map (·.1) then d.entries.map (·.1) else d.entries.map (·.1) ++ [loc] := by
  have hany : (d.entries.any fun x => x.1 = loc) = true ↔ loc ∈ d.entries.map (·.1) := by simp
  unfold put
  by_cases h : loc ∈ d.entries.map (·.1)
  · rw [if_pos (hany.mpr h), if_pos h, List.map_map]
    apply List.map_congr_left
    intro x _
    by_cases hx : x.1 = loc <;> simp [hx]
  · rw [if_neg (fun h' => h (hany.mp h')), if_neg h, List.map_append]
    rfl

/-! ## File trees -/

/-- A file tree without links: each location is held once, whatever there is lies in a directory,
    and its names are such as the system takes. -/
structure IsTree (d : Disk) : Prop where
  once : (d.entries.map (·.1)).Nodup
  inDir : ∀ loc name e, d.get? (loc ++ [name]) = some e → ∃ closed, d.get? loc = some (.dir closed)
  fits : ∀ loc e, d.get? loc = some e → ∀ s ∈ loc, s.utf8ByteSize ≤ nameLimit
  noLink : ∀ loc e, d.get? loc = some e → e.isLink = false
  home : ∃ closed, d.get? d.home = some (.dir closed)

/-- A file tree below a location. What else the disk holds may be anything, links that lead there
    among it. -/
structure IsTreeBelow (d : Disk) (top : Location) : Prop where
  once : (d.entries.map (·.1)).Nodup
  inDir : ∀ rel name e, d.get? (top ++ rel ++ [name]) = some e →
    ∃ closed, d.get? (top ++ rel) = some (.dir closed)
  fits : ∀ rel e, d.get? (top ++ rel) = some e → ∀ s ∈ rel, s.utf8ByteSize ≤ nameLimit
  noLink : ∀ rel e, d.get? (top ++ rel) = some e → e.isLink = false

namespace IsTreeBelow

variable {top : Location} {rel : List String}

/-- Further down it is one as well. -/
theorem below (h : d.IsTreeBelow top) (rel : List String) : d.IsTreeBelow (top ++ rel) := by
  refine ⟨h.once, fun more name e hget => ?_, fun more e hget s hs => ?_, fun more e hget => ?_⟩
  · rw [List.append_assoc top] at hget ⊢
    exact h.inDir _ _ _ hget
  · rw [List.append_assoc] at hget
    exact h.fits _ _ hget s (List.mem_append_right _ hs)
  · rw [List.append_assoc] at hget
    exact h.noLink _ _ hget

/-- What is above something is a directory. -/
theorem dir_above (h : d.IsTreeBelow top) {l : List String} (hget : d.get? (top ++ rel) = some e)
    (hpre : l <+: rel) (hne : l ≠ rel) : ∃ closed, d.get? (top ++ l) = some (.dir closed) := by
  obtain ⟨more, rfl⟩ := hpre
  -- By induction on the names between, from below.
  induction more using List.reverseRecOn generalizing e with
  | nil => simp at hne
  | append_singleton more name ih =>
    have happ : top ++ (l ++ (more ++ [name])) = top ++ (l ++ more) ++ [name] := by simp
    rw [happ] at hget
    obtain ⟨closed, hclosed⟩ := h.inDir _ _ _ hget
    by_cases hmore : more = []
    · rw [hmore, List.append_nil] at hclosed
      exact ⟨closed, hclosed⟩
    · exact ih hclosed (by simpa using hmore)

/-- A disk is a tree below a directory if each of its entries there is as in a tree. -/
theorem of_entries (hdir : (d.get? top).any Entry.isDir = true)
    (honce : (d.entries.map (·.1)).Nodup)
    (hall : ∀ x ∈ d.entries, top <+: x.1 → x.1 ≠ top →
      (d.get? x.1.dropLast).any Entry.isDir = true ∧ x.2.isLink = false ∧
        ∀ s ∈ x.1.drop top.length, s.utf8ByteSize ≤ nameLimit) :
    d.IsTreeBelow top := by
  -- What lies below the directory is one of the entries.
  have hbelow : ∀ rel e, rel ≠ [] → d.get? (top ++ rel) = some e →
      (d.get? (top ++ rel).dropLast).any Entry.isDir = true ∧ e.isLink = false ∧
        ∀ s ∈ rel, s.utf8ByteSize ≤ nameLimit := by
    intro rel e hne hget
    have hmem := mem_of_get (by simp [hne]) hget
    have hentry := hall _ hmem (List.prefix_append _ _) (by simpa using hne)
    rw [List.drop_left] at hentry
    exact hentry
  refine ⟨honce, ?_, ?_, ?_⟩
  · intro rel name e hget
    rw [List.append_assoc] at hget
    obtain ⟨hparent, _⟩ := hbelow (rel ++ [name]) e (by simp) hget
    rw [← List.append_assoc, List.dropLast_concat, Option.any_eq_true] at hparent
    obtain ⟨parent, hparent, hisDir⟩ := hparent
    obtain ⟨closed, rfl⟩ := Entry.eq_dir_of_isDir hisDir
    exact ⟨closed, hparent⟩
  · intro rel e hget s hs
    exact (hbelow rel e (List.ne_nil_of_mem hs) hget).2.2 s hs
  · intro rel e hget
    by_cases hnil : rel = []
    · rw [hnil, List.append_nil] at hget
      rw [hget, Option.any_some] at hdir
      obtain ⟨closed, rfl⟩ := Entry.eq_dir_of_isDir hdir
      rfl
    · exact (hbelow rel e hnil hget).2.1

end IsTreeBelow

namespace IsTree

/-- A disk that holds nothing. -/
theorem empty : ({} : Disk).IsTree := by
  have hnone : ∀ loc, loc ≠ [] → ({} : Disk).get? loc = none := fun loc h => get_of_ne_nil h
  refine ⟨by simp, ?_, ?_, ?_, ⟨false, rfl⟩⟩
  · intro loc name e hget
    rw [hnone _ (by simp)] at hget
    cases hget
  · intro loc e hget s hs
    rw [hnone _ (List.ne_nil_of_mem hs)] at hget
    cases hget
  · intro loc e hget
    by_cases hnil : loc = []
    · subst hnil
      obtain rfl := Option.some.inj hget
      rfl
    · rw [hnone _ hnil] at hget
      cases hget

/-- Below each of its locations a tree is one. -/
theorem below (h : d.IsTree) (top : Location) : d.IsTreeBelow top :=
  ⟨h.once, fun _ _ _ hget => h.inDir _ _ _ hget,
    fun _ _ hget s hs => h.fits _ _ hget s (List.mem_append_right _ hs),
    fun _ _ hget => h.noLink _ _ hget⟩

/-- A disk is a tree if each of its entries is as in a tree. -/
theorem of_entries (honce : (d.entries.map (·.1)).Nodup)
    (hall : ∀ x ∈ d.entries, (d.get? x.1.dropLast).any Entry.isDir = true ∧ x.2.isLink = false ∧
      ∀ s ∈ x.1, s.utf8ByteSize ≤ nameLimit)
    (hhome : (d.get? d.home).any Entry.isDir = true) : d.IsTree := by
  have hbelow : d.IsTreeBelow [] := .of_entries rfl honce fun x hx _ _ => hall x hx
  refine ⟨honce, hbelow.inDir, hbelow.fits, hbelow.noLink, ?_⟩
  rw [Option.any_eq_true] at hhome
  obtain ⟨e, hget, hdir⟩ := hhome
  obtain ⟨closed, rfl⟩ := Entry.eq_dir_of_isDir hdir
  exact ⟨closed, hget⟩

/-- What is above something is a directory. -/
theorem dir_above (h : d.IsTree) (hget : d.get? loc = some e) (hpre : l <+: loc)
    (hne : l ≠ loc) : ∃ closed, d.get? l = some (.dir closed) :=
  (h.below []).dir_above hget hpre hne

/-- Nothing is below a location that is not there. -/
theorem none_below (h : d.IsTree) (hget : d.get? l = none) (hpre : l <+: loc) :
    d.get? loc = none := by
  by_cases hne : l = loc
  · rw [← hne, hget]
  · cases hloc : d.get? loc with
    | none => rfl
    | some e =>
      obtain ⟨closed, hclosed⟩ := h.dir_above hloc hpre hne
      rw [hget] at hclosed
      cases hclosed

/-- A new entry in a directory. -/
theorem put_new {parent : Location} {name : String} (h : d.IsTree)
    (hparent : ∃ closed, d.get? parent = some (.dir closed))
    (hnone : d.get? (parent ++ [name]) = none) (hname : name.utf8ByteSize ≤ nameLimit)
    (hlink : e.isLink = false) : (d.put (parent ++ [name]) e).IsTree := by
  have hne : parent ++ [name] ≠ [] := by simp
  obtain ⟨closed, hclosed⟩ := hparent
  have hkeep : ∀ loc closed, d.get? loc = some (.dir closed) →
      (d.put (parent ++ [name]) e).get? loc = some (.dir closed) := by
    intro loc closed' hloc
    rw [get_put_of_ne, hloc]
    rintro rfl
    rw [hnone] at hloc
    cases hloc
  refine ⟨?_, ?_, ?_, ?_, ?_⟩
  · rw [keys_put]
    split
    · exact h.once
    · next hnew =>
      refine List.nodup_append.mpr ⟨h.once, by simp, fun a ha b hb heq => hnew ?_⟩
      rwa [← List.mem_singleton.mp hb, ← heq]
  · intro loc s e' hget
    -- What is new lies in the directory it was put in, all else where it did before.
    by_cases heq : loc ++ [s] = parent ++ [name]
    · obtain ⟨rfl, _⟩ := List.append_inj' heq rfl
      exact ⟨closed, hkeep _ _ hclosed⟩
    · rw [get_put_of_ne heq] at hget
      obtain ⟨closed', hdir⟩ := h.inDir _ _ _ hget
      exact ⟨closed', hkeep _ _ hdir⟩
  · intro loc e' hget s hs
    by_cases heq : loc = parent ++ [name]
    · subst heq
      rcases List.mem_append.mp hs with hs | hs
      · exact h.fits _ _ hclosed s hs
      · rwa [List.mem_singleton.mp hs]
    · rw [get_put_of_ne heq] at hget
      exact h.fits _ _ hget s hs
  · intro loc e' hget
    by_cases heq : loc = parent ++ [name]
    · rw [heq, get_put_self hne] at hget
      obtain rfl := Option.some.inj hget
      exact hlink
    · rw [get_put_of_ne heq] at hget
      exact h.noLink _ _ hget
  · obtain ⟨closed', hhome⟩ := h.home
    exact ⟨closed', by rw [put_home]; exact hkeep _ _ hhome⟩

/-- A file in the place of another one. -/
theorem put_file {bytes bytes' : ByteArray} {time time' : Int} (h : d.IsTree)
    (hget : d.get? loc = some (.file bytes time)) : (d.put loc (.file bytes' time')).IsTree := by
  have hne : loc ≠ [] := by
    rintro rfl
    cases hget
  -- No directory changes, and no key is new.
  have hdir : ∀ l closed, d.get? l = some (.dir closed) →
      (d.put loc (.file bytes' time')).get? l = some (.dir closed) := by
    intro l closed hl
    rw [get_put_of_ne, hl]
    rintro rfl
    rw [hget] at hl
    cases hl
  have hold : ∀ l e, (d.put loc (.file bytes' time')).get? l = some e →
      ∃ e', d.get? l = some e' ∧ (e = e' ∨ l = loc ∧ e = .file bytes' time') := by
    intro l e hl
    by_cases heq : l = loc
    · subst heq
      rw [get_put_self hne] at hl
      exact ⟨_, hget, .inr ⟨rfl, (Option.some.inj hl).symm⟩⟩
    · rw [get_put_of_ne heq] at hl
      exact ⟨e, hl, .inl rfl⟩
  refine ⟨?_, ?_, ?_, ?_, ?_⟩
  · have hmem : loc ∈ d.entries.map (·.1) := List.mem_map.mpr ⟨_, mem_of_get hne hget, rfl⟩
    rw [keys_put, if_pos hmem]
    exact h.once
  · intro l s e hl
    obtain ⟨e', he', _⟩ := hold _ _ hl
    obtain ⟨closed, hclosed⟩ := h.inDir _ _ _ he'
    exact ⟨closed, hdir _ _ hclosed⟩
  · intro l e hl
    obtain ⟨e', he', _⟩ := hold _ _ hl
    exact h.fits _ _ he'
  · intro l e hl
    obtain ⟨e', he', rfl | ⟨_, rfl⟩⟩ := hold _ _ hl
    · exact h.noLink _ _ he'
    · rfl
  · obtain ⟨closed, hhome⟩ := h.home
    exact ⟨closed, by rw [put_home]; exact hdir _ _ hhome⟩

/-- A tree without what is at a location and below it, where the current directory stays. -/
theorem erase (h : d.IsTree) (hhome : ¬ loc <+: d.home) : (d.erase loc).IsTree := by
  have hkept : ∀ l e, (d.erase loc).get? l = some e → d.get? l = some e := by
    intro l e hl
    by_cases hnil : l = []
    · subst hnil
      exact hl
    · rw [get_erase hnil] at hl
      split at hl
      · cases hl
      · exact hl
  refine ⟨?_, ?_, ?_, ?_, ?_⟩
  · exact (List.filter_sublist.map _).nodup h.once
  · intro l s e hl
    obtain ⟨closed, hclosed⟩ := h.inDir _ _ _ (hkept _ _ hl)
    by_cases hnil : l = []
    · exact ⟨false, by rw [hnil]; rfl⟩
    · refine ⟨closed, ?_⟩
      rw [get_erase (by simp)] at hl
      rw [get_erase hnil, if_neg, hclosed]
      -- A directory that is erased takes the entry with it.
      intro hpre
      rw [if_pos (hpre.trans (List.prefix_append l [s]))] at hl
      cases hl
  · exact fun l e hl => h.fits _ _ (hkept _ _ hl)
  · exact fun l e hl => h.noLink _ _ (hkept _ _ hl)
  · obtain ⟨closed, hclosed⟩ := h.home
    by_cases hnil : d.home = []
    · exact ⟨false, by rw [erase_home, hnil]; rfl⟩
    · exact ⟨closed, by rw [erase_home, get_erase hnil, if_neg hhome, hclosed]⟩

end IsTree

/-- Disks with the same entries everywhere. -/
def SameTree (d d' : Disk) : Prop := ∀ loc, d'.get? loc = d.get? loc

end Disk

end RunCache
