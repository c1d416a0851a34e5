import RunCache.Proofs.Disk.Growth

/-! # Disks that lack a part of another one

    At and below one location a disk may lack what another one holds there.
    Everywhere else the two hold the same.

    * **`Disk.PartOf`**: a disk that lacks at most what another one holds
      at and below a location.
    * **`PartOf.foldl_erase`**: it goes on being one whatever is erased
      there.
    * **`PartOf.grows`**: it has grown out of every disk that held nothing
      there.
    * **`Disk.Rewritten`**: a disk whose files at and below a location have
      been written again. -/

namespace RunCache

namespace Entry

/-- An entry, had its file been written at a time. -/
def writtenAt (now : Int) : Entry → Entry
  | .file bytes _ => .file bytes now
  | e => e

/-- What is there has been written at some time. -/
theorem exists_writtenAt (e : Entry) : ∃ time, e.writtenAt time = e := by
  cases e with
  | file bytes time => exact ⟨time, rfl⟩
  | dir => exact ⟨0, rfl⟩
  | link => exact ⟨0, rfl⟩

@[simp] theorem writtenAt_writtenAt (e : Entry) (before now : Int) :
    (e.writtenAt before).writtenAt now = e.writtenAt now := by
  cases e <;> rfl

end Entry

namespace Disk

variable {full base d d' : Disk} {hole loc : Location} {e : Entry} {now : Int}

/-! ## Parts -/

/-- A tree that lacks at most what another one holds at and below a location. Files there may have
    been written at other times. -/
structure PartOf (full : Disk) (hole : Location) (d : Disk) : Prop where
  tree : d.IsTree
  home : d.home = full.home
  outside : ∀ loc, ¬ hole <+: loc → d.get? loc = full.get? loc
  held : ∀ loc e, d.get? loc = some e → ∃ e' time, full.get? loc = some e' ∧ e = e'.writtenAt time

namespace PartOf

theorem refl (h : full.IsTree) (hole : Location) : full.PartOf hole full := by
  refine ⟨h, rfl, fun _ _ => rfl, fun loc e hget => ?_⟩
  obtain ⟨time, htime⟩ := e.exists_writtenAt
  exact ⟨e, time, hget, htime.symm⟩

theorem erase (h : full.PartOf hole d) (hpre : hole <+: loc) (hhome : ¬ hole <+: full.home) :
    full.PartOf hole (d.erase loc) := by
  have hne : ∀ l : Location, l = [] → ¬ hole <+: l := by
    rintro l rfl hnil
    exact hhome (List.prefix_nil.mp hnil ▸ List.nil_prefix)
  have htree : (d.erase loc).IsTree :=
    h.tree.erase fun habove => hhome (hpre.trans (h.home ▸ habove))
  refine ⟨htree, h.home, fun l hl => ?_, fun l e hget => ?_⟩
  · rw [← h.outside l hl]
    by_cases hnil : l = []
    · rw [hnil]
      rfl
    · rw [get_erase hnil, if_neg fun hbelow => hl (hpre.trans hbelow)]
  · -- What is still there has been there before.
    refine h.held l e ?_
    by_cases hnil : l = []
    · rw [hnil] at hget ⊢
      exact hget
    · rw [get_erase hnil] at hget
      split at hget
      · cases hget
      · exact hget

/-- Whatever is erased at and below the location. -/
theorem foldl_erase (h : full.PartOf hole d) {gone : List Location}
    (hgone : ∀ loc ∈ gone, hole <+: loc) (hhome : ¬ hole <+: full.home) :
    full.PartOf hole (gone.foldl Disk.erase d) := by
  induction gone generalizing d with
  | nil => exact h
  | cons loc gone ih =>
    exact ih (h.erase (hgone loc (by simp)) hhome) fun l hl => hgone l (List.mem_cons_of_mem loc hl)

/-- A part has grown out of every disk out of which the whole has grown, if that held nothing at and
    below the location. -/
theorem grows {dirs files : Location → Prop} (h : full.PartOf hole d)
    (hg : Grows dirs files base full) (hnone : ∀ loc, hole <+: loc → base.get? loc = none) :
    Grows (fun _ => True) (fun _ => True) base d := by
  refine ⟨h.home.trans hg.home, fun loc => ?_⟩
  by_cases hloc : hole <+: loc
  · rw [hnone loc hloc]
    cases hget : d.get? loc with
    | none => exact .same _
    | some e =>
      obtain ⟨e', time, hfull, rfl⟩ := h.held loc e hget
      rcases hg.new (hnone loc hloc) with hnew | ⟨_, hnew⟩ | ⟨_, bytes, time', hnew⟩
      · rw [hfull] at hnew
        cases hnew
      · obtain rfl := Option.some.inj (hfull.symm.trans hnew)
        exact .made trivial
      · obtain rfl := Option.some.inj (hfull.symm.trans hnew)
        exact .wrote trivial _ _ (.inl rfl)
  · rw [h.outside loc hloc]
    exact (hg.later loc).mono (fun _ => trivial) fun _ => trivial

/-- Where the whole holds a file, a part holds no directory. -/
theorem not_dir {bytes : ByteArray} {time : Int} (h : full.PartOf hole d)
    (hfull : full.get? loc = some (.file bytes time)) (closed : Bool) :
    d.get? loc ≠ some (.dir closed) := by
  intro hget
  obtain ⟨e', time', hfull', he⟩ := h.held loc _ hget
  obtain rfl := Option.some.inj (hfull.symm.trans hfull')
  cases he

end PartOf

/-! ## Files written again -/

/-- The same disk, with the files at and below a location written at a time. -/
def Rewritten (d : Disk) (hole : Location) (now : Int) (d' : Disk) : Prop :=
  ∀ loc, d'.get? loc = if hole <+: loc then (d.get? loc).map (Entry.writtenAt now) else d.get? loc

/-- Two times the same files have been written again. -/
theorem Rewritten.again {before : Int} (h : full.Rewritten hole before d)
    (h' : full.Rewritten hole now d') : d.Rewritten hole now d' := by
  intro loc
  rw [h' loc, h loc]
  split
  · rw [Option.map_map]
    congr 1
    funext e
    exact (e.writtenAt_writtenAt before now).symm
  · rfl

/-- A part that holds again what it lacked, written at a time. -/
theorem PartOf.rewritten (h : full.PartOf hole d)
    (hall : ∀ loc e, hole <+: loc → full.get? loc = some e →
      d.get? loc = some (e.writtenAt now)) : full.Rewritten hole now d := by
  intro loc
  split
  · next hloc =>
    cases hfull : full.get? loc with
    | some e => exact hall loc e hloc hfull
    | none =>
      cases hget : d.get? loc with
      | none => rfl
      | some e =>
        obtain ⟨e', _, hfull', _⟩ := h.held loc e hget
        rw [hfull] at hfull'
        cases hfull'
  · next hloc => exact h.outside loc hloc

end Disk

end RunCache
