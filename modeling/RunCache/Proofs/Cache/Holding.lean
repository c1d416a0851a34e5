import RunCache.Proofs.Cache.Writing

/-! # Files that have been written

    Whatever else is written later, a file that has been written is found
    under its path, with the bytes of the last write that led to it.

    * **`Disk.Holds`**: a file with the bytes of one of some writes.
    * **`Writing.files_hold`**: where all files could be written, the disk
      holds them.
    * **`writeAll_keeps`**: what is held survives a write that fails. -/

namespace RunCache

open Disk (Grows Makes)

/-- The file at a path has the bytes of one of some writes, whose path leads to the same file. -/
def Disk.Holds (writes : List (Path × ByteArray)) (d : Disk) (p : Path) : Prop :=
  ∃ e ∈ writes, ∃ loc time, d.stat true p = .ok (loc, .file e.2 time) ∧
    d.stat true e.1 = .ok (loc, .file e.2 time)

namespace Disk.Holds

variable {writes writes' : List (Path × ByteArray)} {d d' : Disk} {p : Path}

theorem mono (h : Holds writes d p) (hsub : writes ⊆ writes') : Holds writes' d p := by
  obtain ⟨e, he, loc, time, hp, hpe⟩ := h
  exact ⟨e, hsub he, loc, time, hp, hpe⟩

/-- Directories that are made change no file. -/
theorem makes {paths : List Path} (h : Holds writes d p) (hm : Makes paths d d') :
    Holds writes d' p := by
  obtain ⟨e, he, loc, time, hp, hpe⟩ := h
  have hsame : d'.get? loc = some (.file e.2 time) :=
    hm.grows.kept (Disk.get_of_stat_file hp) id
  refine ⟨e, he, loc, time, ?_, ?_⟩
  · obtain ⟨bytes, time', hget, hstat⟩ := hm.grows.stat_file hp
    rw [hstat, ← Option.some.inj (hget.symm.trans hsame)]
  · obtain ⟨bytes, time', hget, hstat⟩ := hm.grows.stat_file hpe
    rw [hstat, ← Option.some.inj (hget.symm.trans hsame)]

/-- One more write leaves the file alone or takes its place. -/
theorem writeFile {now : Int} {f : Path × ByteArray} (h : Holds writes d p) (hf : f ∈ writes)
    (hw : d.writeFile now f.1 f.2 = .ok d') : Holds writes d' p := by
  have hgrows : Grows (fun _ => True) (fun _ => True) d d' :=
    Disk.writeFile_grows hw (fun _ _ _ => trivial) fun _ _ _ => trivial
  obtain ⟨e, he, loc, time, hp, hpe⟩ := h
  obtain ⟨bytes, time', hget, hp'⟩ := hgrows.stat_file hp
  obtain ⟨loc', rfl, hwritten⟩ := Disk.stat_of_writeFile hw
  -- The write leads to the same file or to another one.
  by_cases hloc : loc = loc'
  · subst hloc
    obtain ⟨rfl, rfl⟩ := Entry.file.inj
      (Option.some.inj (hget.symm.trans (Disk.get_of_stat_file hwritten)))
    exact ⟨f, hf, loc, _, hp', hwritten⟩
  · rw [Disk.get_put_of_ne hloc, Disk.get_of_stat_file hp] at hget
    obtain ⟨rfl, rfl⟩ := Entry.file.inj (Option.some.inj hget)
    obtain ⟨bytes, time', hget', hpe'⟩ := hgrows.stat_file hpe
    rw [Disk.get_put_of_ne hloc, Disk.get_of_stat_file hp] at hget'
    rw [← Option.some.inj hget'] at hpe'
    exact ⟨e, he, loc, _, hp', hpe'⟩

end Disk.Holds

namespace Writing

variable {x y : Writing} {now : Int} {files writes : List (Path × ByteArray)} {p : Path}

theorem makeDirs_holds {dir : Path} (h : x.disk.Holds writes p) :
    (x.makeDirs dir).2.disk.Holds writes p := by
  rcases x.makeDirs_cases dir with hx | ⟨y, _, _, hmakes⟩
  · rwa [hx]
  · exact h.makes hmakes

theorem put_holds {f : Path × ByteArray} (h : x.disk.Holds writes p) (hf : f ∈ writes) :
    (x.put now f.1 f.2).2.disk.Holds writes p := by
  rcases x.put_cases now f.1 f.2 with hx | ⟨d, hw, hx⟩
  · rwa [hx]
  · rw [hx]
    exact h.writeFile hf hw

/-- A file that is held stays held while others are written. -/
theorem files_keep (now : Int) (h : x.disk.Holds writes p) (hsub : files ⊆ writes) :
    (x.files now files).2.disk.Holds writes p :=
  files_invariant (P := fun x => x.disk.Holds writes p) (fun _ _ _ _ _ hx => makeDirs_holds hx)
    (fun _ he _ hx => put_holds hx (hsub he)) h

/-- A file that could be written is held. -/
theorem file_holds {f : Path × ByteArray} (h : x.file now f.1 f.2 = (.ok (), y))
    (hf : f ∈ writes) : y.disk.Holds writes f.1 := by
  have hput : ∀ x : Writing, x.put now f.1 f.2 = (.ok (), y) → y.disk.Holds writes f.1 := by
    intro x hx
    unfold put at hx
    split at hx
    · cases hx
    · next d hw =>
      obtain ⟨_, rfl⟩ := Prod.mk.inj hx
      obtain ⟨loc, _, hstat⟩ := Disk.stat_of_writeFile hw
      exact ⟨f, hf, loc, now, hstat, hstat⟩
  unfold file at h
  split at h
  · exact hput x h
  · split at h
    · cases h
    · next z _ => exact hput z h

/-- Where all files could be written, the disk holds them. -/
theorem files_hold (h : x.files now files = (.ok (), y)) (hsub : files ⊆ writes) :
    ∀ f ∈ files, y.disk.Holds writes f.1 := by
  induction files generalizing x with
  | nil => simp
  | cons f rest ih =>
    have hrest : rest ⊆ writes := (List.cons_subset.mp hsub).2
    unfold files at h
    split at h
    · cases h
    · next z hfile =>
      intro g hg
      rcases List.mem_cons.mp hg with rfl | hg
      · have hheld := files_keep now (file_holds hfile (hsub (by simp))) hrest
        rwa [h] at hheld
      · exact ih h hrest g hg

end Writing

/-- Files below rooted paths that are held stay held while others are written, also where that fails
    and what was made for them is removed again. -/
theorem writeAll_keeps {d d' : Disk} {now : Int} {files held : List (Path × ByteArray)} {p : Path}
    {result : Except Error Unit} (hd : d.IsTree) (hrooted : ∀ f ∈ held, f.1.IsRooted)
    (hsub : files ⊆ held) (hp : p.IsRooted) (h : d.Holds held p)
    (hw : writeAll d now files = (result, d')) : d'.Holds held p := by
  have htracks := Writing.files_tracks hd now files
  have hcovers := Writing.files_covers hd now fun f hf => hrooted f (hsub hf)
  have hkept := Writing.files_keep now (x := ⟨d, []⟩) h hsub
  unfold writeAll at hw
  split at hw
  · next x hfiles =>
    rw [hfiles] at hkept
    obtain ⟨_, rfl⟩ := Prod.mk.inj hw
    exact hkept
  · next e' x hfiles =>
    rw [hfiles] at htracks hcovers hkept
    obtain ⟨_, rfl⟩ := Prod.mk.inj hw
    obtain ⟨_, hsame, _⟩ := Writing.undone_spec hd htracks hcovers
    obtain ⟨_, _, loc₀, time₀, hbefore, _⟩ := h
    obtain ⟨e, he, loc, time, hstat, hstat'⟩ := hkept
    have hloc : loc = loc₀ := by
      rw [(htracks.tree.stat_ok hstat).1, (hd.stat_ok hbefore).1]
      exact Disk.place_congr htracks.grows.home p
    -- Everything on the way to the file was there before, so it is not removed.
    have hagree : ∀ l, l <+: loc → x.undone.get? l = x.disk.get? l := by
      intro l hl
      rw [hloc] at hl
      have hfile := Disk.get_of_stat_file hbefore
      by_cases hend : l = loc₀
      · exact hsame l _ (hend ▸ hfile)
      · obtain ⟨closed, hdir⟩ := hd.dir_above hfile hl hend
        exact hsame l _ hdir
    exact ⟨e, he, loc, time, htracks.tree.stat_of_agree hp hstat hagree,
      htracks.tree.stat_of_agree (hrooted e he) hstat' hagree⟩

end RunCache
