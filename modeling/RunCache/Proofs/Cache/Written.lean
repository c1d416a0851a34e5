import RunCache.Proofs.Cache.Writing

/-! # What has been written where

    Writes follow one another, and one to a place takes the place of an
    earlier one there.

    * **`lastAt?`**: what some writes put to a place last.
    * **`Writing.files_written`**: after files have been written, each place
      holds what was written there last.
    * **`Writing.Wrote`**: a tree after some writes. -/

namespace RunCache

open Disk (Grows)

/-! ## The last write to a place -/

section LastAt

variable {α β : Type} [DecidableEq α]

/-- What some writes put to a place last. -/
def lastAt? : List (α × β) → α → Option β
  | [], _ => none
  | f :: rest, loc => (lastAt? rest loc).or (if f.1 = loc then some f.2 else none)

variable {writes : List (α × β)} {loc : α} {b : β}

@[simp] theorem lastAt_nil (loc : α) : lastAt? ([] : List (α × β)) loc = none := rfl

theorem lastAt_append (ws vs : List (α × β)) (loc : α) :
    lastAt? (ws ++ vs) loc = (lastAt? vs loc).or (lastAt? ws loc) := by
  induction ws with
  | nil => simp
  | cons f ws ih =>
    rw [List.cons_append, lastAt?, ih, Option.or_assoc]
    rfl

theorem mem_of_lastAt (h : lastAt? writes loc = some b) : (loc, b) ∈ writes := by
  induction writes with
  | nil => cases h
  | cons f rest ih =>
    rcases Option.or_eq_some_iff.mp h with hrest | ⟨_, hf⟩
    · exact List.mem_cons_of_mem f (ih hrest)
    · split at hf
      · next hloc =>
        rw [← hloc, ← Option.some.inj hf]
        exact List.mem_cons_self
      · cases hf

theorem lastAt_eq_none_iff : lastAt? writes loc = none ↔ ∀ f ∈ writes, f.1 ≠ loc := by
  induction writes with
  | nil => simp
  | cons f rest ih =>
    rw [lastAt?, Option.or_eq_none_iff, ih, List.forall_mem_cons, and_comm]
    simp

/-- Where no two writes go to one place, each of them is the last one to its place. -/
theorem lastAt_of_nodup (hnd : (writes.map (·.1)).Nodup) (h : (loc, b) ∈ writes) :
    lastAt? writes loc = some b := by
  cases hlast : lastAt? writes loc with
  | none => exact absurd rfl (lastAt_eq_none_iff.mp hlast _ h)
  | some c =>
    have hsame := List.inj_on_of_nodup_map hnd h (mem_of_lastAt hlast) rfl
    rw [(Prod.mk.inj hsame).2]

/-- Where all writes to a place put the same there, it does not matter which is the last. -/
theorem lastAt_of_same (h : (loc, b) ∈ writes) (hsame : ∀ c, (loc, c) ∈ writes → c = b) :
    lastAt? writes loc = some b := by
  cases hlast : lastAt? writes loc with
  | none => exact absurd rfl (lastAt_eq_none_iff.mp hlast _ h)
  | some c => rw [hsame c (mem_of_lastAt hlast)]

/-- Places may be called by other names, if no two get one name. -/
theorem lastAt_map {γ : Type} [DecidableEq γ] (g : α → γ) (hg : ∀ a c, g a = g c → a = c)
    (writes : List (α × β)) (loc : α) :
    lastAt? (writes.map fun f => (g f.1, f.2)) (g loc) = lastAt? writes loc := by
  induction writes with
  | nil => rfl
  | cons f rest ih =>
    have hiff : g f.1 = g loc ↔ f.1 = loc := ⟨hg _ _, congrArg g⟩
    rw [List.map_cons, lastAt?, lastAt?, ih]
    simp only [hiff]

end LastAt

/-! ## Writing files -/

namespace Writing

variable {x y : Writing} {now : Int} {files : List (Path × ByteArray)}

/-- The places that files are written to, with their bytes. -/
def places (d : Disk) (files : List (Path × ByteArray)) : List (Location × ByteArray) :=
  files.map fun f => (d.place f.1, f.2)

theorem mem_places {d : Disk} {e : Location × ByteArray} :
    e ∈ places d files ↔ ∃ f ∈ files, (d.place f.1, f.2) = e := List.mem_map

/-- A tree after some writes: each place that was written to holds what was put there last, and
    otherwise only directories above these places are new. A file is found under each path. -/
structure Wrote (files : List (Path × ByteArray)) (now : Int) (d d' : Disk) : Prop where
  tree : d'.IsTree
  grows : Grows (dirPlaces d files) (filePlaces d files) d d'
  written : ∀ loc bytes, lastAt? (places d files) loc = some bytes →
    d'.get? loc = some (.file bytes now)
  found : ∀ f ∈ files, ∃ loc bytes time, d'.stat true f.1 = .ok (loc, .file bytes time)

namespace Wrote

variable {d d' : Disk} {loc : Location}

/-- What has not been written is as it was, or it is a directory that was missing. -/
theorem kept (h : Wrote files now d d') (hnone : lastAt? (places d files) loc = none) :
    d'.get? loc = d.get? loc ∨
      (dirPlaces d files loc ∧ d.get? loc = none ∧ d'.get? loc = some (.dir false)) := by
  have hnot : ¬ filePlaces d files loc := by
    rintro ⟨f, hf, rfl⟩
    exact lastAt_eq_none_iff.mp hnone _ (List.mem_map_of_mem hf) rfl
  cases hget : d.get? loc with
  | some e => exact .inl (h.grows.kept hget hnot)
  | none =>
    rcases h.grows.new hget with hnew | ⟨hdirs, hnew⟩ | ⟨hfiles, _⟩
    · exact .inl hnew
    · exact .inr ⟨hdirs, rfl, hnew⟩
    · exact absurd hfiles hnot

/-- What is read under a path is what was put to its place last. -/
theorem readFile {f : Path × ByteArray} {bytes : ByteArray} (h : Wrote files now d d')
    (hf : f ∈ files) (hlast : lastAt? (places d files) (d.place f.1) = some bytes) :
    d'.readFile f.1 = .ok bytes := by
  obtain ⟨loc, b, time, hstat⟩ := h.found f hf
  obtain ⟨_, hget⟩ := h.tree.stat_ok hstat
  rw [Disk.place_congr h.grows.home, h.written _ _ hlast] at hget
  rw [Disk.readFile, hstat]
  exact congrArg Except.ok (Entry.file.inj (Option.some.inj hget)).1.symm

end Wrote

/-- A file that has been written is at its place, in a tree that has only grown. -/
theorem file_wrote {f : Path × ByteArray} (hx : x.disk.IsTree)
    (h : x.file now f.1 f.2 = (.ok (), y)) : Wrote [f] now x.disk y.disk := by
  have htracks : y.Tracks x.disk [f] := by
    have hkept : (x.file now f.1 f.2).2.Tracks x.disk [f] :=
      file_invariant (fun _ hdir _ hz => hz.makeDirs (by simp) hdir)
        (fun _ hz => hz.put (by simp)) ⟨hx, .refl _⟩
    rwa [h] at hkept
  -- The last step was to put the bytes under the path, which leads to its place.
  have hput : ∀ z : Writing, z.put now f.1 f.2 = (.ok (), y) →
      ∃ loc, y.disk.stat true f.1 = .ok (loc, .file f.2 now) := by
    intro z hz
    unfold put at hz
    split at hz
    · cases hz
    · next d hw =>
      obtain ⟨_, rfl⟩ := Prod.mk.inj hz
      obtain ⟨loc, _, hstat⟩ := Disk.stat_of_writeFile hw
      exact ⟨loc, hstat⟩
  obtain ⟨loc, hstat⟩ : ∃ loc, y.disk.stat true f.1 = .ok (loc, .file f.2 now) := by
    unfold file at h
    split at h
    · exact hput x h
    · split at h
      · cases h
      · next z _ => exact hput z h
  refine ⟨htracks.tree, htracks.grows, fun loc bytes hlast => ?_, fun g hg => ?_⟩
  · obtain ⟨hloc, hbytes⟩ := Prod.mk.inj (List.mem_singleton.mp (mem_of_lastAt hlast))
    rw [hloc, hbytes, ← Disk.place_congr htracks.grows.home f.1]
    exact (htracks.tree.stat_ok hstat).2
  · rw [List.mem_singleton.mp hg]
    exact ⟨loc, f.2, now, hstat⟩

/-- Writes go on from writes. -/
theorem Wrote.trans {files' : List (Path × ByteArray)} {d d' d'' : Disk}
    (h : Wrote files now d d') (h' : Wrote files' now d' d'') :
    Wrote (files ++ files') now d d'' := by
  have hplace : ∀ p, d'.place p = d.place p := Disk.place_congr h.grows.home
  have hplaces : places d (files ++ files') = places d files ++ places d' files' := by
    simp [places, hplace]
  refine ⟨h'.tree, ?_, fun loc bytes hlast => ?_, fun f hf => ?_⟩
  · refine (h.grows.mono ?_ ?_).trans (h'.grows.mono ?_ ?_)
    · rintro loc ⟨f, hf, hdir⟩
      exact ⟨f, List.mem_append_left _ hf, hdir⟩
    · rintro loc ⟨f, hf, hloc⟩
      exact ⟨f, List.mem_append_left _ hf, hloc⟩
    · rintro loc ⟨f, hf, dir, hdir, q, hq, rfl⟩
      exact ⟨f, List.mem_append_right _ hf, dir, hdir, q, hq, hplace q⟩
    · rintro loc ⟨f, hf, rfl⟩
      exact ⟨f, List.mem_append_right _ hf, hplace f.1⟩
  · rw [hplaces, lastAt_append] at hlast
    -- What is written later takes the place of what was there; nothing else does.
    rcases Option.or_eq_some_iff.mp hlast with hlater | ⟨hnone, hbefore⟩
    · exact h'.written loc bytes hlater
    · have hget := h.written loc bytes hbefore
      rcases h'.kept hnone with hsame | ⟨_, hmissing, _⟩
      · rw [hsame, hget]
      · rw [hget] at hmissing
        cases hmissing
  · rcases List.mem_append.mp hf with hf | hf
    · obtain ⟨loc, bytes, time, hstat⟩ := h.found f hf
      obtain ⟨bytes', time', _, hstat'⟩ := h'.grows.stat_file hstat
      exact ⟨loc, bytes', time', hstat'⟩
    · exact h'.found f hf

theorem Wrote.refl {d : Disk} (hd : d.IsTree) (now : Int) : Wrote [] now d d :=
  ⟨hd, .refl d, by simp [places], by simp⟩

/-- After files have been written, each place holds what was written there last. -/
theorem files_written (hx : x.disk.IsTree) (h : x.files now files = (.ok (), y)) :
    Wrote files now x.disk y.disk := by
  induction files generalizing x with
  | nil =>
    obtain ⟨_, rfl⟩ := Prod.mk.inj h
    exact .refl hx now
  | cons f rest ih =>
    unfold files at h
    split at h
    · cases h
    · next z hfile =>
      have hz := file_wrote (f := f) hx hfile
      exact hz.trans (ih hz.tree h)

end Writing

/-- After files have been written to a disk, each place holds what was written there last. -/
theorem writeAll_written {d d' : Disk} {now : Int} {files : List (Path × ByteArray)}
    (hd : d.IsTree) (h : writeAll d now files = (.ok (), d')) : Writing.Wrote files now d d' := by
  obtain ⟨x, hfiles, rfl⟩ := writeAll_ok h
  exact Writing.files_written hd hfiles

end RunCache
