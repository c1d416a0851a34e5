import RunCache.Proofs.Cache.Writing

/-! # New directories and what is noted of them

    Files may be tried one after the other in any order and with any
    success, and the directories they need may overlap.  However it goes,
    what is noted marks what is new: none of it was there before, each new
    directory lies in some of it, and nothing noted lies in another.

    * **`Writing.attempts`**: files tried one after the other, where one
      that fails does not end the rest.
    * **`Writing.Topmost`**: nothing noted lies in another, and what is
      above it is there.  The search before a directory is made keeps it
      so (`Topmost.plan`), and so does a disk that grows.
    * **`Writing.attempts_mark_new`**: what is noted marks what is new,
      after any attempts. -/

namespace RunCache

open Disk (Grows)

namespace Writing

variable {x y : Writing} {d : Disk} {dir p : Path} {now : Int} {files : List (Path × ByteArray)}

/-! ## Attempts -/

/-- A file that is to be written, and the time at which it is tried. -/
structure Attempt where
  time : Int
  file : Path × ByteArray

/-- Files tried one after the other, each with what the one before has left, also where that has
    failed. -/
def attempts (x : Writing) (tried : List Attempt) : Writing :=
  tried.foldl (fun x a => (x.file a.time a.file.1 a.file.2).2) x

@[simp] theorem attempts_nil (x : Writing) : x.attempts [] = x := rfl

@[simp] theorem attempts_cons (x : Writing) (a : Attempt) (rest : List Attempt) :
    x.attempts (a :: rest) = (x.file a.time a.file.1 a.file.2).2.attempts rest := rfl

/-! ## The topmost new directories -/

/-- Of what is noted nothing is another or lies in it, and all that is above it is there. -/
structure Topmost (x : Writing) : Prop where
  apart : x.made.Pairwise fun p q => ¬ p.names <+: q.names ∧ ¬ q.names <+: p.names
  above : ∀ p ∈ x.made, ∀ loc, loc <+: p.names → loc ≠ p.names → x.disk.get? loc ≠ none

theorem Topmost.start (d : Disk) : (Writing.mk d []).Topmost :=
  ⟨.nil, fun _ hp => absurd hp List.not_mem_nil⟩

/-- While nothing more is noted the disk may grow. -/
theorem Topmost.grows {dirs written : Location → Prop} (h : x.Topmost) (hmade : y.made = x.made)
    (hgrows : Grows dirs written x.disk y.disk) : y.Topmost := by
  refine ⟨hmade ▸ h.apart, fun p hp loc hpre hne hnone => ?_⟩
  rw [hmade] at hp
  exact h.above p hp loc hpre hne (hgrows.missing hnone)

/-- Something missing is noted, where all above it is there. -/
theorem Topmost.note (h : x.Topmost) (hnoted : ∀ q ∈ x.made, q.IsRooted) (hp : p.IsRooted)
    (hnone : x.disk.get? p.names = none)
    (habove : ∀ loc, loc <+: p.names → loc ≠ p.names → x.disk.get? loc ≠ none) :
    (x.note p).Topmost := by
  unfold Writing.note
  split
  · exact h
  · next hany =>
    have hout : ∀ q ∈ x.made, ¬ q.names <+: p.names := by
      intro q hq hpre
      exact hany (List.any_eq_true.mpr ⟨q, hq, (hp.isBelow_iff (hnoted q hq)).mpr hpre⟩)
    -- Nor does it lie above anything noted: then it would be there.
    have hin : ∀ q ∈ x.made, ¬ p.names <+: q.names := by
      intro q hq hpre
      by_cases heq : p.names = q.names
      · exact hout q hq (heq ▸ List.prefix_rfl)
      · exact h.above q hq _ hpre heq hnone
    refine ⟨List.pairwise_cons.mpr ⟨fun q hq => ⟨hin q hq, hout q hq⟩, h.apart⟩, ?_⟩
    intro q hq
    rcases List.mem_cons.mp hq with rfl | hq
    · exact habove
    · exact h.above q hq

/-- The search for the outermost missing directory notes one that has all above it. -/
theorem Topmost.plan (h : x.Topmost) (hx : x.disk.IsTree) (hnoted : ∀ q ∈ x.made, q.IsRooted)
    (hdir : dir.IsRooted) (htrim : dir.IsTrimmed) (hplan : x.plan dir = .ok y) : y.Topmost := by
  rcases plan_notes hx (fun q hq => hdir.above htrim hq) hplan with
    ⟨rfl, _⟩ | ⟨p, hmem, rfl, _, hnone, hall⟩
  · exact h
  · refine h.note hnoted (hdir.of_mem_ancestors hmem) hnone fun loc hpre hne hmissing => ?_
    -- Another missing one above it would be further out.
    obtain ⟨q, hq, rfl⟩ :=
      hdir.exists_mem_ancestors (hpre.trans (Path.mem_ancestorsWithin hmem).2.1)
    exact hne (hpre.eq_of_length_le (hall q hq hmissing).length_le)

theorem Topmost.makeDirs (h : x.Topmost) (hx : x.disk.IsTree) (hnoted : ∀ q ∈ x.made, q.IsRooted)
    (hdir : dir.IsRooted) (htrim : dir.IsTrimmed) : (x.makeDirs dir).2.Topmost := by
  rcases x.makeDirs_cases dir with hy | ⟨y, hplan, hmade, hmakes⟩
  · rw [hy]
    exact h
  · have hy := h.plan hx hnoted hdir htrim hplan
    -- However many of the directories have been made, the disk has grown.
    exact hy.grows hmade (plan_disk hplan ▸ hmakes.grows)

theorem Topmost.put {target : Path} {bytes : ByteArray} (h : x.Topmost) :
    (x.put now target bytes).2.Topmost := by
  obtain ⟨hmade, hgrows⟩ := x.put_grows now target bytes
  exact h.grows hmade hgrows

/-! ## What is noted and what is new -/

/-- What is noted marks what is new since a disk: nothing noted is another or lies in it, none of it
    was there, and a directory that was not lies in one that is noted or is one. -/
structure MarksNew (d : Disk) (x : Writing) : Prop where
  apart : x.made.Pairwise fun p q => ¬ d.place p <+: d.place q ∧ ¬ d.place q <+: d.place p
  missing : ∀ p ∈ x.made, d.get? (d.place p) = none
  covered : ∀ loc, (∃ closed, x.disk.get? loc = some (.dir closed)) →
    (∀ closed, d.get? loc ≠ some (.dir closed)) → ∃ p ∈ x.made, d.place p <+: loc

/-- What every attempt keeps: besides, only files and directories above them are new, and each new
    directory lies in one that is noted. -/
structure Marking (d : Disk) (files : List (Path × ByteArray)) (x : Writing) : Prop where
  tracks : x.Tracks d files
  covers : x.Covers d
  topmost : x.Topmost

theorem Marking.start (hd : d.IsTree) : (Writing.mk d []).Marking d files :=
  ⟨.start hd, .start d, .start d⟩

/-- One attempt, whether it fails or not. -/
theorem Marking.file {e : Path × ByteArray} (h : x.Marking d files) (he : e ∈ files)
    (hrooted : e.1.IsRooted) : (x.file now e.1 e.2).2.Marking d files := by
  refine file_invariant (P := Marking d files) ?_ ?_ h
  · intro dir hparent x hx
    obtain ⟨hdir, htrim, _⟩ := hrooted.of_parent hparent
    have hnoted : ∀ q ∈ x.made, q.IsRooted := fun q hq => (hx.covers.noted q hq).1
    exact ⟨hx.tracks.makeDirs he hparent, hx.covers.makeDirs hx.tracks hdir htrim,
      hx.topmost.makeDirs hx.tracks.tree hnoted hdir htrim⟩
  · exact fun x hx => ⟨hx.tracks.put he, hx.covers.put, hx.topmost.put⟩

/-- Any number of attempts. -/
theorem Marking.attempts {tried : List Attempt} (h : x.Marking d files)
    (hfiles : ∀ a ∈ tried, a.file ∈ files ∧ a.file.1.IsRooted) :
    (x.attempts tried).Marking d files := by
  induction tried generalizing x with
  | nil => rwa [attempts_nil]
  | cons a rest ih =>
    obtain ⟨ha, hrooted⟩ := hfiles a (by simp)
    rw [attempts_cons]
    exact ih (h.file ha hrooted) fun b hb => hfiles b (List.mem_cons_of_mem a hb)

theorem Marking.marksNew (h : x.Marking d files) : x.MarksNew d := by
  have hplace : ∀ p ∈ x.made, d.place p = p.names :=
    fun p hp => Disk.place_of_isRooted (h.covers.noted p hp).1 d
  refine ⟨h.topmost.apart.imp_of_mem fun hp hq hpq => ?_, fun p hp => ?_, ?_⟩
  · rwa [hplace _ hp, hplace _ hq]
  · rw [hplace p hp]
    exact (h.covers.noted p hp).2.2.2
  · rintro loc ⟨closed, hget⟩ hnot
    rcases h.tracks.grows.dir_before hget with hold | ⟨_, hnone⟩
    · exact absurd hold (hnot closed)
    · obtain ⟨p, hp, hpre⟩ := h.covers.covered loc closed hget hnone
      exact ⟨p, hp, by rwa [hplace p hp]⟩

/-- After any attempts to write files into a tree, whether they fail or not, what is noted marks what
    is new. -/
theorem attempts_mark_new (hd : d.IsTree) {tried : List Attempt}
    (hrooted : ∀ a ∈ tried, a.file.1.IsRooted) :
    ((Writing.mk d []).attempts tried).MarksNew d := by
  have hstart : (Writing.mk d []).Marking d (tried.map (·.file)) := .start hd
  exact (hstart.attempts fun a ha => ⟨List.mem_map_of_mem ha, hrooted a ha⟩).marksNew

/-! ### Overlapping directories -/

/-- A directory with a file in it, and one that takes no entries. -/
def guardedDisk : Disk where
  entries :=
    [(["work"], .dir false), (["work", "by-name"], .file ⟨#[]⟩ 0), (["proc"], .dir true)]

theorem guardedDisk_isTree : guardedDisk.IsTree :=
  .of_entries (by decide) (by decide +kernel) rfl

/-- Files in directories that overlap. For the second a file is in the way, and the directory noted
    for the third cannot be made. -/
def overlapping : List Attempt :=
  [⟨1, (⟨"/work/logs/job/1/prowjob.json"⟩, ⟨#[]⟩)⟩,
    ⟨2, (⟨"/work/by-name/job/prowjob.yaml"⟩, ⟨#[]⟩)⟩,
    ⟨3, (⟨"/proc/logs/job"⟩, ⟨#[]⟩)⟩,
    ⟨4, (⟨"/work/logs/other/2/x"⟩, ⟨#[]⟩)⟩,
    ⟨5, (⟨"/new/logs/job"⟩, ⟨#[]⟩)⟩]

theorem attempts_mark_new_overlapping :
    ((Writing.mk guardedDisk []).attempts overlapping).made =
        [⟨"/new"⟩, ⟨"/proc/logs"⟩, ⟨"/work/logs"⟩] ∧
      ((Writing.mk guardedDisk []).attempts overlapping).disk.isDir ⟨"/proc/logs"⟩ = false ∧
      ((Writing.mk guardedDisk []).attempts overlapping).MarksNew guardedDisk := by
  have hrooted : ∀ a ∈ overlapping, a.file.1.IsRooted := by
    intro a ha
    simp only [overlapping, List.mem_cons, List.not_mem_nil, or_false] at ha
    rcases ha with rfl | rfl | rfl | rfl | rfl <;> exact ⟨by decide +kernel, by decide +kernel⟩
  exact ⟨by decide +kernel, by decide +kernel, attempts_mark_new guardedDisk_isTree hrooted⟩

end Writing

end RunCache
