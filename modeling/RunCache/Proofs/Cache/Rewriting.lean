import RunCache.Bucket.Memory
import RunCache.Proofs.Cache.Contents
import RunCache.Proofs.Cache.Written
import RunCache.Proofs.Disk.Standing

/-! # Writing again

    What a run has needed for a write it remembers, and what the write has
    made is there.  So the same write can be made again: it reads nothing,
    makes nothing, and puts the bytes that are there where they are.

    * **`Writing.files_there`**: files that are there can all be written.
    * **`Writing.files_hasFile`**: files that have been written are there.
    * **`Disk.Retimed`**: only the times of files are others.
    * **`Run.write_again`**: a run that has been written, written again. -/

namespace RunCache

open Disk (Grows)

namespace Writing

variable {x y : Writing} {dir target : Path} {now : Int} {files : List (Path × ByteArray)}

/-! ## Files that are there -/

/-- Where a directory is there, none is made; the empty path stands for the one where paths
    start. -/
theorem makeDirs_there (hx : x.disk.IsTree) (h : dir.text = "" ∨ x.disk.isDir dir = true) :
    ∃ y, x.makeDirs dir = (.ok (), y) ∧ y.disk = x.disk := by
  rcases h with hempty | hdir
  · obtain rfl : dir = ⟨""⟩ := congrArg Path.mk hempty
    have hmissing : x.disk.exists? ⟨""⟩ = .ok false := by
      simp [Disk.exists?, Disk.stat, Disk.lookup, Disk.locate, Disk.accept]
    have hplan : x.plan ⟨""⟩ = .ok (x.note ⟨""⟩) := by
      rw [plan, probe, hmissing]
      rfl
    refine ⟨x.note ⟨""⟩, ?_, note_disk x _⟩
    rw [makeDirs, hplan]
    rfl
  · have hplan : x.plan dir = .ok x := by
      rw [plan, probe, Disk.exists_of_isDir hdir]
      rfl
    refine ⟨x, ?_, rfl⟩
    rw [makeDirs, hplan]
    simp only [hx.makeDirs_of_isDir hdir]
    rfl

/-- A file that is there can be written, and nothing else changes. -/
theorem file_there (hx : x.disk.IsTree) (h : x.disk.HasFile target) (now : Int)
    (bytes : ByteArray) :
    ∃ y loc old time, x.file now target bytes = (.ok (), y) ∧
      x.disk.get? loc = some (.file old time) ∧ y.disk = x.disk.put loc (.file bytes now) := by
  obtain ⟨loc, old, time, hget, hw⟩ := h.writeFile now bytes
  have hput : ∀ z : Writing, z.disk = x.disk →
      z.put now target bytes = (.ok (), { z with disk := x.disk.put loc (.file bytes now) }) := by
    intro z hz
    rw [put, hz, hw]
  cases hparent : target.parent? with
  | none =>
    refine ⟨{ x with disk := x.disk.put loc (.file bytes now) }, loc, old, time, ?_, hget, rfl⟩
    simp only [file, hparent, hput x rfl]
  | some dir =>
    obtain ⟨z, hmake, hz⟩ := makeDirs_there hx (h.dir dir hparent)
    refine ⟨{ z with disk := x.disk.put loc (.file bytes now) }, loc, old, time, ?_, hget, rfl⟩
    simp only [file, hparent, hmake, hput z hz]

/-- Files that are all there can be written one after the other, and no directory is made. -/
theorem files_there (hx : x.disk.IsTree) (h : ∀ f ∈ files, x.disk.HasFile f.1) (now : Int) :
    ∃ y, x.files now files = (.ok (), y) ∧
      Grows (fun _ => False) (fun _ => True) x.disk y.disk := by
  induction files generalizing x with
  | nil => exact ⟨x, rfl, .refl _⟩
  | cons f rest ih =>
    obtain ⟨target, bytes⟩ := f
    obtain ⟨y, loc, old, time, hfile, hget, hy⟩ := file_there hx
      (h (target, bytes) List.mem_cons_self) now bytes
    have htree : y.disk.IsTree := hy ▸ hx.put_file hget
    have hgrows : Grows (fun _ => False) (fun _ => True) x.disk y.disk := by
      rw [hy]
      exact Disk.put_grows (by rw [hget]; exact .wrote trivial _ _ (.inr ⟨old, time, rfl⟩))
    obtain ⟨z, hfiles, hgrows'⟩ := ih htree fun f hf =>
      (h f (List.mem_cons_of_mem _ hf)).grows hx htree hgrows
    exact ⟨z, by simp only [files, hfile, hfiles], hgrows.trans hgrows'⟩

/-! ## Files that have been written -/

/-- A directory that has been made for a file is there. -/
theorem isDir_of_makeDirs (hx : x.disk.IsTree) (h : x.makeDirs dir = (.ok (), y)) :
    dir.text = "" ∨ y.disk.isDir dir = true := by
  unfold makeDirs at h
  split at h
  · cases h
  · next z hplan =>
    rw [plan_disk hplan] at h
    cases hmake : x.disk.makeDirs dir with
    | mk result d =>
      rw [hmake] at h
      obtain ⟨hresult, rfl⟩ := Prod.mk.inj h
      cases result with
      | ok u => exact hx.isDir_of_makeDirs hmake
      | error f => cases hresult

/-- A file that has been written is there, in its directory. -/
theorem file_hasFile {f : Path × ByteArray} (hx : x.disk.IsTree)
    (h : x.file now f.1 f.2 = (.ok (), y)) : y.disk.HasFile f.1 := by
  refine ⟨(file_wrote hx h).found f (by simp), fun dir hparent => ?_⟩
  simp only [file, hparent] at h
  split at h
  · cases h
  · next z hmake =>
    have hz : z.disk.IsTree := by
      have hstart : x.Tracks x.disk [f] := ⟨hx, .refl _⟩
      have hkept := hstart.makeDirs (by simp) hparent
      rw [hmake] at hkept
      exact hkept.tree
    rcases isDir_of_makeDirs hx hmake with hempty | hdir
    · exact .inl hempty
    · -- Only a file is put after the directory has been made.
      have hput : (z.put now f.1 f.2).2 = y := by rw [h]
      have hstart : z.Tracks z.disk [f] := ⟨hz, .refl _⟩
      have hkept : (z.put now f.1 f.2).2.Tracks z.disk [f] := hstart.put (by simp)
      rw [hput] at hkept
      exact .inr ((Disk.Stands.mk hz hdir).grows hkept.tree hkept.grows).found

/-- Files that have been written are all there. -/
theorem files_hasFile (hx : x.disk.IsTree) (h : x.files now files = (.ok (), y)) :
    ∀ f ∈ files, y.disk.HasFile f.1 := by
  induction files generalizing x with
  | nil => simp
  | cons f rest ih =>
    unfold files at h
    split at h
    · cases h
    · next z hfile =>
      have hz := (file_wrote (f := f) hx hfile).tree
      have hrest := files_written hz h
      rw [List.forall_mem_cons]
      exact ⟨(file_hasFile (f := f) hx hfile).grows hz hrest.tree hrest.grows, ih hz h⟩

end Writing

/-! ## The same bytes again -/

/-- The same disk, but that files that were last changed at one time are now changed at another:
    they hold the bytes they held. -/
structure Disk.Retimed (before later : Int) (d d' : Disk) : Prop where
  home : d'.home = d.home
  same : ∀ loc, d'.get? loc = d.get? loc ∨
    ∃ bytes, d.get? loc = some (.file bytes before) ∧ d'.get? loc = some (.file bytes later)

/-- The same files can be written again to the disk they have been written to, with any times, and
    it holds what it held. -/
theorem writeAll_again {d d' : Disk} {before : Int} {files : List (Path × ByteArray)}
    (hd : d.IsTree) (h : writeAll d before files = (.ok (), d')) (later : Int) :
    ∃ d'', writeAll d' later files = (.ok (), d'') ∧ Disk.Retimed before later d' d'' := by
  have hwrote := writeAll_written hd h
  obtain ⟨x, hfiles, rfl⟩ := writeAll_ok h
  have hthere := Writing.files_hasFile (x := ⟨d, []⟩) hd hfiles
  obtain ⟨y, hagain, hgrows⟩ :=
    Writing.files_there (x := ⟨x.disk, []⟩) hwrote.tree hthere later
  have hwrote' := Writing.files_written (x := ⟨x.disk, []⟩) hwrote.tree hagain
  refine ⟨y.disk, by rw [writeAll, hagain], hgrows.home, fun loc => ?_⟩
  have hplaces : Writing.places x.disk files = Writing.places d files := by
    simp only [Writing.places, Disk.place_congr hwrote.grows.home]
  -- What was put to a place last the first time is put there last the second time too.
  cases hlast : lastAt? (Writing.places d files) loc with
  | some bytes =>
    exact .inr ⟨bytes, hwrote.written loc bytes hlast,
      hwrote'.written loc bytes (by rw [hplaces, hlast])⟩
  | none =>
    rcases hwrote'.kept (by rw [hplaces, hlast]) with hsame | ⟨_, hnone, hdir⟩
    · exact .inl hsame
    · rcases hgrows.dir_before hdir with hold | ⟨hfalse, _⟩
      · rw [hnone] at hold
        cases hold
      · exact hfalse.elim

namespace Run

variable {store : Store} {root : Path} {r r' : Run} {w w' : World}

/-- What has been gathered from a bucket can be gathered again, without a store. -/
theorem gather_again {memo : Fields ByteArray} {d : Descriptor} {contents : Fields ByteArray}
    (hr : r.origin = .bucket memo) (h : r.gather store root w = (.ok (d, contents), r', w'))
    (store' : Store) (v : World) :
    r'.gather store' root v = (.ok (d, contents), r', v) := by
  obtain ⟨⟨path, hpath, hparse⟩, hcontents, hall, memo', hbucket⟩ := gather_ok hr h
  obtain ⟨_, _, origin, hrun⟩ := gather_leaves h
  have hpaths : r'.paths = r.paths := by
    rw [hrun]
    rfl
  have hpath' : r'.descriptorPath = some path := by
    rw [hrun]
    exact hpath
  have hread := hall path (by simp [paths, hpath])
  have hdesc : r'.descriptor store' v = (.ok d, r', v) :=
    descriptor_known hbucket hpath' hread.1 hread.2 hparse v
  have hcont : r'.contents store' v = (.ok contents, r', v) := by
    rw [contents_known hbucket (by rw [hpath']; rfl) (by rw [hpaths]; exact hall), hpaths,
      ← hcontents]
  simp only [gather, hdesc, hcont, gather_stays h]

/-- **Writing a run again changes nothing.** A run of a bucket that has been written below a root is
    written there again with the same result, whatever the store has become, even where the signal
    has fired: no call is made, the run remembers what it did, and every file and directory is as
    the first write has left it, but for the times of the files that were written. -/
theorem write_again {memo : Fields ByteArray} {written : Written} (hr : r.origin = .bucket memo)
    (hd : w.disk.IsTree) (h : r.write store root w = (.ok written, r', w')) (store' : Store)
    (signal : Signal) (now : Int) (trace : List Event) :
    ∃ d, r'.write store' root { disk := w'.disk, signal, now, trace } =
        (.ok written, r', { disk := d, signal, now, trace }) ∧
      Disk.Retimed w.now now w'.disk d := by
  obtain ⟨d, contents, w₁, hgather, hwrite, _, rfl⟩ := write_ok h
  obtain ⟨_, _, origin, hrun⟩ := gather_leaves hgather
  obtain ⟨d', hagain, hretimed⟩ := writeAll_again hd hwrite now
  refine ⟨d', ?_, hretimed⟩
  -- The run that remembers what it read has the files it had.
  have hfiles : r'.files root d contents = r.files root d contents := by
    rw [hrun]
    rfl
  have hplace : indexPlace? root r'.job d = indexPlace? root r.job d := by rw [hrun]
  rw [← hfiles] at hagain
  have hwrite := write_of_gather
    (gather_again hr hgather store' { disk := w'.disk, signal, now, trace }) hagain
  rw [hfiles, hplace] at hwrite
  exact hwrite

/-- A bucket with a run that has a descriptor and one result, two names of which lead to one
    file. -/
def rewrittenBucket : Memory where
  objects :=
    [("logs/job/1/artifacts//junit.xml", ⟨"two".toUTF8, 0⟩),
     ("logs/job/1/artifacts/junit.xml", ⟨"one".toUTF8, 0⟩),
     ("logs/job/1/prowjob.json", ⟨"\x7b\x7d".toUTF8, 0⟩)]

/-- Its run. -/
def rewrittenRun : Run where
  job := "job"
  id := "1"
  descriptorPath := some "logs/job/1/prowjob.json"
  resultPaths := ["logs/job/1/artifacts//junit.xml", "logs/job/1/artifacts/junit.xml"]

/-- It is written, and written again from an empty bucket after the signal has fired. -/
theorem write_again_cancelled :
    ∃ r' w' written d, rewrittenRun.write rewrittenBucket.store ⟨"/work"⟩ { disk := {} } =
        (.ok written, r', w') ∧
      r'.write ({} : Memory).store ⟨"/work"⟩ { disk := w'.disk, signal := ⟨true, none⟩, now := 5 } =
        (.ok written, r', { disk := d, signal := ⟨true, none⟩, now := 5 }) := by
  have hok : (rewrittenRun.write rewrittenBucket.store ⟨"/work"⟩ { disk := {} }).1.isOk = true := by
    decide +kernel
  cases hwrite : rewrittenRun.write rewrittenBucket.store ⟨"/work"⟩ { disk := {} } with
  | mk result rest =>
    obtain ⟨r', w'⟩ := rest
    rw [hwrite] at hok
    cases result with
    | error e => cases hok
    | ok written =>
      obtain ⟨d, hagain, _⟩ := write_again (by rfl) Disk.IsTree.empty hwrite ({} : Memory).store
        ⟨true, none⟩ 5 []
      exact ⟨r', w', written, d, rfl, hagain⟩

end Run

end RunCache
