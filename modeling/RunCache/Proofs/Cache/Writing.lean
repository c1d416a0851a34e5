import RunCache.Cache.Write
import RunCache.Proofs.Disk.Changes

/-! # Writing files and cleaning up

    Files are written one after the other, each in a directory that is made
    if it is missing, and the outermost directory made for each is noted.

    * **`Writing.files_invariant`**: what every step keeps holds at the end.
    * **`Writing.files_tracks`**: only the places of the files change.
    * **`Writing.Covers`**: each new directory lies in one that is noted,
      and nothing noted was there before.
    * **`Writing.undone_spec`**: what cleaning up takes away. -/

namespace RunCache

open Disk (Grows Makes Later)

namespace Writing

variable {x y : Writing} {dir : Path} {now : Int}

/-! ## Steps -/

theorem probe_ok {d : Disk} {p : Path} {b : Bool} (h : probe d p = .ok b) :
    d.exists? p = .ok b := by
  unfold probe at h
  cases hex : d.exists? p with
  | error f =>
    rw [hex] at h
    cases h
  | ok b' =>
    rw [hex] at h
    exact congrArg Except.ok (Except.ok.inj h)

@[simp] theorem note_disk (x : Writing) (p : Path) : (x.note p).disk = x.disk := by
  unfold note
  split <;> rfl

/-- Planning notes nothing where the directory is there, and else the outermost missing one. -/
theorem plan_ok (h : x.plan dir = .ok y) :
    (x.disk.exists? dir = .ok true ∧ y = x) ∨
      (x.disk.exists? dir = .ok false ∧ ∃ p, outermost x.disk dir dir.ancestors.tail = .ok p ∧
        y = x.note p) := by
  unfold plan at h
  split at h
  · cases h
  · next hprobe => exact .inl ⟨probe_ok hprobe, (Except.ok.inj h).symm⟩
  · next hprobe =>
    refine .inr ⟨probe_ok hprobe, ?_⟩
    cases hout : outermost x.disk dir dir.ancestors.tail with
    | error e =>
      rw [hout] at h
      cases h
    | ok p =>
      rw [hout] at h
      exact ⟨p, rfl, (Except.ok.inj h).symm⟩

/-- Planning changes nothing on the disk. -/
theorem plan_disk (h : x.plan dir = .ok y) : y.disk = x.disk := by
  rcases plan_ok h with ⟨_, rfl⟩ | ⟨_, p, _, rfl⟩
  · rfl
  · exact note_disk x p

/-- Making directories leaves everything where planning fails, and else makes some of those on the
    way. -/
theorem makeDirs_cases (x : Writing) (dir : Path) :
    (x.makeDirs dir).2 = x ∨ ∃ y, x.plan dir = .ok y ∧ (x.makeDirs dir).2.made = y.made ∧
      Makes dir.ancestors x.disk (x.makeDirs dir).2.disk := by
  unfold makeDirs
  cases hplan : x.plan dir with
  | error e => exact .inl rfl
  | ok y =>
    refine .inr ⟨y, rfl, rfl, ?_⟩
    simpa [plan_disk hplan] using Disk.makeDirs_makes y.disk dir

theorem put_cases (x : Writing) (now : Int) (target : Path) (bytes : ByteArray) :
    (x.put now target bytes).2 = x ∨ ∃ d, x.disk.writeFile now target bytes = .ok d ∧
      (x.put now target bytes).2 = { x with disk := d } := by
  unfold put
  cases hw : x.disk.writeFile now target bytes with
  | error f => exact .inl rfl
  | ok d => exact .inr ⟨d, rfl, rfl⟩

/-- Writing a file notes nothing, and no directory is new then. -/
theorem put_grows (x : Writing) (now : Int) (target : Path) (bytes : ByteArray) :
    (x.put now target bytes).2.made = x.made ∧
      Grows (fun _ => False) (fun _ => True) x.disk (x.put now target bytes).2.disk := by
  rcases x.put_cases now target bytes with hx | ⟨d, hw, hx⟩
  · rw [hx]
    exact ⟨rfl, .refl x.disk⟩
  · rw [hx]
    exact ⟨rfl, Disk.writeFile_grows hw (fun _ _ _ => trivial) fun _ _ _ => trivial⟩

theorem file_invariant {P : Writing → Prop} {target : Path} {bytes : ByteArray}
    (hdirs : ∀ dir, target.parent? = some dir → ∀ x, P x → P (x.makeDirs dir).2)
    (hput : ∀ x, P x → P (x.put now target bytes).2) (hx : P x) :
    P (x.file now target bytes).2 := by
  unfold file
  cases hparent : target.parent? with
  | none => exact hput x hx
  | some dir =>
    have hmade := hdirs dir hparent x hx
    simp only
    split
    · next y hres =>
      rw [hres] at hmade
      exact hmade
    · next y hres =>
      rw [hres] at hmade
      exact hput y hmade

/-- What holds at the start and is kept by making directories for a file and by writing it holds
    when files have been written, whether all could be written or not. -/
theorem files_invariant {P : Writing → Prop} {files : List (Path × ByteArray)}
    (hdirs : ∀ e ∈ files, ∀ dir, e.1.parent? = some dir → ∀ x, P x → P (x.makeDirs dir).2)
    (hput : ∀ e ∈ files, ∀ x, P x → P (x.put now e.1 e.2).2) (hx : P x) :
    P (x.files now files).2 := by
  induction files generalizing x with
  | nil => exact hx
  | cons e rest ih =>
    obtain ⟨target, bytes⟩ := e
    have hfile : P (x.file now target bytes).2 :=
      file_invariant (hdirs (target, bytes) (by simp)) (hput (target, bytes) (by simp)) hx
    unfold files
    split
    · next y hres =>
      rw [hres] at hfile
      exact hfile
    · next y hres =>
      rw [hres] at hfile
      exact ih (fun e he => hdirs e (List.mem_cons_of_mem _ he))
        (fun e he => hput e (List.mem_cons_of_mem _ he)) hfile

/-! ## What is new -/

/-- The places of the paths above files. -/
def dirPlaces (d : Disk) (files : List (Path × ByteArray)) (loc : Location) : Prop :=
  ∃ e ∈ files, ∃ dir, e.1.parent? = some dir ∧ ∃ q ∈ dir.ancestors, loc = d.place q

/-- The places of files. -/
def filePlaces (d : Disk) (files : List (Path × ByteArray)) (loc : Location) : Prop :=
  ∃ e ∈ files, loc = d.place e.1

/-- A tree in which what is new since a disk are files that were to be written and directories above
    them. -/
structure Tracks (d : Disk) (files : List (Path × ByteArray)) (x : Writing) : Prop where
  tree : x.disk.IsTree
  grows : Grows (dirPlaces d files) (filePlaces d files) d x.disk

variable {d : Disk} {files : List (Path × ByteArray)}

theorem Tracks.makeDirs {e : Path × ByteArray} (h : x.Tracks d files) (he : e ∈ files)
    (hdir : e.1.parent? = some dir) : (x.makeDirs dir).2.Tracks d files := by
  rcases x.makeDirs_cases dir with hx | ⟨y, _, _, hmakes⟩
  · rw [hx]
    exact h
  · obtain ⟨htree, hgrows⟩ := hmakes.tree h.tree
    refine ⟨htree, h.grows.trans (hgrows.mono ?_ fun _ hf => hf.elim)⟩
    rintro loc ⟨q, hq, rfl⟩
    exact ⟨e, he, dir, hdir, q, hq, Disk.place_congr h.grows.home q⟩

theorem Tracks.put {e : Path × ByteArray} (h : x.Tracks d files) (he : e ∈ files) :
    (x.put now e.1 e.2).2.Tracks d files := by
  rcases x.put_cases now e.1 e.2 with hx | ⟨d', hw, hx⟩
  · rw [hx]
    exact h
  · rw [hx]
    have hplace : x.disk.place e.1 = d.place e.1 := Disk.place_congr h.grows.home e.1
    refine ⟨(h.tree.writeFile hw).2.2, h.grows.trans (Disk.writeFile_grows hw ?_ ?_)⟩
    · intro loc found hl
      exact ⟨e, he, (h.tree.locate_found hl).1.trans hplace⟩
    · intro parent name hl
      exact ⟨e, he, (h.tree.locate_absent hl).1.symm.trans hplace⟩

theorem Tracks.start (h : d.IsTree) : (Writing.mk d []).Tracks d files := ⟨h, .refl d⟩

theorem files_tracks (h : d.IsTree) (now : Int) (files : List (Path × ByteArray)) :
    ((Writing.mk d []).files now files).2.Tracks d files :=
  files_invariant (P := Tracks d files) (fun _ he _ hdir _ hx => hx.makeDirs he hdir)
    (fun _ he _ hx => hx.put he) (.start h)

/-! ## What is noted -/

/-- Of a path that is missing and those above it, the outermost missing one lies above all that are
    missing. -/
theorem outermost_ok {p q : Path} {above : List Path} (h : d.IsTree)
    (hrooted : ∀ r ∈ p :: above, r.IsRooted ∧ r.IsTrimmed)
    (hpairwise : (p :: above).Pairwise fun a b => b.names <+: a.names)
    (hp : d.exists? p = .ok false) (hq : outermost d p above = .ok q) :
    q ∈ p :: above ∧ d.exists? q = .ok false ∧
      ∀ r ∈ p :: above, d.get? r.names = none → q.names <+: r.names := by
  induction above generalizing p with
  | nil =>
    obtain rfl := Except.ok.inj hq
    refine ⟨by simp, hp, fun r hr _ => ?_⟩
    obtain rfl := List.mem_singleton.mp hr
    exact List.prefix_rfl
  | cons a above ih =>
    -- The paths grow shorter, so each lies above the ones before it.
    have hpa : a.names <+: p.names := List.rel_of_pairwise_cons hpairwise (by simp)
    have htail := (List.pairwise_cons.mp hpairwise).2
    have hrooted' : ∀ r ∈ a :: above, r.IsRooted ∧ r.IsTrimmed :=
      fun r hr => hrooted r (List.mem_cons_of_mem p hr)
    have ha : a.IsRooted := (hrooted' a (by simp)).1
    unfold outermost at hq
    rw [if_neg (by simpa using ha.text_ne_empty)] at hq
    split at hq
    · cases hq
    · next hprobe =>
      obtain rfl := Except.ok.inj hq
      refine ⟨by simp, hp, fun r hr hnone => ?_⟩
      rcases List.mem_cons.mp hr with rfl | hr
      · exact List.prefix_rfl
      · -- Everything from the first path found upwards is there.
        exfalso
        obtain ⟨e, he⟩ := h.exists_true (probe_ok hprobe)
        rw [Disk.place_of_isRooted ha] at he
        have hpre : r.names <+: a.names := by
          rcases List.mem_cons.mp hr with rfl | hr
          · exact List.prefix_rfl
          · exact List.rel_of_pairwise_cons htail hr
        rw [h.none_below hnone hpre] at he
        cases he
    · next hprobe =>
      obtain ⟨hmem, hex, hall⟩ := ih hrooted' htail (probe_ok hprobe) hq
      refine ⟨List.mem_cons_of_mem p hmem, hex, fun r hr hnone => ?_⟩
      rcases List.mem_cons.mp hr with rfl | hr
      · have hnone' : d.get? q.names = none := by
          have hq' := hrooted' q hmem
          rw [← Disk.place_of_isRooted hq'.1 d]
          exact (h.exists_false hq'.1 hq'.2 hex).2
        exact (hall q hmem hnone').trans (by
          rcases List.mem_cons.mp hmem with rfl | hmem
          · exact hpa
          · exact (List.rel_of_pairwise_cons htail hmem).trans hpa)
      · exact hall r hr hnone

/-- Nothing noted was there before, and each new directory lies in one that is noted. -/
structure Covers (d : Disk) (x : Writing) : Prop where
  noted : ∀ p ∈ x.made,
    p.IsRooted ∧ p.IsTrimmed ∧ Disk.accept p = .ok () ∧ d.get? p.names = none
  covered : ∀ loc closed, x.disk.get? loc = some (.dir closed) → d.get? loc = none →
    ∃ p ∈ x.made, p.names <+: loc

theorem Covers.start (d : Disk) : (Writing.mk d []).Covers d :=
  ⟨by simp, fun loc closed hget hnone => by simp [hnone] at hget⟩

theorem mem_note {p q : Path} (h : q ∈ (x.note p).made) : q = p ∨ q ∈ x.made := by
  unfold note at h
  split at h
  · exact .inr h
  · exact List.mem_cons.mp h

/-- What is noted stays, and a path lies in one that is noted once it has been noted itself. -/
theorem made_note (x : Writing) (p : Path) :
    x.made ⊆ (x.note p).made ∧ ∃ q ∈ (x.note p).made, p.isBelow q = true := by
  unfold note
  split
  · next hany =>
    obtain ⟨q, hq, hbelow⟩ := List.any_eq_true.mp hany
    exact ⟨List.Subset.refl _, q, hq, hbelow⟩
  · exact ⟨List.subset_cons_self p x.made, p, by simp, by simp [Path.isBelow]⟩

/-- Planning finds all there that is on the way, or notes what is missing and lies above all that
    is. -/
theorem plan_notes (hx : x.disk.IsTree) (habove : ∀ q ∈ dir.ancestors, q.IsRooted ∧ q.IsTrimmed)
    (hplan : x.plan dir = .ok y) :
    (y = x ∧ ∀ q ∈ dir.ancestors, x.disk.get? q.names ≠ none) ∨
      ∃ p ∈ dir.ancestors, y = x.note p ∧ Disk.accept p = .ok () ∧ x.disk.get? p.names = none ∧
        ∀ q ∈ dir.ancestors, x.disk.get? q.names = none → p.names <+: q.names := by
  rw [Path.ancestors_eq_cons] at habove ⊢
  rcases plan_ok hplan with ⟨hex, rfl⟩ | ⟨hex, p, hout, rfl⟩
  · -- The directory is there, and with it all that is above it.
    refine .inl ⟨rfl, fun q hq hnone => ?_⟩
    rw [← Path.ancestors_eq_cons] at hq
    obtain ⟨e, he⟩ := hx.exists_true hex
    rw [Disk.place_of_isRooted (habove dir (by simp)).1,
      hx.none_below hnone (Path.mem_ancestorsWithin hq).2.1] at he
    cases he
  · have hpairwise := Path.ancestorsWithin_pairwise dir.parts.length dir
    rw [← Path.ancestors, Path.ancestors_eq_cons] at hpairwise
    obtain ⟨hmem, hmissing, hall⟩ := outermost_ok hx habove hpairwise hex hout
    obtain ⟨hrooted, htrim⟩ := habove p hmem
    obtain ⟨hacc, hnone⟩ := hx.exists_false hrooted htrim hmissing
    rw [Disk.place_of_isRooted hrooted] at hnone
    exact .inr ⟨p, hmem, rfl, hacc, hnone, hall⟩

/-- Planning notes what is missing, and whatever is missing on the way lies in what is noted. -/
theorem plan_covers (hx : x.disk.IsTree) (hnoted : ∀ p ∈ x.made, p.IsRooted)
    (habove : ∀ q ∈ dir.ancestors, q.IsRooted ∧ q.IsTrimmed) (hplan : x.plan dir = .ok y) :
    x.made ⊆ y.made ∧
      (∀ p ∈ y.made, p ∈ x.made ∨
        (p ∈ dir.ancestors ∧ Disk.accept p = .ok () ∧ x.disk.get? p.names = none)) ∧
      ∀ q ∈ dir.ancestors, x.disk.get? q.names = none → ∃ p ∈ y.made, p.names <+: q.names := by
  rcases plan_notes hx habove hplan with ⟨rfl, hthere⟩ | ⟨p, hmem, rfl, hacc, hnone, hall⟩
  · exact ⟨List.Subset.refl _, fun p hp => .inl hp, fun q hq hq' => absurd hq' (hthere q hq)⟩
  · -- The outermost missing directory is noted, unless it lies in one that is.
    have hp := (habove p hmem).1
    obtain ⟨hsub, r, hr, hbelow⟩ := x.made_note p
    refine ⟨hsub, fun q hq => ?_, fun q hq hq' => ⟨r, hr, ?_⟩⟩
    · rcases mem_note hq with rfl | hq
      · exact .inr ⟨hmem, hacc, hnone⟩
      · exact .inl hq
    · have hrooted : r.IsRooted := by
        rcases mem_note hr with rfl | hr
        · exact hp
        · exact hnoted r hr
      exact ((hp.isBelow_iff hrooted).mp hbelow).trans (hall q hq hq')

theorem Covers.makeDirs (h : x.Covers d) (hx : x.Tracks d files) (hdir : dir.IsRooted)
    (htrim : dir.IsTrimmed) : (x.makeDirs dir).2.Covers d := by
  -- Every directory that is made is one above a target.
  have habove : ∀ q ∈ dir.ancestors, q.IsRooted ∧ q.IsTrimmed := fun q hq => hdir.above htrim hq
  rcases x.makeDirs_cases dir with hy | ⟨y, hplan, hmade, hmakes⟩
  · rw [hy]
    exact h
  · have hgrows := (hmakes.tree hx.tree).2
    obtain ⟨hsub, hnoted, hcovers⟩ :=
      plan_covers hx.tree (fun p hp => (h.noted p hp).1) habove hplan
    refine ⟨fun p hp => ?_, fun loc closed hget hnone => ?_⟩
    · rw [hmade] at hp
      rcases hnoted p hp with hp | ⟨hmem, hacc, hnone⟩
      · exact h.noted p hp
      · exact ⟨(habove p hmem).1, (habove p hmem).2, hacc, hx.grows.missing hnone⟩
    · rw [hmade]
      -- A directory that is new was made now or by an earlier write.
      rcases hgrows.dir_before hget with hold | ⟨⟨q, hq, rfl⟩, hnew⟩
      · obtain ⟨p, hp, hpre⟩ := h.covered loc closed hold hnone
        exact ⟨p, hsub hp, hpre⟩
      · rw [Disk.place_of_isRooted (habove q hq).1] at hnew ⊢
        exact hcovers q hq hnew

theorem Covers.put {e : Path × ByteArray} (h : x.Covers d) :
    (x.put now e.1 e.2).2.Covers d := by
  obtain ⟨hmade, hgrows⟩ := x.put_grows now e.1 e.2
  refine ⟨hmade ▸ h.noted, fun loc closed hget hnone => ?_⟩
  rw [hmade]
  rcases hgrows.dir_before hget with hold | ⟨hfalse, _⟩
  · exact h.covered loc closed hold hnone
  · exact hfalse.elim

theorem files_covers (hd : d.IsTree) (now : Int) (hrooted : ∀ e ∈ files, e.1.IsRooted) :
    ((Writing.mk d []).files now files).2.Covers d := by
  refine (files_invariant (P := fun x => x.Tracks d files ∧ x.Covers d) ?_ ?_
    ⟨.start hd, .start d⟩).2
  · intro e he dir hdir x ⟨htracks, hcovers⟩
    obtain ⟨hdirRooted, hdirTrim, _⟩ := (hrooted e he).of_parent hdir
    exact ⟨htracks.makeDirs he hdir, hcovers.makeDirs htracks hdirRooted hdirTrim⟩
  · intro e he x ⟨htracks, hcovers⟩
    exact ⟨htracks.put he, hcovers.put⟩

/-! ## Cleaning up -/

/-- Removing a directory takes it and everything below it away, if anything is there at all. -/
theorem removed_spec {p : Path} (h : d.IsTree) (hp : p.IsRooted) (htrim : p.IsTrimmed)
    (hacc : Disk.accept p = .ok ()) (hhome : ¬ p.names <+: d.home) :
    (removed d p).IsTree ∧ (removed d p).home = d.home ∧
      ∀ loc, (removed d p).get? loc = if p.names <+: loc then none else d.get? loc := by
  -- The root lies above everything, so it is not what is removed.
  have hne : ∀ loc, loc = [] → ¬ p.names <+: loc := by
    rintro loc rfl hpre
    exact hhome (List.prefix_nil.mp hpre ▸ List.nil_prefix)
  unfold removed
  split
  · next d' hr =>
    have herase := h.remove_ok hr
    rw [Disk.place_of_isRooted hp] at herase
    subst herase
    refine ⟨h.erase hhome, rfl, fun loc => ?_⟩
    by_cases hnil : loc = []
    · rw [if_neg (hne loc hnil), hnil]
      rfl
    · exact Disk.get_erase hnil
  · next f hr =>
    have hnone := h.remove_error hp htrim hacc hr
    rw [Disk.place_of_isRooted hp] at hnone
    refine ⟨h, rfl, fun loc => ?_⟩
    split
    · next hpre => exact h.none_below hnone hpre
    · rfl

/-- Removing directories one after the other. -/
theorem foldl_removed {paths : List Path} (h : d.IsTree)
    (hpaths : ∀ p ∈ paths, p.IsRooted ∧ p.IsTrimmed ∧ Disk.accept p = .ok () ∧
      ¬ p.names <+: d.home) :
    (paths.foldl removed d).IsTree ∧ ∀ loc,
      ((∃ p ∈ paths, p.names <+: loc) → (paths.foldl removed d).get? loc = none) ∧
        ((∀ p ∈ paths, ¬ p.names <+: loc) → (paths.foldl removed d).get? loc = d.get? loc) := by
  induction paths generalizing d with
  | nil => simpa using h
  | cons p rest ih =>
    obtain ⟨hp, htrim, hacc, hhome⟩ := hpaths p (by simp)
    obtain ⟨htree, hhome', hget⟩ := removed_spec h hp htrim hacc hhome
    have hrest : ∀ q ∈ rest, q.IsRooted ∧ q.IsTrimmed ∧ Disk.accept q = .ok () ∧
        ¬ q.names <+: (removed d p).home := by
      intro q hq
      rw [hhome']
      exact hpaths q (List.mem_cons_of_mem p hq)
    obtain ⟨htree', hspec⟩ := ih htree hrest
    rw [List.foldl_cons]
    refine ⟨htree', fun loc => ?_⟩
    obtain ⟨hbelow, helse⟩ := hspec loc
    refine ⟨?_, fun hnot => ?_⟩
    · rintro ⟨q, hq, hpre⟩
      -- What is gone once does not come back.
      by_cases hq' : ∃ q ∈ rest, q.names <+: loc
      · exact hbelow hq'
      · rw [helse fun r hr hr' => hq' ⟨r, hr, hr'⟩, hget]
        rcases List.mem_cons.mp hq with rfl | hq
        · exact if_pos hpre
        · exact absurd ⟨q, hq, hpre⟩ hq'
    · rw [helse fun q hq => hnot q (List.mem_cons_of_mem p hq), hget, if_neg (hnot p (by simp))]

/-- What was there before does not lie in a directory that was not. -/
theorem Covers.free (hd : d.IsTree) (hcovers : x.Covers d) {loc : Location} {e : Entry}
    (hget : d.get? loc = some e) : ∀ p ∈ x.made, ¬ p.names <+: loc := by
  intro p hp hpre
  rw [hd.none_below (hcovers.noted p hp).2.2.2 hpre] at hget
  cases hget

/-- Cleaning up takes away what lies in a directory that is noted, and nothing else. -/
theorem undone_eq (hd : d.IsTree) (htracks : x.Tracks d files) (hcovers : x.Covers d) :
    x.undone.IsTree ∧ ∀ loc,
      ((∃ p ∈ x.made, p.names <+: loc) → x.undone.get? loc = none) ∧
        ((∀ p ∈ x.made, ¬ p.names <+: loc) → x.undone.get? loc = x.disk.get? loc) := by
  apply foldl_removed htracks.tree
  intro p hp
  obtain ⟨hrooted, htrim, hacc, _⟩ := hcovers.noted p hp
  refine ⟨hrooted, htrim, hacc, ?_⟩
  rw [htracks.grows.home]
  obtain ⟨closed, hhome⟩ := hd.home
  exact hcovers.free hd hhome p hp

/-- So it takes nothing away that was there before. -/
theorem undone_spec (hd : d.IsTree) (htracks : x.Tracks d files) (hcovers : x.Covers d) :
    x.undone.IsTree ∧ (∀ loc e, d.get? loc = some e → x.undone.get? loc = x.disk.get? loc) ∧
      ∀ loc e, x.undone.get? loc = some e →
        x.disk.get? loc = some e ∧ ∀ p ∈ x.made, ¬ p.names <+: loc := by
  obtain ⟨htree, hgone⟩ := undone_eq hd htracks hcovers
  refine ⟨htree, fun loc e hget => (hgone loc).2 (hcovers.free hd hget), fun loc e hget => ?_⟩
  have hnot : ∀ p ∈ x.made, ¬ p.names <+: loc := by
    intro p hp hpre
    rw [(hgone loc).1 ⟨p, hp, hpre⟩] at hget
    cases hget
  rw [(hgone loc).2 hnot] at hget
  exact ⟨hget, hnot⟩

end Writing

theorem writeAll_ok {d d' : Disk} {now : Int} {files : List (Path × ByteArray)}
    (h : writeAll d now files = (.ok (), d')) :
    ∃ x, (Writing.mk d []).files now files = (.ok (), x) ∧ d' = x.disk := by
  unfold writeAll at h
  split at h
  · next x hfiles => exact ⟨x, hfiles, (Prod.mk.inj h).2.symm⟩
  · cases h

/-- Writing to the disk of a world changes nothing else of it. -/
theorem World.writeAll_cases {w w' : World} {files : List (Path × ByteArray)}
    {result : Except Error Unit} (h : w.writeAll files = (result, w')) :
    RunCache.writeAll w.disk w.now files = (result, w'.disk) ∧ w' = { w with disk := w'.disk } := by
  unfold World.writeAll at h
  generalize RunCache.writeAll w.disk w.now files = written at h ⊢
  obtain ⟨rfl, rfl⟩ := Prod.mk.inj h
  exact ⟨rfl, rfl⟩

end RunCache
