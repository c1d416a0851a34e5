import RunCache.Proofs.Cache.Writing
import RunCache.Proofs.Disk.Descent

/-! # What is noted while directories are made

    Before a directory is made, the outermost missing one on the way to it
    is looked for and noted.  That this comes first changes nothing in what
    making the directory comes to.

    * **`Writing.makeDirs_eq`**: making a directory, with or without the
      search.
    * **`Writing.Stood`**: writings in which all that is noted is there.
    * **`Writing.files_noted`**: no file stands where something is noted.
    * **`Underway.undone_get`**: what is left when new directories have
      been removed. -/

namespace RunCache

open Disk (Grows)

namespace Disk

variable {d : Disk} {p q : Path} {f : Fault}

/-- The system takes all that is above a path that it takes. -/
theorem accept_of_mem_ancestors {n : Nat} (hp : p.IsRooted) (hacc : accept p = .ok ())
    (hq : q ∈ p.ancestorsWithin n) : accept q = .ok () := by
  induction n generalizing p with
  | zero =>
    obtain rfl := List.mem_singleton.mp hq
    exact hacc
  | succ n ih =>
    unfold Path.ancestorsWithin at hq
    cases hparent : p.parent? with
    | none =>
      rw [hparent] at hq
      obtain rfl := List.mem_singleton.mp hq
      exact hacc
    | some p' =>
      rw [hparent] at hq
      have hp' : p'.IsRooted := (hp.of_parent hparent).1
      rcases List.mem_cons.mp hq with rfl | hq
      · exact hacc
      · exact ih hp' (accept_of_parent hacc hparent hp'.text_ne_empty) hq

namespace IsTree

/-- Where it is told that a path leads to nothing, it is told of those above it whether they lead to
    anything. -/
theorem exists_above (h : d.IsTree) (hp : p.IsRooted) (htrim : p.IsTrimmed)
    (hex : d.exists? p = .ok false) (hq : q.IsRooted) (hqtrim : q.IsTrimmed)
    (hqacc : accept q = .ok ()) (hpre : q.names <+: p.names) : ∃ b, d.exists? q = .ok b := by
  have hacc := (h.exists_false hp htrim hex).1
  unfold exists? at hex ⊢
  rw [h.stat_eq_goDown hp htrim hacc] at hex
  rw [h.stat_eq_goDown hq hqtrim hqacc]
  cases hgo : d.goDown [] q.names with
  | ok place =>
    cases place with
    | found loc e => exact ⟨true, rfl⟩
    | absent parent name => exact ⟨false, rfl⟩
  | error f =>
    by_cases hf : f = .missing
    · subst hf
      exact ⟨false, rfl⟩
    · -- A fault further up would have been met on the way down as well.
      obtain ⟨more, hmore⟩ := hpre
      have hfault := h.goDown_fault (fun s hs => hq.isName_of_mem hs) hgo hf more
      rw [hmore] at hfault
      simp [hfault] at hex

/-- A fault that is met in looking for a directory is met in making it. -/
theorem makeDirs_of_fault (h : d.IsTree) (hp : p.IsRooted) (htrim : p.IsTrimmed)
    (hex : d.exists? p = .error f) : d.makeDirs p = (.error f, d) := by
  cases hacc : accept p with
  | error g =>
    have hg : g ≠ .missing := by
      rintro rfl
      exact accept_ne_missing hp.text_ne_empty hacc
    have hsame : d.exists? p = .error g := by
      simp [exists?, stat, lookup, locate, hacc]
    rw [makeDirs_refused hp hacc, Except.error.inj (hsame.symm.trans hex)]
  | ok u =>
    unfold exists? at hex
    rw [h.stat_eq_goDown hp htrim hacc] at hex
    have hnames : ∀ s ∈ p.names, IsName s := fun s hs => hp.isName_of_mem hs
    cases hgo : d.goDown [] p.names with
    | ok place =>
      rw [hgo] at hex
      cases place <;> cases hex
    | error g =>
      -- What is only missing would be no fault to a look-up.
      have hg : g ≠ .missing := by
        rintro rfl
        rw [hgo] at hex
        cases hex
      have hgf : g = f := by simpa [hgo, hg] using hex
      rw [h.makeDirs_eq hp htrim hacc, h.makeWay_of_fault hnames hgo hg, hgf]
      intro bytes time hget
      rw [h.goDown_names hp hget] at hgo
      cases hgo

end IsTree

end Disk

namespace Writing

variable {x y : Writing} {dir target : Path} {now : Int} {bytes : ByteArray}
  {files : List (Path × ByteArray)} {result : Except Error Unit}

/-! ## The search for what is missing -/

/-- Going up from a path that leads to nothing, the search meets no fault. -/
theorem exists_outermost {d : Disk} {p : Path} {above : List Path} (h : d.IsTree)
    (hrooted : ∀ r ∈ p :: above, r.IsRooted ∧ r.IsTrimmed ∧ Disk.accept r = .ok ())
    (hpairwise : (p :: above).Pairwise fun a b => b.names <+: a.names)
    (hp : d.exists? p = .ok false) : ∃ q, outermost d p above = .ok q := by
  induction above generalizing p with
  | nil => exact ⟨p, rfl⟩
  | cons a above ih =>
    obtain ⟨hproot, hptrim, _⟩ := hrooted p (by simp)
    obtain ⟨haroot, hatrim, haacc⟩ := hrooted a (by simp)
    have hpa : a.names <+: p.names := List.rel_of_pairwise_cons hpairwise (by simp)
    obtain ⟨b, hb⟩ := h.exists_above hproot hptrim hp haroot hatrim haacc hpa
    have hprobe : probe d a = .ok b := by rw [probe, hb]; rfl
    unfold outermost
    rw [if_neg (by simpa using haroot.text_ne_empty), hprobe]
    cases b with
    | true => exact ⟨p, rfl⟩
    | false =>
      exact ih (fun r hr => hrooted r (List.mem_cons_of_mem p hr))
        (List.pairwise_cons.mp hpairwise).2 hb

/-- The search fails only with the fault of looking for the directory itself. -/
theorem plan_error {e : Error} (h : x.disk.IsTree) (hdir : dir.IsRooted) (htrim : dir.IsTrimmed)
    (hplan : x.plan dir = .error e) :
    ∃ f, x.disk.exists? dir = .error f ∧ e = .write dir.text f := by
  unfold plan probe at hplan
  cases hex : x.disk.exists? dir with
  | error f =>
    rw [hex] at hplan
    exact ⟨f, rfl, (Except.error.inj hplan).symm⟩
  | ok b =>
    rw [hex] at hplan
    cases b with
    | true => cases hplan
    | false =>
      have hacc := (h.exists_false hdir htrim hex).1
      have hpairwise := Path.ancestorsWithin_pairwise dir.parts.length dir
      have habove : ∀ r ∈ dir.ancestors, r.IsRooted ∧ r.IsTrimmed ∧ Disk.accept r = .ok () := by
        intro r hr
        obtain ⟨hroot, hrtrim⟩ := hdir.above htrim hr
        exact ⟨hroot, hrtrim, Disk.accept_of_mem_ancestors hdir hacc hr⟩
      rw [← Path.ancestors] at hpairwise
      rw [Path.ancestors_eq_cons] at habove hpairwise
      obtain ⟨q, hq⟩ := exists_outermost h habove hpairwise hex
      simp only [Except.mapError, hq] at hplan
      cases hplan

/-- Making a directory comes to the same with the search before it. -/
theorem makeDirs_eq (h : x.disk.IsTree) (hdir : dir.IsRooted) (htrim : dir.IsTrimmed) :
    (x.makeDirs dir).1 = ((x.disk.makeDirs dir).1.mapError fun f => .write dir.text f) ∧
      (x.makeDirs dir).2.disk = (x.disk.makeDirs dir).2 := by
  unfold makeDirs
  cases hplan : x.plan dir with
  | error e =>
    obtain ⟨f, hex, rfl⟩ := plan_error h hdir htrim hplan
    rw [h.makeDirs_of_fault hdir htrim hex]
    exact ⟨rfl, rfl⟩
  | ok y =>
    simp only [plan_disk hplan, and_self]

/-- A directory that has been made is there. -/
theorem dir_of_makeDirs (h : x.disk.IsTree) (hdir : dir.IsRooted) (htrim : dir.IsTrimmed)
    (hm : x.makeDirs dir = (.ok (), y)) : ∃ closed, y.disk.get? dir.names = some (.dir closed) := by
  obtain ⟨hresult, hdisk⟩ := makeDirs_eq h hdir htrim
  rcases hmade : x.disk.makeDirs dir with ⟨made, d⟩
  rw [hm, hmade] at hresult hdisk
  cases made with
  | error f => cases hresult
  | ok u =>
    obtain rfl : y.disk = d := hdisk
    exact h.dir_of_makeDirs hdir htrim hmade

/-! ## What stands where something is noted -/

/-- All that is noted is there. -/
def Stood (x : Writing) : Prop :=
  ∀ p ∈ x.made, p.IsRooted ∧ ∃ closed, x.disk.get? p.names = some (.dir closed)

/-- No file stands where something is noted. -/
def Clear (x : Writing) : Prop :=
  ∀ p ∈ x.made, ∀ bytes time, x.disk.get? p.names ≠ some (.file bytes time)

theorem Stood.clear (h : x.Stood) : x.Clear := by
  intro p hp bytes time hget
  obtain ⟨_, closed, hdir⟩ := h p hp
  rw [hdir] at hget
  cases hget

/-- What is noted stays there while the disk grows. -/
theorem Stood.grows {dirs files : Location → Prop} (h : x.Stood) (hmade : y.made = x.made)
    (hgrows : Grows dirs files x.disk y.disk) : y.Stood := by
  intro p hp
  rw [hmade] at hp
  obtain ⟨hroot, closed, hget⟩ := h p hp
  exact ⟨hroot, closed, hgrows.dir hget⟩

/-- What is noted is there when the directory has been made, and at least no file is there when it
    has not. -/
theorem Stood.makeDirs (h : x.Stood) (hx : x.disk.IsTree) (hdir : dir.IsRooted)
    (htrim : dir.IsTrimmed) (hm : x.makeDirs dir = (result, y)) :
    y.disk.IsTree ∧ y.Clear ∧ (result = .ok () → y.Stood) := by
  unfold Writing.makeDirs at hm
  cases hplan : x.plan dir with
  | error e =>
    rw [hplan] at hm
    obtain ⟨rfl, rfl⟩ := Prod.mk.inj hm
    refine ⟨hx, h.clear, ?_⟩
    intro hok
    cases hok
  | ok z =>
    have habove : ∀ q ∈ dir.ancestors, q.IsRooted ∧ q.IsTrimmed := fun q hq => hdir.above htrim hq
    obtain ⟨_, hnew, _⟩ := plan_covers hx (fun p hp => (h p hp).1) habove hplan
    have hdisk : z.disk = x.disk := plan_disk hplan
    have hmakes := Disk.makeDirs_makes x.disk dir
    rw [hplan] at hm
    simp only [hdisk] at hm
    rcases hmade : x.disk.makeDirs dir with ⟨made, d⟩
    rw [hmade] at hm hmakes
    obtain ⟨rfl, rfl⟩ := Prod.mk.inj hm
    obtain ⟨htree, hgrows⟩ := hmakes.tree hx
    have hkept : Writing.Stood { x with disk := d } := h.grows rfl hgrows
    refine ⟨htree, ?_, ?_⟩
    · -- What is noted now was missing, so no file has come there.
      intro p hp bytes time hget
      rcases hnew p hp with hp | ⟨_, _, hnone⟩
      · exact hkept.clear p hp bytes time hget
      · rcases hgrows.file_before hget with hold | ⟨hfalse, _⟩
        · rw [hnone] at hold
          cases hold
        · exact hfalse
    · -- With the directory there is all that is above it.
      intro hok p hp
      rcases hnew p hp with hp | ⟨hmem, _, _⟩
      · exact hkept p hp
      · refine ⟨(habove p hmem).1, ?_⟩
        cases made with
        | error f => cases hok
        | ok u =>
          obtain ⟨closed, hget⟩ := hx.dir_of_makeDirs hdir htrim hmade
          by_cases heq : p.names = dir.names
          · exact ⟨closed, heq ▸ hget⟩
          · exact htree.dir_above hget (Path.mem_ancestorsWithin hmem).2.1 heq

theorem Stood.put (h : x.Stood) (hx : x.disk.IsTree)
    (hw : x.put now target bytes = (result, y)) : y.disk.IsTree ∧ y.Stood := by
  have hcases := x.put_cases now target bytes
  rw [hw] at hcases
  rcases hcases with rfl | ⟨d, hput, rfl⟩
  · exact ⟨hx, h⟩
  · have hgrows := (x.put_grows now target bytes).2
    rw [hw] at hgrows
    exact ⟨(hx.writeFile hput).2.2, h.grows rfl hgrows⟩

theorem Stood.file (h : x.Stood) (hx : x.disk.IsTree) (htarget : target.IsRooted)
    (hw : x.file now target bytes = (result, y)) :
    y.disk.IsTree ∧ y.Clear ∧ (result = .ok () → y.Stood) := by
  have hput : ∀ z : Writing, z.disk.IsTree → z.Stood → z.put now target bytes = (result, y) →
      y.disk.IsTree ∧ y.Clear ∧ (result = .ok () → y.Stood) := by
    intro z hz hstood hput
    obtain ⟨htree, hkept⟩ := hstood.put hz hput
    exact ⟨htree, hkept.clear, fun _ => hkept⟩
  unfold Writing.file at hw
  split at hw
  · exact hput x hx h hw
  · next dir hparent =>
    obtain ⟨hdir, htrim, _⟩ := htarget.of_parent hparent
    split at hw
    · next e z hmake =>
      obtain ⟨rfl, rfl⟩ := Prod.mk.inj hw
      exact h.makeDirs hx hdir htrim hmake
    · next z hmake =>
      obtain ⟨htree, _, hstood⟩ := h.makeDirs hx hdir htrim hmake
      exact hput z htree (hstood rfl) hw

/-- However far files have been written, no file stands where something is noted. -/
theorem files_noted (h : x.Stood) (hx : x.disk.IsTree) (hrooted : ∀ e ∈ files, e.1.IsRooted) :
    (x.files now files).2.Clear := by
  induction files generalizing x with
  | nil => exact h.clear
  | cons e rest ih =>
    unfold files
    split
    · next err y hfile => exact (h.file hx (hrooted e (by simp)) hfile).2.1
    · next y hfile =>
      obtain ⟨htree, _, hstood⟩ := h.file hx (hrooted e (by simp)) hfile
      exact ih (hstood rfl) htree fun f hf => hrooted f (List.mem_cons_of_mem e hf)

/-! ## Cleaning up -/

/-- What writing files to a tree has come to, however far it has got. -/
structure Underway (d : Disk) (files : List (Path × ByteArray)) (x : Writing) : Prop where
  tracks : x.Tracks d files
  covers : x.Covers d
  clear : x.Clear

theorem files_underway {d : Disk} (hd : d.IsTree) (now : Int)
    (hrooted : ∀ e ∈ files, e.1.IsRooted) :
    ((Writing.mk d []).files now files).2.Underway d files := by
  refine ⟨files_tracks hd now files, files_covers hd now hrooted, ?_⟩
  have hstood : (Writing.mk d []).Stood := by
    intro p hp
    cases hp
  exact files_noted hstood hd hrooted

/-- A location that is in a new directory or is that of one. -/
def InNew (d : Disk) (x : Writing) (loc : Location) : Prop :=
  ∃ l closed, l <+: loc ∧ d.get? l = none ∧ x.disk.get? l = some (.dir closed)

/-- Cleaning up takes away what lies in a new directory, and nothing else. -/
theorem Underway.undone_get {d : Disk} {loc : Location} (h : x.Underway d files) (hd : d.IsTree) :
    (x.InNew d loc → x.undone.get? loc = none) ∧
      (¬ x.InNew d loc → x.undone.get? loc = x.disk.get? loc) := by
  obtain ⟨_, hgone⟩ := undone_eq hd h.tracks h.covers
  constructor
  · rintro ⟨l, closed, hpre, hnone, hdir⟩
    obtain ⟨p, hp, hpl⟩ := h.covers.covered l closed hdir hnone
    exact (hgone loc).1 ⟨p, hp, hpl.trans hpre⟩
  · intro hold
    by_cases hmade : ∃ p ∈ x.made, p.names <+: loc
    · -- If anything were there, what is noted would be a new directory above it.
      obtain ⟨p, hp, hpre⟩ := hmade
      rw [(hgone loc).1 ⟨p, hp, hpre⟩]
      have hnone := (h.covers.noted p hp).2.2.2
      cases hget : x.disk.get? p.names with
      | none => rw [h.tracks.tree.none_below hget hpre]
      | some e =>
        cases e with
        | dir closed => exact absurd ⟨_, closed, hpre, hnone, hget⟩ hold
        | file bytes time => exact absurd hget (h.clear p hp bytes time)
        | link target => exact absurd (h.tracks.tree.noLink _ _ hget) (by simp [Entry.isLink])
    · exact (hgone loc).2 fun p hp hpre => hmade ⟨p, hp, hpre⟩

end Writing

end RunCache
