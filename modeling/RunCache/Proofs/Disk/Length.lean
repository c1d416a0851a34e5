import Mathlib.Data.String.Basic
import RunCache.Proofs.Disk.Subtree

/-! # Lengths of paths

    The system takes a path by the length of its text, and slashes in a row
    lead nowhere.  So one place is found by some of its paths and not by
    others, and names followed from a path that the system takes may lead
    to one that it does not take.

    * **`Disk.accept_foldl_join`**: names followed from a path that the
      system takes.
    * **`TooLong.root`**: one directory under paths of any length.
    * **`TooLong.leadsTo`**, **`TooLong.accept_eq`**: what is found below
      it, and where the paths are too long. -/

namespace RunCache

open Text (joined)

/-! ## Names followed from a path -/

namespace Disk

variable {p : Path} {segs : List String}

/-- Names without NUL lead from a path that the system takes to one it takes, too, unless that is
    too long. -/
theorem accept_foldl_join (hacc : accept p = .ok ())
    (hsegs : ∀ s ∈ segs, IsName s ∧ '\x00' ∉ s.toList) :
    accept (segs.foldl Path.join p) =
      if (segs.foldl Path.join p).text.utf8ByteSize < pathLimit then .ok ()
      else .error .nameTooLong := by
  obtain ⟨hnul, hne, _⟩ := accept_eq_ok_iff.mp hacc
  have hnames : ∀ s ∈ segs, IsName s := fun s hs => (hsegs s hs).1
  have hnul' : '\x00' ∉ (segs.foldl Path.join p).text.toList := by
    rw [Path.mem_text_foldl_join (by decide) hnames]
    rintro (hp | ⟨s, hs, hin⟩)
    · exact hnul hp
    · exact (hsegs s hs).2 hin
  have hne' : (segs.foldl Path.join p).text ≠ "" := by
    by_cases hnil : segs = []
    · rwa [hnil]
    · exact Path.text_foldl_join_ne_empty hnames hnil
  by_cases hlong : (segs.foldl Path.join p).text.utf8ByteSize < pathLimit
  · rw [if_pos hlong, accept_eq_ok_iff]
    exact ⟨hnul', hne', hlong⟩
  · simp [accept, hnul', hne', hlong, Nat.not_lt.mp hlong]

/-- Where the system takes a path, none of the names it goes on by has a NUL. -/
theorem no_nul_of_accept (hacc : accept (segs.foldl Path.join p) = .ok ())
    (hsegs : ∀ s ∈ segs, IsName s) : ∀ s ∈ segs, '\x00' ∉ s.toList := by
  intro s hs hin
  refine (accept_eq_ok_iff.mp hacc).1 ?_
  rw [Path.mem_text_foldl_join (by decide) hsegs]
  exact .inr ⟨s, hs, hin⟩

end Disk

/-! ## One directory under many paths -/

namespace TooLong

/-- A directory followed by many slashes. -/
def root (slashes : Nat) : Path := ⟨"/w" ++ String.ofList (List.replicate slashes '/')⟩

theorem toList_root (n : Nat) : (root n).text.toList = '/' :: 'w' :: List.replicate n '/' := by
  simp [root]

theorem size_root (n : Nat) : (root n).text.utf8ByteSize = n + 2 := by
  have hslashes : ∀ n, (String.ofList (List.replicate n '/')).utf8ByteSize = n := by
    intro n
    rw [← String.utf8Len_toList, String.toList_ofList]
    induction n with
    | zero => rfl
    | succ n ih => rw [List.replicate_succ, String.utf8Len_cons, ih]; rfl
  rw [root, String.utf8ByteSize_append, hslashes, Nat.add_comm]
  rfl

theorem cut_slashes (n : Nat) : Text.cut (List.replicate n '/') = [] :: List.replicate n [] := by
  induction n with
  | zero => rfl
  | succ n ih => rw [List.replicate_succ, Text.cut_cons_slash, ih, List.replicate_succ]

/-- However many slashes there are, one name leads to the directory. -/
theorem root_isRooted (n : Nat) : (root n).IsRooted ∧ (root n).names = ["w"] := by
  have habs : (root n).isAbsolute = true := by simp [Path.isAbsolute, toList_root]
  have hrest : (root n).rest = 'w' :: List.replicate n '/' := by
    simp [Path.rest, habs, toList_root]
  have hnames : (root n).names = ["w"] := by
    rw [Path.names, Path.body_eq, hrest, Text.cut_cons_of_ne (by decide) (cut_slashes n)]
    simp [Path.isIdle]
  exact ⟨⟨habs, by simp [hnames]⟩, hnames⟩

variable {n : Nat} {segs : List String} {d : Disk}

/-- Names followed from there make a path longer by what they are long together. -/
theorem size_below (hn : n ≠ 0) (hsegs : ∀ s ∈ segs, IsName s) (hne : segs ≠ []) :
    (segs.foldl Path.join (root n)).text.utf8ByteSize = n + 2 + (joined segs).utf8ByteSize := by
  have hslash : (root n).endsWithSlash = true := by
    obtain ⟨m, rfl⟩ := Nat.exists_eq_succ_of_ne_zero hn
    simp [Path.endsWithSlash, toList_root, List.replicate_succ', List.getLast?_cons]
  have htext : ((root n).join "").text = (root n).text := by
    rw [Path.join, if_neg (by simp), if_pos (by simp [hslash])]
    simp
  rw [Path.text_foldl_join hsegs hne, htext, String.utf8ByteSize_append, size_root]

theorem accept_root (h : n + 2 < Disk.pathLimit) : Disk.accept (root n) = .ok () := by
  refine Disk.accept_eq_ok_iff.mpr ⟨?_, (root_isRooted n).1.text_ne_empty, by rwa [size_root]⟩
  simp [toList_root]

/-- Which paths below the directory the system takes is a matter of their length. -/
theorem accept_eq (hn : n ≠ 0) (h : n + 2 < Disk.pathLimit) (hne : segs ≠ [])
    (hsegs : ∀ s ∈ segs, IsName s ∧ '\x00' ∉ s.toList) :
    Disk.accept (segs.foldl Path.join (root n)) =
      if n + 2 + (joined segs).utf8ByteSize < Disk.pathLimit then .ok ()
      else .error .nameTooLong := by
  rw [Disk.accept_foldl_join (accept_root h) hsegs, size_below hn (fun s hs => (hsegs s hs).1) hne]

/-- The paths that the system takes lead to the directories below. -/
theorem leadsTo (hd : d.IsTree) (hn : n ≠ 0) (hne : segs ≠ [])
    (hsegs : ∀ s ∈ segs, IsName s ∧ '\x00' ∉ s.toList)
    (h : n + 2 + (joined segs).utf8ByteSize < Disk.pathLimit)
    (hdir : ∃ closed, d.get? ("w" :: segs) = some (.dir closed)) :
    d.LeadsTo (segs.foldl Path.join (root n)) ("w" :: segs) := by
  obtain ⟨hrooted, hroot⟩ := root_isRooted n
  obtain ⟨closed, hget⟩ := hdir
  have hnames : ∀ s ∈ segs, IsName s := fun s hs => (hsegs s hs).1
  have hacc := accept_eq hn (by omega) hne hsegs
  rw [if_pos h] at hacc
  have hplace : d.place (segs.foldl Path.join (root n)) = "w" :: segs := by
    rw [Disk.place_foldl_join hnames, Disk.place_of_isRooted hrooted, hroot]
    rfl
  have htrim := Path.isTrimmed_foldl_join (p := root n) hnames hne
  have hisDir := hd.isDir_of_get (hrooted.foldl_join hnames) htrim hacc (by rw [hplace, hget])
  exact hplace ▸ .of_isTree hd hisDir

end TooLong

end RunCache
