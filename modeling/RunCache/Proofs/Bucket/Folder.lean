import Mathlib.Data.String.Basic
import RunCache.Bucket.Folder
import RunCache.Proofs.Disk.Lookup
import RunCache.Proofs.Disk.Parents

/-! # Objects in files

    * **`Folder.file_joined`**, **`Folder.nameOf_of_parts`**: files and the
      names of their objects.
    * **`Folder.prefixDirs`**, **`Folder.steps_startOf`**: the directory
      where a listing starts.
    * **`Folder.collect_eq`**, **`Folder.sorted_objects`**: what a listing
      makes of the visits of a walk. -/

namespace RunCache.Folder

open Text (joined segments)

variable {root : Path} {names : List String}

/-! ## Names of files -/

theorem joined_eq_foldl (hnames : ∀ s ∈ names, IsName s) (hne : names ≠ []) :
    (⟨joined names⟩ : Path) = names.foldl Path.join ⟨""⟩ := by
  rw [← Path.join_joined hnames hne]
  rw [Path.join, if_neg (Path.head_joined_ne_slash hnames hne)]
  simp

/-- The file of an object whose name is made of plain names. -/
theorem file_joined (root : Path) (hnames : ∀ s ∈ names, IsName s) (hne : names ≠ []) :
    file? root (joined names) = some (names.foldl Path.join root) := by
  have hparts : (⟨joined names⟩ : Path).parts = names := by
    rw [joined_eq_foldl hnames hne, Path.parts_foldl_join hnames]
    rfl
  have hplain : names.any (fun s => s = Path.rootPart || s = "." || s = "..") = false := by
    rw [List.any_eq_false]
    intro s hs
    obtain ⟨_, hdot, hup, hslash⟩ := hnames s hs
    have hroot : s ≠ Path.rootPart := by
      rintro rfl
      exact hslash (by decide)
    simp [hdot, hup, hroot]
  unfold file?
  simp only [hparts, hplain, Bool.false_eq_true, if_false]
  rw [Path.join_joined hnames hne]

/-- The name of the object in a file. -/
theorem nameOf_of_parts {file : Path} (h : file.parts = root.parts ++ names) :
    nameOf? root file = some (joined names) := by
  rw [nameOf?, Path.isBelow_of_parts h, if_pos rfl, h, List.drop_left]

/-! ## Where a listing starts -/

/-- The directories that the names of a listing are known to lie in: the segments before the last
    one of the text they begin with. Empty segments lead nowhere. -/
def prefixDirs (under : String) : List String := (segments under).dropLast.filter (!·.isEmpty)

/-- The start of a listing by the segments before the last one. -/
theorem startOf_eq (root : Path) (under : String) : startOf root under =
    if (segments under).dropLast = [] then root
    else root.join (joined (segments under).dropLast) := by
  unfold startOf
  split
  · next h => simp [h]
  · next h => simp [h]
  · next hnil hone =>
    rw [if_neg]
    intro hdrop
    -- Without segments before the last one there is at most one.
    have hlast := List.dropLast_append_getLast (Text.segments_ne_nil under)
    rw [hdrop, List.nil_append] at hlast
    exact hone _ hlast.symm

theorem joined_dropLast_head {under : String} (hhead : under.toList.head? ≠ some '/') :
    (joined (segments under).dropLast).toList.head? ≠ some '/' := by
  by_cases hnil : (segments under).dropLast = []
  · simp [hnil, joined]
  · have hlast := List.dropLast_append_getLast (Text.segments_ne_nil under)
    have hunder : under = joined (segments under).dropLast ++ "/" ++
        (segments under).getLast (Text.segments_ne_nil under) := by
      conv_lhs => rw [← Text.joined_segments under, ← hlast]
      rw [joined, String.intercalate_append_of_ne_nil hnil (by simp),
        String.intercalate_singleton, ← joined]
    rw [hunder] at hhead
    intro hslash
    obtain ⟨cs, hcs⟩ := List.head?_eq_some_iff.mp hslash
    simp [hcs] at hhead

/-- A listing of names that do not begin at the root starts in the directories they begin with. -/
theorem steps_startOf {under : String} (root : Path) (hhead : under.toList.head? ≠ some '/')
    (hdots : ∀ s ∈ segments under, s ≠ "." ∧ s ≠ "..") :
    (startOf root under).isAbsolute = root.isAbsolute ∧
      Disk.steps (startOf root under) = Disk.steps root ++ prefixDirs under ∧
      (startOf root under).parts = root.parts ++ prefixDirs under := by
  have hhead' := joined_dropLast_head hhead
  rw [startOf_eq]
  by_cases hnil : (segments under).dropLast = []
  · simp [hnil, prefixDirs]
  · have hdots' : ∀ s ∈ (segments under).dropLast, s ≠ "." :=
      fun s hs => (hdots s (List.dropLast_subset _ hs)).1
    have hsegs : segments (joined (segments under).dropLast) = (segments under).dropLast :=
      Text.segments_joined hnil fun s hs =>
        Text.no_slash_of_mem_segments (List.dropLast_subset _ hs)
    have hidle : (segments under).dropLast.filter (!Path.isIdle ·) = prefixDirs under := by
      refine List.filter_congr fun s hs => ?_
      by_cases hempty : s = "" <;> simp [Path.isIdle, hdots' s hs, hempty]
    have hdot : (segments (joined (segments under).dropLast)).head? ≠ some "." := by
      rw [hsegs]
      exact fun h => hdots' _ (List.mem_of_mem_head? h) rfl
    rw [if_neg hnil]
    refine ⟨Path.isAbsolute_join_of_head hhead', ?_, ?_⟩
    · rw [Disk.steps_join_of_head hhead', hsegs, prefixDirs]
    · rw [Path.parts_eq, Path.lead_join_of_head hhead' hdot, Path.names_join_of_head hhead', hsegs,
        hidle, Path.parts_eq, List.append_assoc]

theorem isName_of_mem_prefixDirs {under s : String}
    (hdots : ∀ s ∈ segments under, s ≠ "." ∧ s ≠ "..") (hs : s ∈ prefixDirs under) : IsName s := by
  obtain ⟨hmem, hne⟩ := List.mem_filter.mp hs
  have hsegs := List.dropLast_subset _ hmem
  exact ⟨by simpa using hne, (hdots s hsegs).1, (hdots s hsegs).2,
    Text.no_slash_of_mem_segments hsegs⟩

/-- Where a listing starts in a directory of its own, that has a name. -/
theorem prefixDirs_ne_nil {under : String} (hhead : under.toList.head? ≠ some '/')
    (hnil : (segments under).dropLast ≠ []) : prefixDirs under ≠ [] := by
  obtain ⟨first, more, hsegs⟩ := List.exists_cons_of_ne_nil (Text.segments_ne_nil under)
  have hmore : more ≠ [] := by
    rintro rfl
    exact hnil (by rw [hsegs]; rfl)
  have hfirst := Text.head_segments_ne_empty hsegs hmore hhead
  have hmem : first ∈ prefixDirs under := by
    refine List.mem_filter.mpr ⟨?_, by simpa using hfirst⟩
    rw [hsegs, List.dropLast_cons_of_ne_nil hmore]
    simp
  exact List.ne_nil_of_mem hmem

/-- A name inside a query goes on from the segments before the last one of what it begins with. -/
theorem segments_of_admits {q : Query} {name : String} (h : q.admits name = true) :
    ∃ more, more ≠ [] ∧ segments name = (segments q.under).dropLast ++ more := by
  simp only [Query.admits, Bool.and_eq_true, Text.startsWith, List.isPrefixOf_iff_prefix] at h
  obtain ⟨cs, hcs⟩ := h.1
  have hname : name = q.under ++ String.ofList cs := by
    apply String.toList_injective
    rw [← hcs]
    simp
  obtain ⟨init, last, first, more, hunder, _, happ⟩ :=
    Text.segments_append q.under (String.ofList cs)
  refine ⟨(last ++ first) :: more, by simp, ?_⟩
  rw [hname, happ, hunder, List.dropLast_concat]

/-! ## Listings -/

/-- The object of a visit. -/
def objectOf (root : Path) (q : Query) : Except WalkFault Visit → Option Listed
  | .ok v => object? root q v
  | .error _ => none

/-- Where no visit is a fault, the objects are those of all visits. -/
theorem collect_eq (root : Path) (q : Query) {visits : List (Except WalkFault Visit)}
    (h : ∀ x ∈ visits, ∃ v, x = .ok v) :
    collect root q visits = (visits.filterMap (objectOf root q), none) := by
  induction visits with
  | nil => rfl
  | cons x rest ih =>
    obtain ⟨v, rfl⟩ := h x (by simp)
    rw [collect, ih fun x hx => h x (List.mem_cons_of_mem _ hx), List.filterMap_cons, objectOf]
    cases object? root q v <;> rfl

/-- Objects of different names, put in the order of their names. -/
theorem sorted_objects {objects : List Listed} (h : objects.Pairwise fun a b => a.name ≠ b.name) :
    (objects.mergeSort fun a b => !decide (b.name < a.name)).Pairwise
      fun a b => a.name < b.name := by
  have hle : ∀ a b : Listed, (!decide (b.name < a.name)) = true ↔ a.name ≤ b.name := by
    intro a b
    rw [Bool.not_eq_true', decide_eq_false_iff_not, not_lt]
  have hsorted : (objects.mergeSort fun a b => !decide (b.name < a.name)).Pairwise
      fun a b => a.name ≤ b.name := by
    refine (List.pairwise_mergeSort ?_ ?_ objects).imp fun h => (hle _ _).mp h
    · intro a b c hab hbc
      exact (hle a c).mpr (((hle a b).mp hab).trans ((hle b c).mp hbc))
    · intro a b
      rw [Bool.or_eq_true, hle, hle]
      exact le_total a.name b.name
  have hne := h.perm (List.mergeSort_perm objects fun a b => !decide (b.name < a.name)).symm
    fun hne => hne.symm
  exact (hsorted.and hne).imp fun ⟨hle, hne⟩ => lt_of_le_of_ne hle hne

end RunCache.Folder
