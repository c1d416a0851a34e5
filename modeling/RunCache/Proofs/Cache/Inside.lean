import RunCache.Proofs.Bucket.Folder
import RunCache.Proofs.Cache.OnDisk
import RunCache.Proofs.Cache.Place

/-! # Reading stays below the root

    A bucket on disk and a cache both read the file of an object below a
    root, and each has its own guard.  A folder looks at what the name
    passes through as a path, so dots behind the first segment do not
    matter to it; a cache looks at all segments.  Whichever it is, a name
    is refused before anything is read, or it is the name of one file at or
    below the root, and the answer depends on no other.

    * **`Disk.ReadsOnly`**: answers that depend on certain files only.
    * **`Path.LiesBelow`**: paths that go on from a root by names.
    * **`Folder.file_eq`**, **`Folder.liesBelow`**: the names a folder
      refuses, and the files of all others.
    * **`CachePath.liesBelow`**: the file of an object in a cache.
    * **`reads_stay_below`**: reading from either. -/

namespace RunCache

open Text (segments)

/-! ## Files below a root -/

/-- An answer that depends on the disk only by what reading certain files gives. -/
def Disk.ReadsOnly {α : Type} (files : List Path) (answer : Disk → α) : Prop :=
  ∀ d d', (∀ p ∈ files, d'.readFile p = d.readFile p) → answer d' = answer d

/-- A path that goes on from a root by plain names, if by any. -/
structure Path.LiesBelow (root : Path) (way : List String) (p : Path) : Prop where
  plain : ∀ s ∈ way, IsName s
  absolute : p.isAbsolute = root.isAbsolute
  names : p.names = root.names ++ way
  parts : p.parts = root.parts ++ way

namespace Path.LiesBelow

variable {root p : Path} {way : List String}

/-- In a tree it leads to the place that the names lead to from that of the root. -/
theorem loc_eq {d : Disk} {follow : Bool} {loc : Location} {e : Entry} (h : LiesBelow root way p)
    (hd : d.IsTree) (hs : d.stat follow p = .ok (loc, e)) : loc = d.place root ++ way := by
  rw [(hd.stat_ok hs).1, Disk.place_of_names h.plain d h.absolute h.names]

theorem foldl_join (hway : ∀ s ∈ way, IsName s) (root : Path) :
    LiesBelow root way (way.foldl Path.join root) :=
  ⟨hway, isAbsolute_foldl_join hway, names_foldl_join hway, parts_foldl_join hway⟩

end Path.LiesBelow

/-- The names that an object has below a root: the segments of its name that lead anywhere. -/
def ObjectName.way (name : String) : List String := (segments name).filter (!Path.isIdle ·)

/-! ## Folders -/

namespace Folder

/-- Names that are no plain relative paths: they start at the root or with a dot, or lead up. -/
def Refuses (name : String) : Prop :=
  name.toList.head? = some '/' ∨ (segments name).head? = some "." ∨ ".." ∈ segments name

instance : DecidablePred Refuses := fun _ => instDecidableOr

/-- What a name passes through tells whether it is refused. -/
theorem any_parts_iff (name : String) :
    ((⟨name⟩ : Path).parts.any fun s => s = Path.rootPart || s = "." || s = "..") = true ↔
      Refuses name := by
  by_cases hhead : name.toList.head? = some '/'
  · have habs : (⟨name⟩ : Path).isAbsolute = true := by simpa [Path.isAbsolute] using hhead
    simp [Path.parts_of_isAbsolute habs, Refuses, hhead]
  · have habs : (⟨name⟩ : Path).isAbsolute = false := by simpa [Path.isAbsolute] using hhead
    have hbody : (⟨name⟩ : Path).body = segments name := by simp [Path.body, habs]
    -- Behind the lead no dot is left, and no segment is the root.
    have hnames : ((⟨name⟩ : Path).names.any fun s => s = Path.rootPart || s = "." || s = "..") =
        true ↔ ".." ∈ segments name := by
      rw [Path.names, hbody, List.any_eq_true]
      constructor
      · rintro ⟨s, hs, hodd⟩
        obtain ⟨hmem, hidle⟩ := List.mem_filter.mp hs
        have hroot : s ≠ Path.rootPart := by
          rintro rfl
          exact Text.no_slash_of_mem_segments hmem (by decide)
        have hdot : s ≠ "." := by
          rintro rfl
          exact absurd hidle (by decide)
        have hup : s = ".." := by simpa [hroot, hdot] using hodd
        exact hup ▸ hmem
      · intro hup
        exact ⟨"..", List.mem_filter.mpr ⟨hup, by decide⟩, by decide⟩
    rw [Path.parts_eq, List.any_append, Bool.or_eq_true, hnames, Path.lead, habs, hbody]
    by_cases hdot : (segments name).head? = some "." <;> simp [Refuses, hhead, hdot]

/-- The file of an object lies where its name leads from the root, unless the name is refused. -/
theorem file_eq (root : Path) (name : String) :
    file? root name = if Refuses name then none else some (root.join name) := by
  unfold file?
  by_cases hrefuses : Refuses name
  · rw [if_pos hrefuses]
    exact if_pos ((any_parts_iff name).mpr hrefuses)
  · rw [if_neg hrefuses]
    exact if_neg fun hany => hrefuses ((any_parts_iff name).mp hany)

/-- Whatever is not refused lies at the root or below. -/
theorem liesBelow {name : String} (h : ¬ Refuses name) (root : Path) :
    Path.LiesBelow root (ObjectName.way name) (root.join name) := by
  obtain ⟨hhead, hdot, hup⟩ := by simpa only [Refuses, not_or] using h
  have hnames := Path.names_join_of_head (p := root) hhead
  refine ⟨fun s hs => ?_, Path.isAbsolute_join_of_head hhead, hnames, ?_⟩
  · obtain ⟨hmem, hidle⟩ := List.mem_filter.mp hs
    obtain ⟨hne, hdot'⟩ : s ≠ "" ∧ s ≠ "." := by simpa [Path.isIdle] using hidle
    exact ⟨hne, hdot', fun hs' => hup (hs' ▸ hmem), Text.no_slash_of_mem_segments hmem⟩
  · rw [Path.parts_eq, Path.lead_join_of_head hhead hdot, hnames, ← List.append_assoc,
      ← Path.parts_eq, ObjectName.way]

/-- The body of an object is read from its file. -/
theorem body_readsOnly {root p : Path} {name : String} (h : file? root name = some p) :
    Disk.ReadsOnly [p] fun d => body d root name := by
  intro d d' hsame
  simp only [body, h, hsame p (by simp)]

end Folder

/-! ## Caches -/

/-- The names that a cache refuses. -/
theorem ObjectName.staysInside_eq_false_iff {name : String} : staysInside name = false ↔
    name = "" ∨ "." ∈ segments name ∨ ".." ∈ segments name := by
  simp only [staysInside, Bool.and_eq_false_iff, Bool.not_eq_false', String.isEmpty_iff,
    List.any_eq_true, Bool.or_eq_true, decide_eq_true_eq]
  constructor
  · rintro (hempty | ⟨s, hs, rfl | rfl⟩)
    · exact .inl hempty
    · exact .inr (.inl hs)
    · exact .inr (.inr hs)
  · rintro (hempty | hs | hs)
    · exact .inl hempty
    · exact .inr ⟨_, hs, .inl rfl⟩
    · exact .inr ⟨_, hs, .inr rfl⟩

/-- The segments of a name that stays inside lead down one by one. -/
theorem ObjectName.way_eq_steps {name : String} (h : staysInside name = true) :
    way name = steps name := by
  have hplain : (steps name).filter (!Path.isIdle ·) = steps name :=
    List.filter_eq_self.mpr fun s hs => by simp [(IsName.of_mem_steps h hs).not_idle]
  rw [← hplain, steps, List.filter_filter, way]
  refine List.filter_congr fun s _ => ?_
  by_cases hempty : s = "" <;> simp [Path.isIdle, hempty]

/-- The file of an object in a cache lies at its root or below. -/
theorem CachePath.liesBelow {name : String} (h : ObjectName.staysInside name = true)
    (root : Path) : Path.LiesBelow root (ObjectName.way name) (ofObject root name) := by
  rw [ObjectName.way_eq_steps h, ofObject_eq]
  exact .foldl_join (fun _ hs => .of_mem_steps h hs) root

namespace Run

variable {root : Path} {name : String} {r : Run} (store : Store)

/-- A name that does not stay inside is refused, and nothing has happened. -/
theorem content_refused (hr : r.origin = .cache root) (h : ObjectName.staysInside name = false)
    (w : World) : ∃ e, r.content store name w = (.error e, r, w) ∧
      (e = .emptyPath ∨ e = .fetch name "path escapes the working directory") := by
  unfold content
  by_cases hempty : name.isEmpty = true
  · exact ⟨_, if_pos hempty, .inl rfl⟩
  · refine ⟨_, ?_, .inr rfl⟩
    rw [if_neg hempty]
    simp only [hr, cachedContent, h, Bool.not_false, if_true]

/-- What all others stand for depends on one file. -/
theorem content_readsOnly (hr : r.origin = .cache root) (h : ObjectName.staysInside name = true)
    (w : World) :
    Disk.ReadsOnly [CachePath.ofObject root name]
      fun d => (r.content store name (w.onDisk d)).1 := by
  intro d d' hsame
  have hanswer : openCached d' root name = openCached d root name := by
    simp only [openCached, hsame _ (List.mem_singleton.mpr rfl)]
  simp only [content_opens store hr h, World.onDisk_disk, hanswer]
  -- What becomes of the call is decided by the signal, and that is not on the disk.
  rw [World.call_onDisk rfl, World.call_onDisk rfl]

end Run

/-! ## Reading -/

/-- No name makes a folder or a cached run read anything but one file at the root or below, where
    the segments of the name lead from there. The other names are refused whatever the disk holds:
    by a folder if they start at the root or with a dot or lead up, by a cached run, for which
    nothing has happened then, if they are empty or have a segment of one or two dots. -/
theorem reads_stay_below {d : Disk} (hd : d.IsTree) (root : Path) (name : String) :
    (∀ p follow loc e, Path.LiesBelow root (ObjectName.way name) p →
      d.stat follow p = .ok (loc, e) → loc = d.place root ++ ObjectName.way name) ∧
    (if Folder.Refuses name then
      ∀ w, ((Folder.store root).read w name).outcome =
        some (.error (.fetch name "object name is not a plain relative path"))
    else ∃ p, Path.LiesBelow root (ObjectName.way name) p ∧ ∀ w : World,
      Disk.ReadsOnly [p] fun d => ((Folder.store root).read (w.onDisk d) name).outcome) ∧
    ∀ (store : Store) (r : Run), r.origin = .cache root →
      if name = "" ∨ "." ∈ segments name ∨ ".." ∈ segments name then
        ∀ w, ∃ e, r.content store name w = (.error e, r, w) ∧
          (e = .emptyPath ∨ e = .fetch name "path escapes the working directory")
      else ∃ p, Path.LiesBelow root (ObjectName.way name) p ∧ ∀ w : World,
        World.Calls (fun e => e = .openFile p ∨ e = .fired) w (r.content store name w).2.2 ∧
          Disk.ReadsOnly [p] fun d => (r.content store name (w.onDisk d)).1 := by
  refine ⟨fun p follow loc e hp hs => hp.loc_eq hd hs, ?_, fun store r hr => ?_⟩
  · split
    · next hrefuses =>
      intro w
      simp [Folder.store, Folder.body, Folder.file_eq, hrefuses]
    · next hplain =>
      refine ⟨_, Folder.liesBelow hplain root, fun w d d' hsame => ?_⟩
      have hfile : Folder.file? root name = some (root.join name) := by
        rw [Folder.file_eq, if_neg hplain]
      exact congrArg some (Folder.body_readsOnly hfile d d' hsame)
  · split
    · next hrefuses =>
      exact Run.content_refused store hr (ObjectName.staysInside_eq_false_iff.mpr hrefuses)
    · next hplain =>
      have hinside : ObjectName.staysInside name = true := by
        simpa using fun hout => hplain (ObjectName.staysInside_eq_false_iff.mp hout)
      refine ⟨_, CachePath.liesBelow hinside root, fun w => ⟨?_, ?_⟩⟩
      · rw [Run.content_opens store hr hinside]
        exact World.call_calls w _ _ (.inl rfl) (.inr rfl)
      · exact Run.content_readsOnly store hr hinside w

/-! ## A name that only one of them takes -/

namespace BesideRoot

/-- A file below a directory and one beside it. -/
def disk : Disk where
  entries :=
    [(["secret"], .file "two".toUTF8 0), (["w"], .dir false), (["w", "a"], .dir false),
      (["w", "a", "x"], .file "one".toUTF8 0)]

theorem disk_isTree : disk.IsTree :=
  .of_entries (by decide) (by decide) (by decide)

/-- A run cached there. -/
def run : Run := { job := "job", id := "1", origin := .cache ⟨"/w"⟩ }

end BesideRoot

/-- A dot between two slashes leads a folder to the file below it, where a cached run refuses the
    name. The name that leads to the file beside the directory is refused by both. -/
theorem reads_stay_below_dots :
    ((∃ p, Path.LiesBelow ⟨"/w"⟩ ["a", "x"] p ∧
        ∀ follow loc e, BesideRoot.disk.stat follow p = .ok (loc, e) → loc = ["w", "a", "x"]) ∧
      ((Folder.store ⟨"/w"⟩).read { disk := BesideRoot.disk } "a/./x").outcome =
        some (.ok "one".toUTF8) ∧
      ∃ e, BesideRoot.run.content (Folder.store ⟨"/w"⟩) "a/./x" { disk := BesideRoot.disk } =
        (.error e, BesideRoot.run, { disk := BesideRoot.disk })) ∧
    ((Folder.store ⟨"/w"⟩).read { disk := BesideRoot.disk } "../secret").outcome =
        some (.error (.fetch "../secret" "object name is not a plain relative path")) ∧
      ∃ e, BesideRoot.run.content (Folder.store ⟨"/w"⟩) "../secret" { disk := BesideRoot.disk } =
        (.error e, BesideRoot.run, { disk := BesideRoot.disk }) := by
  obtain ⟨hplace, hfolder, hcached⟩ := reads_stay_below BesideRoot.disk_isTree ⟨"/w"⟩ "a/./x"
  obtain ⟨_, hfolder', hcached'⟩ := reads_stay_below BesideRoot.disk_isTree ⟨"/w"⟩ "../secret"
  have hway : ObjectName.way "a/./x" = ["a", "x"] := by decide
  rw [hway] at hplace hfolder
  rw [if_neg (by decide)] at hfolder
  rw [if_pos (by decide)] at hfolder'
  obtain ⟨p, hbelow, _⟩ := hfolder
  have hrefused := hcached (Folder.store ⟨"/w"⟩) BesideRoot.run rfl
  have hrefused' := hcached' (Folder.store ⟨"/w"⟩) BesideRoot.run rfl
  rw [if_pos (by decide)] at hrefused hrefused'
  obtain ⟨e, he, _⟩ := hrefused { disk := BesideRoot.disk }
  obtain ⟨e', he', _⟩ := hrefused' { disk := BesideRoot.disk }
  exact ⟨⟨⟨p, hbelow, fun follow loc e hs => hplace p follow loc e hbelow hs⟩, rfl, e, he⟩,
    hfolder' _, e', he'⟩

end RunCache
