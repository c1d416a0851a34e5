import RunCache.Proofs.Bucket.Folder
import RunCache.Proofs.Bucket.Memory
import RunCache.Proofs.Disk.Subtree
import RunCache.Proofs.Disk.Walk

/-! # Mirrors of buckets

    A directory whose files are the objects of a bucket answers as the
    bucket does.

    * **`Folder.Mirrors`**: directories that hold the objects of a bucket.
    * **`Mirrors.mem_objects`**: what a listing makes of its walk.
    * **`Mirrors.items_eq`**, **`Mirrors.body_eq`**: listings and bodies.
    * **`mirror_agrees`**: both stores answer alike. -/

namespace RunCache

namespace Folder

open Disk (LeadsTo accept steps)
open Text (joined segments)

/-- A directory that holds the objects of a bucket and no other files: an object is the file under
    the segments of its name, last changed when the object was created. Links may lead to the
    directory, but none lies below it, and the system takes all paths from there. -/
structure Mirrors (d : Disk) (root : Path) (loc : Location) (objects : Fields Stored) : Prop where
  leads : d.LeadsTo root loc
  names : ∀ rel e, d.get? (loc ++ rel) = some e → ∀ s ∈ rel, IsName s
  short : ∀ rel e, d.get? (loc ++ rel) = some e → accept (rel.foldl Path.join root) = .ok ()
  files : ∀ name bytes time, d.get? (loc ++ segments name) = some (.file bytes time) ↔
    objects.get? name = some ⟨bytes, time⟩

/-- The paths of the directories where a listing goes are such as the system takes. They are spelled
    as the text that the names begin with, which may have empty segments. -/
def Opens (d : Disk) (root : Path) (loc : Location) (under : String) : Prop :=
  ∀ rel closed, d.get? (loc ++ prefixDirs under ++ rel) = some (.dir closed) →
    accept (rel.foldl Path.join (startOf root under)) = .ok ()

namespace Mirrors

variable {d : Disk} {root : Path} {loc : Location} {objects : Fields Stored} {rel : List String}
  {name under : String} {bytes : ByteArray} {time : Int} {e : Entry} {q : Query}

/-! ## Objects and files -/

/-- A file below the directory is an object. -/
theorem object_of_file (h : Mirrors d root loc objects)
    (hget : d.get? (loc ++ rel) = some (.file bytes time)) :
    segments (joined rel) = rel ∧ objects.get? (joined rel) = some ⟨bytes, time⟩ := by
  -- The directory itself is no file.
  have hne : rel ≠ [] := by
    rintro rfl
    obtain ⟨closed, hdir⟩ := h.leads.dir
    rw [List.append_nil, hdir] at hget
    cases hget
  have hsegs : segments (joined rel) = rel :=
    Text.segments_joined hne fun s hs => (h.names _ _ hget s hs).2.2.2
  exact ⟨hsegs, (h.files _ _ _).mp (by rw [hsegs, hget])⟩

/-- An object inside a query lies in the directories that its name begins with, none of which is
    empty. -/
theorem below_prefixDirs (h : Mirrors d root loc objects) (hadmits : q.admits name = true)
    (hobject : objects.get? name = some ⟨bytes, time⟩) :
    prefixDirs q.under = (segments q.under).dropLast ∧
      ∃ more, more ≠ [] ∧ segments name = prefixDirs q.under ++ more ∧
        ∃ closed, d.get? (loc ++ prefixDirs q.under) = some (.dir closed) := by
  have hfile := (h.files _ _ _).mpr hobject
  obtain ⟨more, hmore, hsegs⟩ := segments_of_admits hadmits
  rw [hsegs] at hfile
  -- The segments are those of a file, and its names are not empty.
  have hdirs : prefixDirs q.under = (segments q.under).dropLast := by
    refine List.filter_eq_self.mpr fun s hs => ?_
    simpa using (h.names _ _ hfile s (List.mem_append_left _ hs)).1
  refine ⟨hdirs, more, hmore, by rw [hdirs, hsegs], ?_⟩
  rw [hdirs]
  exact h.leads.tree.dir_above hfile (List.prefix_append _ _) (by simpa using Ne.symm hmore)

/-- The way to a directory is spelled by its names where none of them is empty. -/
theorem startOf_eq_foldl (hdots : ∀ s ∈ segments under, s ≠ "." ∧ s ≠ "..")
    (hdirs : prefixDirs under = (segments under).dropLast) :
    startOf root under = (prefixDirs under).foldl Path.join root := by
  rw [startOf_eq]
  by_cases hnil : (segments under).dropLast = []
  · rw [if_pos hnil, hdirs, hnil]
    rfl
  · rw [if_neg hnil, ← hdirs]
    exact Path.join_joined (fun s hs => isName_of_mem_prefixDirs hdots hs) (hdirs ▸ hnil)

/-! ## The start of a listing -/

/-- What a listing finds at its start lies under the directories that the names begin with. -/
theorem get_of_stat {l : Location} (h : Mirrors d root loc objects)
    (hhead : under.toList.head? ≠ some '/') (hdots : ∀ s ∈ segments under, s ≠ "." ∧ s ≠ "..")
    (hstat : d.stat true (startOf root under) = .ok (l, e)) :
    l = loc ++ prefixDirs under ∧ d.get? (loc ++ prefixDirs under) = some e := by
  by_cases hnil : (segments under).dropLast = []
  · obtain ⟨closed, hdir, hfound⟩ := h.leads.found
    rw [startOf_eq, if_pos hnil, hfound] at hstat
    obtain ⟨rfl, rfl⟩ := Prod.mk.inj (Except.ok.inj hstat)
    simp [prefixDirs, hnil, hdir]
  · obtain ⟨habs, hsteps, _⟩ := steps_startOf root hhead hdots
    exact h.leads.get_of_stat (prefixDirs_ne_nil hhead hnil)
      (fun s hs => isName_of_mem_prefixDirs hdots hs) habs hsteps hstat

/-- The last link is followed at the start only where that is the directory itself. -/
theorem stat_unfollowed {l : Location} (h : Mirrors d root loc objects)
    (hhead : under.toList.head? ≠ some '/') (hdots : ∀ s ∈ segments under, s ≠ "." ∧ s ≠ "..")
    (hstat : d.stat true (startOf root under) = .ok (l, e)) :
    d.stat false (startOf root under) = .ok (l, e) ∨
      e.isDir = true ∧ ∃ l target, d.stat false (startOf root under) = .ok (l, .link target) := by
  rcases Disk.stat_unfollowed hstat with hsame | ⟨l', target, hlink⟩
  · exact .inl hsame
  · refine .inr ⟨?_, l', target, hlink⟩
    by_cases hnil : (segments under).dropLast = []
    · obtain ⟨closed, _, hfound⟩ := h.leads.found
      rw [startOf_eq, if_pos hnil, hfound] at hstat
      obtain ⟨_, rfl⟩ := Prod.mk.inj (Except.ok.inj hstat)
      rfl
    · -- Further down nothing is a link.
      obtain ⟨habs, hsteps, _⟩ := steps_startOf root hhead hdots
      have hget := (h.leads.get_of_stat (prefixDirs_ne_nil hhead hnil)
        (fun s hs => isName_of_mem_prefixDirs hdots hs) habs hsteps hlink).2
      exact absurd (h.leads.tree.noLink _ _ hget) (by simp [Entry.isLink])

/-- A directory that objects of the query lie in is found. -/
theorem stat_start (h : Mirrors d root loc objects) (hhead : q.under.toList.head? ≠ some '/')
    (hdots : ∀ s ∈ segments q.under, s ≠ "." ∧ s ≠ "..") (hadmits : q.admits name = true)
    (hobject : objects.get? name = some ⟨bytes, time⟩) :
    ∃ closed, d.stat true (startOf root q.under) =
      .ok (loc ++ prefixDirs q.under, .dir closed) := by
  obtain ⟨hdirs, _, _, _, closed, hdir⟩ := h.below_prefixDirs hadmits hobject
  by_cases hnil : (segments q.under).dropLast = []
  · obtain ⟨closed, _, hfound⟩ := h.leads.found
    exact ⟨closed, by rw [startOf_eq, if_pos hnil, hdirs, hnil, List.append_nil, hfound]⟩
  · obtain ⟨habs, hsteps, _⟩ := steps_startOf root hhead hdots
    refine ⟨closed, h.leads.stat_below (prefixDirs_ne_nil hhead hnil)
      (fun s hs => isName_of_mem_prefixDirs hdots hs) habs hsteps ?_ (fun _ => rfl) hdir true⟩
    rw [startOf_eq_foldl hdots hdirs]
    exact h.short _ _ hdir

/-- Where none of the segments a listing starts with is empty, all paths are spelled by names. -/
theorem opens (h : Mirrors d root loc objects) (hdots : ∀ s ∈ segments under, s ≠ "." ∧ s ≠ "..")
    (hempty : "" ∉ (segments under).dropLast) : Opens d root loc under := by
  intro rel closed hdir
  have hdirs : prefixDirs under = (segments under).dropLast := by
    refine List.filter_eq_self.mpr fun s hs => ?_
    have hne : s ≠ "" := fun heq => hempty (heq ▸ hs)
    simpa using hne
  rw [startOf_eq_foldl hdots hdirs, ← List.foldl_append]
  exact h.short _ _ (List.append_assoc loc _ rel ▸ hdir)

/-! ## Visits -/

/-- The walk of a listing whose start is found. -/
theorem walksFiles {l : Location} (h : Mirrors d root loc objects)
    (hhead : under.toList.head? ≠ some '/') (hdots : ∀ s ∈ segments under, s ≠ "." ∧ s ≠ "..")
    (hopens : Opens d root loc under) (hstat : d.stat true (startOf root under) = .ok (l, e)) :
    d.WalksFiles (startOf root under) (loc ++ prefixDirs under) := by
  obtain ⟨rfl, hget⟩ := h.get_of_stat hhead hdots hstat
  have htree := h.leads.tree.below (prefixDirs under)
  cases e with
  | dir closed =>
    rcases h.stat_unfollowed hhead hdots hstat with hsame | ⟨_, _, _, hlink⟩
    · exact Disk.walksFiles_of_dir htree hget rfl hopens (Disk.walk_of_dir hsame)
    · exact Disk.walksFiles_of_dir htree hget rfl hopens (Disk.walk_of_link hlink hstat)
  | file bytes time =>
    rcases h.stat_unfollowed hhead hdots hstat with hsame | ⟨hdir, _⟩
    · exact Disk.walksFiles_of_file htree hget (Disk.walk_of_file hsame)
    · cases hdir
  | link target => exact absurd (h.leads.tree.noLink _ _ hget) (by simp [Entry.isLink])

/-- What a visit shows: a file, if its name is inside the query. -/
theorem objectOf_visit {x : Listed} (hhead : q.under.toList.head? ≠ some '/')
    (hdots : ∀ s ∈ segments q.under, s ≠ "." ∧ s ≠ "..") (hrel : ∀ s ∈ rel, IsName s) :
    objectOf root q (.ok ⟨rel.foldl Path.join (startOf root q.under), rel, e⟩) = some x ↔
      ∃ bytes time, e = .file bytes time ∧ q.admits (joined (prefixDirs q.under ++ rel)) = true ∧
        x = ⟨joined (prefixDirs q.under ++ rel), time⟩ := by
  have hparts : (rel.foldl Path.join (startOf root q.under)).parts =
      root.parts ++ (prefixDirs q.under ++ rel) := by
    rw [Path.parts_foldl_join hrel, (steps_startOf root hhead hdots).2.2, List.append_assoc]
  cases e with
  | dir closed => simp [objectOf, object?]
  | link target => simp [objectOf, object?]
  | file bytes time =>
    simp only [objectOf, object?, nameOf_of_parts hparts]
    by_cases hadmits : q.admits (joined (prefixDirs q.under ++ rel)) = true
    · simp [hadmits, eq_comm]
    · simp [hadmits]

/-- A visit that shows an object is one of a file below the directory, and the object is that of
    the file. -/
theorem object_of_visit {visit : Except WalkFault Visit} {x : Listed}
    (h : Mirrors d root loc objects) (hhead : q.under.toList.head? ≠ some '/')
    (hdots : ∀ s ∈ segments q.under, s ≠ "." ∧ s ≠ "..")
    (hwalks : d.WalksFiles (startOf root q.under) (loc ++ prefixDirs q.under))
    (hvisit : visit ∈ d.walk (startOf root q.under)) (hx : objectOf root q visit = some x) :
    ∃ rel bytes, d.get? (loc ++ (prefixDirs q.under ++ rel)) = some (.file bytes x.created) ∧
      visit = .ok ⟨rel.foldl Path.join (startOf root q.under), rel, .file bytes x.created⟩ ∧
      segments x.name = prefixDirs q.under ++ rel ∧ q.admits x.name = true ∧
      objects.get? x.name = some ⟨bytes, x.created⟩ := by
  obtain ⟨rel, e, rfl, hfile⟩ := hwalks.visits visit hvisit
  have hisFile : e.isFile = true := by
    cases e with
    | file => rfl
    | dir => cases hx
    | link => cases hx
  have hget := hfile hisFile
  rw [List.append_assoc] at hget
  have hrel : ∀ s ∈ rel, IsName s := fun s hs => h.names _ _ hget s (List.mem_append_right _ hs)
  obtain ⟨bytes, time, rfl, hadmits, rfl⟩ := (objectOf_visit hhead hdots hrel).mp hx
  obtain ⟨hsegs, hobject⟩ := h.object_of_file hget
  exact ⟨rel, bytes, hget, rfl, hsegs, hadmits, hobject⟩

/-! ## Listings -/

/-- The objects of a walk are those of the bucket that are inside the query. -/
theorem mem_objects {x : Listed} (h : Mirrors d root loc objects)
    (hhead : q.under.toList.head? ≠ some '/') (hdots : ∀ s ∈ segments q.under, s ≠ "." ∧ s ≠ "..")
    (hwalks : d.WalksFiles (startOf root q.under) (loc ++ prefixDirs q.under)) :
    x ∈ (d.walk (startOf root q.under)).filterMap (objectOf root q) ↔
      q.admits x.name = true ∧ ∃ bytes, objects.get? x.name = some ⟨bytes, x.created⟩ := by
  rw [List.mem_filterMap]
  constructor
  · rintro ⟨visit, hvisit, hx⟩
    obtain ⟨_, bytes, _, _, _, hadmits, hobject⟩ :=
      h.object_of_visit hhead hdots hwalks hvisit hx
    exact ⟨hadmits, bytes, hobject⟩
  · rintro ⟨hadmits, bytes, hobject⟩
    obtain ⟨_, rel, _, hsegs, _⟩ := h.below_prefixDirs hadmits hobject
    have hget := (h.files _ _ _).mpr hobject
    rw [hsegs] at hget
    have hrel : ∀ s ∈ rel, IsName s :=
      fun s hs => h.names _ _ hget s (List.mem_append_right _ hs)
    have hname : joined (prefixDirs q.under ++ rel) = x.name := by
      rw [← hsegs, Text.joined_segments]
    refine ⟨_, hwalks.files rel bytes x.created (by rw [List.append_assoc, hget]),
      (objectOf_visit hhead hdots hrel).mpr ⟨bytes, x.created, rfl, ?_⟩⟩
    rw [hname]
    exact ⟨hadmits, rfl⟩

/-- Different visits are of different objects. -/
theorem objects_pairwise (h : Mirrors d root loc objects)
    (hhead : q.under.toList.head? ≠ some '/') (hdots : ∀ s ∈ segments q.under, s ≠ "." ∧ s ≠ "..")
    (hwalks : d.WalksFiles (startOf root q.under) (loc ++ prefixDirs q.under)) :
    ((d.walk (startOf root q.under)).filterMap (objectOf root q)).Pairwise
      fun a b => a.name ≠ b.name := by
  refine List.pairwise_filterMap.mpr (hwalks.nodup.imp_of_mem ?_)
  intro a b ha hb hne x hx y hy hname
  obtain ⟨rel, bytes, hget, rfl, hsegs, _⟩ := h.object_of_visit hhead hdots hwalks ha hx
  obtain ⟨rel', bytes', hget', rfl, hsegs', _⟩ := h.object_of_visit hhead hdots hwalks hb hy
  -- One name means one place, and with it one visit.
  rw [hname, hsegs', List.append_cancel_left_eq] at hsegs
  rw [hsegs, hget, Option.some.injEq] at hget'
  exact hne (by rw [hsegs, hget'])

/-- A listing has exactly the objects of the bucket that are inside the query, in the order of
    their names. -/
theorem exists_items (h : Mirrors d root loc objects) (hhead : q.under.toList.head? ≠ some '/')
    (hdots : ∀ s ∈ segments q.under, s ≠ "." ∧ s ≠ "..") (hopens : Opens d root loc q.under) :
    ∃ xs : List Listed, items d root q = xs.map .ok ∧
      (xs.Pairwise fun a b => a.name < b.name) ∧
      ∀ x, x ∈ xs ↔
        q.admits x.name = true ∧ ∃ bytes, objects.get? x.name = some ⟨bytes, x.created⟩ := by
  cases hstat : d.stat true (startOf root q.under) with
  | error f =>
    -- Without a directory to start in nothing is listed, and there is nothing to list.
    refine ⟨[], by simp [items, hstat], List.Pairwise.nil, fun x => ⟨nofun, ?_⟩⟩
    rintro ⟨hadmits, bytes, hobject⟩
    obtain ⟨closed, hfound⟩ := h.stat_start hhead hdots hadmits hobject
    rw [hstat] at hfound
    cases hfound
  | ok found =>
    obtain ⟨l, e⟩ := found
    have hwalks := h.walksFiles hhead hdots hopens hstat
    have hok : ∀ x ∈ d.walk (startOf root q.under), ∃ v, x = .ok v := by
      intro x hx
      obtain ⟨rel, e, rfl, _⟩ := hwalks.visits x hx
      exact ⟨_, rfl⟩
    refine ⟨_, ?_, sorted_objects (h.objects_pairwise hhead hdots hwalks), fun x => ?_⟩
    · simp [items, hstat, collect_eq root q hok]
    · rw [List.mem_mergeSort, h.mem_objects hhead hdots hwalks]

/-- The listing is that of the bucket. -/
theorem items_eq {m : Memory} (h : Mirrors d root loc m.objects) (hsorted : m.objects.Sorted)
    (hhead : q.under.toList.head? ≠ some '/') (hdots : ∀ s ∈ segments q.under, s ≠ "." ∧ s ≠ "..")
    (hopens : Opens d root loc q.under) : items d root q = (m.listing q).map .ok := by
  obtain ⟨xs, hitems, hxs, hmem⟩ := h.exists_items hhead hdots hopens
  have hlisting := Memory.listing_sorted hsorted q
  -- Both are in name order and have the same objects.
  have hperm : xs.Perm (m.listing q) := by
    refine (List.perm_ext_iff_of_nodup (hxs.imp fun hlt heq => ?_)
      (hlisting.imp fun hlt heq => ?_)).mpr fun x => ?_
    · rw [heq] at hlt
      exact lt_irrefl _ hlt
    · rw [heq] at hlt
      exact lt_irrefl _ hlt
    · rw [hmem, Memory.mem_listing hsorted]
  rw [hitems, hperm.eq_of_pairwise (fun a b _ _ hab hba => absurd hba (lt_asymm hab)) hxs hlisting]

/-! ## Bodies -/

/-- An object is read as it is in the bucket, and what is none cannot be read. -/
theorem body_eq (h : Mirrors d root loc objects) (hname : ∀ s ∈ segments name, IsName s) :
    (∃ stored, objects.get? name = some stored ∧ body d root name = .ok stored.body) ∨
      objects.get? name = none ∧ ∃ e, body d root name = .error e := by
  have hfile : file? root name = some ((segments name).foldl Path.join root) := by
    have := file_joined root hname (Text.segments_ne_nil name)
    rwa [Text.joined_segments] at this
  have habs : ((segments name).foldl Path.join root).isAbsolute = root.isAbsolute :=
    Path.isAbsolute_foldl_join hname
  have hsteps := Disk.steps_foldl_join hname root
  cases hobject : objects.get? name with
  | some stored =>
    refine .inl ⟨stored, rfl, ?_⟩
    have hget := (h.files name stored.body stored.created).mpr hobject
    have hslash : ((segments name).foldl Path.join root).endsWithSlash = false :=
      Path.endsWithSlash_foldl_join hname (Text.segments_ne_nil name)
    have hstat := h.leads.stat_below (Text.segments_ne_nil name) hname habs hsteps
      (h.short _ _ hget) (fun hs => by rw [hslash] at hs; cases hs) hget true
    simp only [body, hfile, Disk.readFile, hstat]
  | none =>
    refine .inr ⟨rfl, ?_⟩
    cases hread : d.readFile ((segments name).foldl Path.join root) with
    | error f => cases f <;> simp [body, hfile, hread]
    | ok bytes =>
      -- What can be read is a file, and each file is an object.
      unfold Disk.readFile at hread
      split at hread
      · cases hread
      · next l bytes time hstat =>
        have hget := (h.leads.get_of_stat (Text.segments_ne_nil name) hname habs hsteps hstat).2
        rw [(h.files name _ _).mp hget] at hobject
        cases hobject
      · cases hread

end Mirrors

end Folder

open Text (segments)

/-- **A mirror and its bucket answer alike.**  A directory holds the objects of a bucket that does
    not fail.  For every query that does not start at the root and has no dots for segments, in
    directories whose paths the system takes, both stores hand over the same items in the same
    order: the objects inside the query, by name.  For every name of plain segments both read the
    same bytes, those of its object, or there is none and neither reads any. -/
theorem mirror_agrees {w : World} {root : Path} {loc : Location} {m : Memory}
    (h : Folder.Mirrors w.disk root loc m.objects) (hsorted : m.objects.Sorted)
    (hreads : m.brokenReads = []) (hlists : m.brokenAfter = none) :
    (∀ q : Query, q.under.toList.head? ≠ some '/' →
      (∀ s ∈ segments q.under, s ≠ "." ∧ s ≠ "..") →
      ("" ∈ (segments q.under).dropLast → Folder.Opens w.disk root loc q.under) →
      (Folder.store root).list w q = m.store.list w q ∧
      ∃ xs : List Listed, (m.store.list w q).outcome =
          some (.ok (xs.map fun x => { item := .ok x })) ∧
        (xs.Pairwise fun a b => a.name < b.name) ∧
        ∀ x, x ∈ xs ↔ q.admits x.name = true ∧
          ∃ bytes, m.objects.get? x.name = some ⟨bytes, x.created⟩) ∧
    ∀ name, (∀ s ∈ segments name, IsName s) →
      (∃ bytes time, m.objects.get? name = some ⟨bytes, time⟩ ∧
        ((Folder.store root).read w name).outcome = some (.ok bytes) ∧
        (m.store.read w name).outcome = some (.ok bytes)) ∨
      m.objects.get? name = none ∧
        (∃ e, ((Folder.store root).read w name).outcome = some (.error e)) ∧
        ∃ e, (m.store.read w name).outcome = some (.error e) := by
  refine ⟨fun q hhead hdots hopens => ?_, fun name hname => ?_⟩
  · have hopens' : Folder.Opens w.disk root loc q.under := by
      by_cases hempty : "" ∈ (segments q.under).dropLast
      · exact hopens hempty
      · exact h.opens hdots hempty
    have hmemory := Memory.store_list hlists w q
    refine ⟨?_, m.listing q, by rw [hmemory], Memory.listing_sorted hsorted q,
      fun x => Memory.mem_listing hsorted⟩
    rw [hmemory]
    simp [Folder.store, h.items_eq hsorted hhead hdots hopens', Function.comp_def]
  · have hmemory : (m.store.read w name).outcome =
        some ((m.objects.get? name).elim (.error (.noSuchObject name)) (.ok ·.body)) := by
      cases hobject : m.objects.get? name <;> simp [Memory.store, Memory.body, hreads, hobject]
    rcases h.body_eq hname with ⟨stored, hobject, hbody⟩ | ⟨hobject, e, hbody⟩
    · refine .inl ⟨stored.body, stored.created, hobject, ?_, by rw [hmemory, hobject]; rfl⟩
      simp [Folder.store, hbody]
    · refine .inr ⟨hobject, ⟨e, ?_⟩, ⟨_, by rw [hmemory, hobject]; rfl⟩⟩
      simp [Folder.store, hbody]

/-! ## A mirror behind a link -/

namespace LinkedMirror

/-- Two objects, one of which lies in a directory whose name is the beginning of the other name. -/
def bucket : Memory where
  objects := [("a-b", ⟨"one".toUTF8, 5⟩), ("a/x", ⟨"two".toUTF8, 7⟩)]

/-- They lie in a directory that is reached by a link. -/
def world : World where
  disk :=
    { entries :=
        [(["data"], .dir false), (["m"], .link ⟨"data"⟩), (["data", "a"], .dir false),
         (["data", "a", "x"], .file "two".toUTF8 7), (["data", "a-b"], .file "one".toUTF8 5)] }

/-- What lies below the directory. -/
theorem get_iff {rel : List String} {e : Entry} : world.disk.get? (["data"] ++ rel) = some e ↔
    (rel, e) ∈ [([], Entry.dir false), (["a"], .dir false), (["a", "x"], .file "two".toUTF8 7),
      (["a-b"], .file "one".toUTF8 5)] := by
  have honce : (world.disk.entries.map (·.1)).Nodup := by decide
  have hne : ["data"] ++ rel ≠ [] := by simp
  constructor
  · intro hget
    have hmem := Disk.mem_of_get hne hget
    simpa [world] using hmem
  · intro hmem
    refine Disk.get_of_mem honce hne ?_
    simpa [world] using hmem

/-- The directory holds the objects. -/
theorem mirrors : Folder.Mirrors world.disk ⟨"m"⟩ ["data"] bucket.objects := by
  have hcases : ∀ {rel e}, world.disk.get? (["data"] ++ rel) = some e →
      (rel = [] ∧ e = .dir false) ∨ (rel = ["a"] ∧ e = .dir false) ∨
        (rel = ["a", "x"] ∧ e = .file "two".toUTF8 7) ∨ (rel = ["a-b"] ∧ e = .file "one".toUTF8 5) := by
    intro rel e hget
    simpa using get_iff.mp hget
  refine ⟨⟨.of_entries rfl (by decide +kernel) (by decide +kernel), false, rfl, rfl⟩, ?_, ?_, ?_⟩
  · intro rel e hget
    rcases hcases hget with ⟨rfl, _⟩ | ⟨rfl, _⟩ | ⟨rfl, _⟩ | ⟨rfl, _⟩ <;> decide
  · intro rel e hget
    rcases hcases hget with ⟨rfl, _⟩ | ⟨rfl, _⟩ | ⟨rfl, _⟩ | ⟨rfl, _⟩ <;> rfl
  · intro name bytes time
    constructor
    · intro hget
      have hname := Text.joined_segments name
      rcases hcases hget with ⟨_, he⟩ | ⟨_, he⟩ | ⟨hsegs, he⟩ | ⟨hsegs, he⟩
      · cases he
      · cases he
      all_goals
        obtain ⟨rfl, rfl⟩ := Entry.file.inj he
        rw [← hname, hsegs]
        rfl
    · intro hobject
      have hmem := Fields.mem_of_get hobject
      simp only [bucket, List.mem_cons, List.not_mem_nil, or_false, Prod.mk.injEq,
        Stored.mk.injEq] at hmem
      rcases hmem with ⟨rfl, rfl, rfl⟩ | ⟨rfl, rfl, rfl⟩
      · have hsegs : segments "a-b" = ["a-b"] := by decide
        exact get_iff.mpr (by simp [hsegs])
      · have hsegs : segments "a/x" = ["a", "x"] := by decide
        exact get_iff.mpr (by simp [hsegs])

end LinkedMirror

/-- The objects whose names begin with the name of the directory are listed by name, though the
    directory is walked before the file beside it, and they are read. -/
theorem mirror_agrees_linked :
    ((Folder.store ⟨"m"⟩).list LinkedMirror.world ⟨"a", none⟩).outcome =
        some (.ok [{ item := .ok ⟨"a-b", 5⟩ }, { item := .ok ⟨"a/x", 7⟩ }]) ∧
      ((Folder.store ⟨"m"⟩).read LinkedMirror.world "a/x").outcome =
        some (.ok "two".toUTF8) := by
  have hsorted : LinkedMirror.bucket.objects.Sorted := by
    unfold Fields.Sorted
    decide
  have hagrees := mirror_agrees LinkedMirror.mirrors hsorted rfl rfl
  constructor
  · have hlisting : LinkedMirror.bucket.listing ⟨"a", none⟩ = [⟨"a-b", 5⟩, ⟨"a/x", 7⟩] := by decide
    have hempty : "" ∉ (segments "a").dropLast := by decide
    rw [(hagrees.1 ⟨"a", none⟩ (by decide) (by decide) fun h => absurd h hempty).1,
      Memory.store_list rfl, hlisting]
    rfl
  · have hget : LinkedMirror.bucket.objects.get? "a/x" = some ⟨"two".toUTF8, 7⟩ := rfl
    rcases hagrees.2 "a/x" (by decide) with ⟨bytes, time, hobject, hread, _⟩ | ⟨hnone, _⟩
    · rw [hget] at hobject
      obtain ⟨rfl, _⟩ := Stored.mk.inj (Option.some.inj hobject)
      exact hread
    · rw [hget] at hnone
      cases hnone

end RunCache
