import Mathlib.Data.List.Perm.Subperm
import RunCache.Disk.Walk
import RunCache.Proofs.Disk.Subtree

/-! # Walks of trees

    In a tree a walk visits its start and everything below it, once the
    system takes the paths of all directories on the way.

    * **`mem_children`**: what a directory holds.
    * **`IsTreeBelow.mem_walkBelow`**: the visits below a directory.
    * **`IsTreeBelow.accept_of_walkBelow`**: what a walk without faults
      tells of the paths of directories.
    * **`IsTreeBelow.mem_visits`**: the visits of a walk; none is a fault.
    * **`IsTreeBelow.visits_nodup`**: no place is visited twice.
    * **`LeadsTo.walksFiles`**, **`LeadsTo.walk_ok`**: a walk without faults
      misses no file, and a walk that the system takes all paths of shows no
      fault. -/

namespace RunCache

namespace Disk

variable {d : Disk} {loc : Location} {path : Path} {name : String} {e : Entry}

/-! ## Directories -/

/-- An entry of a directory lies there under its name. -/
theorem loc_of_child {x : Location × Entry} {child : String × Entry}
    (h : (if x.1.dropLast = loc then x.1.getLast?.map (·, x.2) else none) = some child) :
    x.1 = loc ++ [child.1] := by
  split at h
  · next hparent =>
    obtain ⟨last, hlast, rfl⟩ := Option.map_eq_some_iff.mp h
    obtain ⟨init, hinit⟩ := List.getLast?_eq_some_iff.mp hlast
    rw [← hparent, hinit, List.dropLast_concat]
  · cases h

theorem mem_children (h : (d.entries.map (·.1)).Nodup) :
    (name, e) ∈ d.children loc ↔ d.get? (loc ++ [name]) = some e := by
  have hne : loc ++ [name] ≠ [] := by simp
  constructor
  · intro hmem
    obtain ⟨x, hx, hchild⟩ := List.mem_filterMap.mp hmem
    have hloc := loc_of_child hchild
    split at hchild
    · obtain ⟨last, _, heq⟩ := Option.map_eq_some_iff.mp hchild
      obtain ⟨rfl, rfl⟩ := Prod.mk.inj heq
      exact get_of_mem h hne (hloc ▸ hx)
    · cases hchild
  · intro hget
    refine List.mem_filterMap.mpr ⟨(loc ++ [name], e), mem_of_get hne hget, ?_⟩
    simp

theorem mem_sortedChildren (h : (d.entries.map (·.1)).Nodup) :
    (name, e) ∈ d.sortedChildren loc ↔ d.get? (loc ++ [name]) = some e := by
  rw [sortedChildren, List.mem_mergeSort, mem_children h]

/-- No two entries of a directory have one name. -/
theorem children_pairwise (h : (d.entries.map (·.1)).Nodup) :
    (d.children loc).Pairwise fun a b => a.1 ≠ b.1 := by
  refine List.pairwise_filterMap.mpr ((List.pairwise_map.mp h).imp ?_)
  intro x y hne a ha b hb hname
  exact hne ((loc_of_child ha).trans (hname ▸ (loc_of_child hb).symm))

theorem sortedChildren_pairwise (h : (d.entries.map (·.1)).Nodup) :
    (d.sortedChildren loc).Pairwise fun a b => a.1 ≠ b.1 :=
  (children_pairwise h).perm (List.mergeSort_perm _ _).symm fun hne => hne.symm

/-! ## Depth -/

/-- Nothing lies deeper below a location than there are entries. -/
theorem IsTreeBelow.length_le (h : d.IsTreeBelow loc) {rel : List String}
    (hget : d.get? (loc ++ rel) = some e) : rel.length ≤ d.entries.length := by
  -- Each step down from the location passes through an entry of its own.
  have hsub : (List.range rel.length).map (fun k => loc ++ rel.take (k + 1)) ⊆
      d.entries.map (·.1) := by
    intro l hl
    obtain ⟨k, hk, rfl⟩ := List.mem_map.mp hl
    have hk' : k < rel.length := List.mem_range.mp hk
    have hthere : ∃ e, d.get? (loc ++ rel.take (k + 1)) = some e := by
      by_cases hall : rel.take (k + 1) = rel
      · exact ⟨e, by rw [hall, hget]⟩
      · obtain ⟨closed, hdir⟩ := h.dir_above hget (List.take_prefix (k + 1) rel) hall
        exact ⟨_, hdir⟩
    obtain ⟨e', he'⟩ := hthere
    have hne : loc ++ rel.take (k + 1) ≠ [] := by
      intro hnil
      have := congrArg List.length hnil
      simp only [List.length_append, List.length_take, List.length_nil] at this
      omega
    exact List.mem_map.mpr ⟨_, mem_of_get hne he', rfl⟩
  have hnodup : ((List.range rel.length).map fun k => loc ++ rel.take (k + 1)).Nodup := by
    refine List.Nodup.map_on ?_ List.nodup_range
    intro i hi j hj heq
    have hlen := congrArg List.length heq
    have hi' := List.mem_range.mp hi
    have hj' := List.mem_range.mp hj
    simp only [List.length_append, List.length_take] at hlen
    omega
  -- Different locations among the entries, as many as there are steps.
  have hle := (hnodup.subperm hsub).length_le
  simpa using hle

/-! ## Visits -/

/-- The visits below a directory, as deep as the walk goes. -/
theorem IsTreeBelow.mem_walkBelow (h : d.IsTreeBelow loc) {depth : Nat} {names : List String}
    (hdir : ∃ closed, d.get? loc = some (.dir closed))
    (hacc : ∀ rel closed, d.get? (loc ++ rel) = some (.dir closed) →
      accept (rel.foldl Path.join path) = .ok ()) (x : Except WalkFault Visit) :
    x ∈ d.walkBelow depth loc path names ↔ ∃ rel e, rel ≠ [] ∧ rel.length ≤ depth ∧
      d.get? (loc ++ rel) = some e ∧ x = .ok ⟨rel.foldl Path.join path, names ++ rel, e⟩ := by
  induction depth generalizing loc path names with
  | zero =>
    constructor
    · intro hx
      cases hx
    · rintro ⟨rel, e, hne, hlen, _⟩
      exact absurd (List.eq_nil_of_length_eq_zero (by omega)) hne
  | succ depth ih =>
    obtain ⟨closed, hopen⟩ := hdir
    have hacc₀ : accept path = .ok () := hacc [] closed (by rw [List.append_nil, hopen])
    -- Below a child the walk goes on as from the start.
    have hchild : ∀ name closed, d.get? (loc ++ [name]) = some (.dir closed) →
        (x ∈ d.walkBelow depth (loc ++ [name]) (path.join name) (names ++ [name]) ↔
          ∃ rel e, rel ≠ [] ∧ rel.length ≤ depth ∧ d.get? (loc ++ name :: rel) = some e ∧
            x = .ok ⟨(name :: rel).foldl Path.join path, names ++ name :: rel, e⟩) := by
      intro name closed hget
      rw [ih (h.below [name]) ⟨closed, hget⟩ fun rel closed' hrel => by
        rw [List.append_assoc] at hrel
        exact hacc (name :: rel) closed' hrel]
      simp only [List.append_assoc, List.singleton_append, List.foldl_cons]
    unfold walkBelow
    rw [hacc₀]
    simp only [List.mem_flatMap, List.mem_cons]
    constructor
    · -- A visit is that of a child or one below a child that is a directory.
      rintro ⟨⟨name, e⟩, hmem, hx⟩
      have hget := (mem_sortedChildren h.once).mp hmem
      rcases hx with rfl | hx
      · exact ⟨[name], e, by simp, by simp, hget, rfl⟩
      · split at hx
        · next hisDir =>
          obtain ⟨closed', rfl⟩ := Entry.eq_dir_of_isDir hisDir
          obtain ⟨rel, e', _, hlen, hget', rfl⟩ := (hchild name closed' hget).mp hx
          exact ⟨name :: rel, e', by simp, by simpa using hlen, hget', rfl⟩
        · cases hx
    · rintro ⟨rel, e, hne, hlen, hget, hx⟩
      cases rel with
      | nil => exact absurd rfl hne
      | cons name rel =>
        by_cases hrel : rel = []
        · subst hrel
          exact ⟨(name, e), (mem_sortedChildren h.once).mpr hget, .inl hx⟩
        · -- What lies deeper lies below its first name, which is that of a directory.
          have hpre : [name] <+: name :: rel := ⟨rel, rfl⟩
          obtain ⟨closed', hdir'⟩ := h.dir_above hget hpre (by simpa using Ne.symm hrel)
          refine ⟨(name, .dir closed'), (mem_sortedChildren h.once).mpr hdir', .inr ?_⟩
          simp only [Entry.isDir, if_true]
          exact (hchild name closed' hdir').mpr
            ⟨rel, e, hrel, by simpa using hlen, hget, hx⟩

/-- A directory is opened by its path, so where no visit below a directory is a fault the system
    takes the paths of all directories that the walk comes to. -/
theorem IsTreeBelow.accept_of_walkBelow (h : d.IsTreeBelow loc) {depth : Nat}
    {names rel : List String} {closed : Bool}
    (hok : ∀ x ∈ d.walkBelow depth loc path names, ∃ v, x = .ok v) (hlen : rel.length < depth)
    (hget : d.get? (loc ++ rel) = some (.dir closed)) :
    accept (rel.foldl Path.join path) = .ok () := by
  induction depth generalizing loc path names rel with
  | zero => omega
  | succ depth ih =>
    unfold walkBelow at hok
    cases hacc : accept path with
    | error fault =>
      rw [hacc] at hok
      obtain ⟨v, hv⟩ := hok _ (List.mem_singleton.mpr rfl)
      cases hv
    | ok u =>
      rw [hacc] at hok
      cases rel with
      | nil => exact hacc
      | cons name rel =>
        -- The way down begins with a directory, and all visits below it are among these.
        obtain ⟨closed', hdir⟩ : ∃ closed, d.get? (loc ++ [name]) = some (.dir closed) := by
          by_cases hrel : rel = []
          · exact ⟨closed, hrel ▸ hget⟩
          · exact h.dir_above hget ⟨rel, rfl⟩ (by simpa using Ne.symm hrel)
        have hbelow : ∀ x ∈ d.walkBelow depth (loc ++ [name]) (path.join name) (names ++ [name]),
            ∃ v, x = .ok v := by
          intro x hx
          have hchild := (mem_sortedChildren h.once).mpr hdir
          exact hok x (List.mem_flatMap.mpr ⟨_, hchild, List.mem_cons_of_mem _ hx⟩)
        rw [List.foldl_cons]
        exact ih (h.below [name]) hbelow (by simpa using hlen) (by rwa [List.append_assoc])

/-- No place below a directory is visited twice. -/
theorem IsTreeBelow.walkBelow_nodup (h : d.IsTreeBelow loc) {depth : Nat} {names : List String}
    (hdir : ∃ closed, d.get? loc = some (.dir closed))
    (hacc : ∀ rel closed, d.get? (loc ++ rel) = some (.dir closed) →
      accept (rel.foldl Path.join path) = .ok ()) : (d.walkBelow depth loc path names).Nodup := by
  induction depth generalizing loc path names with
  | zero => exact List.nodup_nil
  | succ depth ih =>
    obtain ⟨closed, hopen⟩ := hdir
    have hacc₀ : accept path = .ok () := hacc [] closed (by rw [List.append_nil, hopen])
    have hacc' : ∀ name rel closed, d.get? (loc ++ [name] ++ rel) = some (.dir closed) →
        accept (rel.foldl Path.join (path.join name)) = .ok () := by
      intro name rel closed' hrel
      rw [List.append_assoc] at hrel
      exact hacc (name :: rel) closed' hrel
    -- What is visited below a child has more names than the child, and its name among them.
    have hdeeper : ∀ child ∈ d.sortedChildren loc, ∀ x, x ∈ (if child.2.isDir then
          d.walkBelow depth (loc ++ [child.1]) (path.join child.1) (names ++ [child.1]) else []) →
        ∃ v rel, x = .ok v ∧ rel ≠ [] ∧ v.names = names ++ child.1 :: rel := by
      rintro ⟨name, e⟩ hmem x hx
      split at hx
      · next hisDir =>
        obtain ⟨closed', rfl⟩ := Entry.eq_dir_of_isDir hisDir
        obtain ⟨rel, e', hne, _, _, rfl⟩ := ((h.below [name]).mem_walkBelow
          ⟨closed', (mem_sortedChildren h.once).mp hmem⟩ (hacc' name) x).mp hx
        exact ⟨_, rel, rfl, hne, by simp⟩
      · cases hx
    have hvisited : ∀ child ∈ d.sortedChildren loc, ∀ x,
        x ∈ Except.ok ⟨path.join child.1, names ++ [child.1], child.2⟩ :: (if child.2.isDir then
          d.walkBelow depth (loc ++ [child.1]) (path.join child.1) (names ++ [child.1]) else []) →
        ∃ v rel, x = .ok v ∧ v.names = names ++ child.1 :: rel := by
      intro child hmem x hx
      rcases List.mem_cons.mp hx with rfl | hx
      · exact ⟨_, [], rfl, rfl⟩
      · obtain ⟨v, rel, hv, _, hnames⟩ := hdeeper child hmem x hx
        exact ⟨v, rel, hv, hnames⟩
    unfold walkBelow
    rw [hacc₀]
    simp only
    refine List.nodup_flatMap.mpr ⟨fun child hmem => List.nodup_cons.mpr ⟨fun hx => ?_, ?_⟩, ?_⟩
    · obtain ⟨v, rel, hv, hne, hnames⟩ := hdeeper child hmem _ hx
      obtain rfl := Except.ok.inj hv
      exact hne (List.cons.inj (List.append_cancel_left hnames)).2.symm
    · split
      · next hisDir =>
        obtain ⟨closed', hclosed⟩ := Entry.eq_dir_of_isDir hisDir
        refine ih (h.below [child.1]) ⟨closed', ?_⟩ (hacc' child.1)
        rw [← hclosed]
        exact (mem_sortedChildren h.once).mp hmem
      · exact List.nodup_nil
    · refine (sortedChildren_pairwise h.once).imp_of_mem fun {a b} ha hb hne x hxa hxb => ?_
      obtain ⟨v, rel, rfl, hnames⟩ := hvisited a ha x hxa
      obtain ⟨v', rel', hv, hnames'⟩ := hvisited b hb _ hxb
      obtain rfl := Except.ok.inj hv
      exact hne (List.cons.inj (List.append_cancel_left (hnames.symm.trans hnames'))).1

/-! ## Walks -/

/-- What a walk visits: its start, and everything below the directory that the start leads to. -/
theorem IsTreeBelow.mem_visits (h : d.IsTreeBelow loc)
    (hdir : ∃ closed, d.get? loc = some (.dir closed))
    (hacc : ∀ rel closed, d.get? (loc ++ rel) = some (.dir closed) →
      accept (rel.foldl Path.join path) = .ok ()) (first : Entry) (x : Except WalkFault Visit) :
    x ∈ .ok ⟨path, [], first⟩ :: d.walkBelow (d.entries.length + 1) loc path [] ↔
      x = .ok ⟨path, [], first⟩ ∨ ∃ rel e, rel ≠ [] ∧ d.get? (loc ++ rel) = some e ∧
        x = .ok ⟨rel.foldl Path.join path, rel, e⟩ := by
  rw [List.mem_cons, h.mem_walkBelow hdir hacc]
  simp only [List.nil_append]
  constructor
  · rintro (hx | ⟨rel, e, hne, _, hget, hx⟩)
    · exact .inl hx
    · exact .inr ⟨rel, e, hne, hget, hx⟩
  · rintro (hx | ⟨rel, e, hne, hget, hx⟩)
    · exact .inl hx
    · have hlen := h.length_le hget
      exact .inr ⟨rel, e, hne, by omega, hget, hx⟩

/-- No place is visited twice. -/
theorem IsTreeBelow.visits_nodup (h : d.IsTreeBelow loc)
    (hdir : ∃ closed, d.get? loc = some (.dir closed))
    (hacc : ∀ rel closed, d.get? (loc ++ rel) = some (.dir closed) →
      accept (rel.foldl Path.join path) = .ok ()) (first : Entry) :
    (.ok ⟨path, [], first⟩ :: d.walkBelow (d.entries.length + 1) loc path []).Nodup := by
  refine List.nodup_cons.mpr ⟨fun hmem => ?_, h.walkBelow_nodup hdir hacc⟩
  obtain ⟨rel, e, hne, _, _, heq⟩ := (h.mem_walkBelow hdir hacc _).mp hmem
  have hnames := congrArg Visit.names (Except.ok.inj heq)
  simp only [List.nil_append] at hnames
  exact hne hnames.symm

theorem walk_of_dir {closed : Bool} (hstat : d.stat false path = .ok (loc, .dir closed)) :
    d.walk path =
      .ok ⟨path, [], .dir closed⟩ :: d.walkBelow (d.entries.length + 1) loc path [] := by
  simp only [walk, hstat, Entry.isDir, if_true]

/-- A walk that starts at a link goes on where the link leads. -/
theorem walk_of_link {l : Location} {target : Path} {closed : Bool}
    (hlink : d.stat false path = .ok (l, .link target))
    (hstat : d.stat true path = .ok (loc, .dir closed)) :
    d.walk path =
      .ok ⟨path, [], .link target⟩ :: d.walkBelow (d.entries.length + 1) loc path [] := by
  simp only [walk, hlink, hstat, Entry.isDir, if_true]

theorem walk_of_file {bytes : ByteArray} {time : Int}
    (hstat : d.stat false path = .ok (loc, .file bytes time)) :
    d.walk path = [.ok ⟨path, [], .file bytes time⟩] := by
  simp [walk, hstat, Entry.isDir]

/-- A walk that visits the files at a location and below it: a visited file is one of them, all of
    them are visited, and none twice. -/
structure WalksFiles (d : Disk) (start : Path) (loc : Location) : Prop where
  visits : ∀ x ∈ d.walk start, ∃ rel e, x = .ok ⟨rel.foldl Path.join start, rel, e⟩ ∧
    (e.isFile = true → d.get? (loc ++ rel) = some e)
  files : ∀ rel bytes time, d.get? (loc ++ rel) = some (.file bytes time) →
    .ok ⟨rel.foldl Path.join start, rel, .file bytes time⟩ ∈ d.walk start
  nodup : (d.walk start).Nodup

/-- A walk that starts at a directory, or at a link that leads there. -/
theorem walksFiles_of_dir {start : Path} {l : Location} {first : Entry} {closed : Bool}
    (htree : d.IsTreeBelow l) (hdir : d.get? l = some (.dir closed)) (hfirst : first.isFile = false)
    (hacc : ∀ rel closed, d.get? (l ++ rel) = some (.dir closed) →
      accept (rel.foldl Path.join start) = .ok ())
    (hwalk : d.walk start =
      .ok ⟨start, [], first⟩ :: d.walkBelow (d.entries.length + 1) l start []) :
    d.WalksFiles start l := by
  refine ⟨fun x hx => ?_, fun rel bytes time hget => ?_, ?_⟩
  · rw [hwalk, htree.mem_visits ⟨closed, hdir⟩ hacc] at hx
    rcases hx with rfl | ⟨rel, e, _, hget, rfl⟩
    · exact ⟨[], first, rfl, fun hfile => by rw [hfirst] at hfile; cases hfile⟩
    · exact ⟨rel, e, rfl, fun _ => hget⟩
  · rw [hwalk, htree.mem_visits ⟨closed, hdir⟩ hacc]
    refine .inr ⟨rel, _, ?_, hget, rfl⟩
    rintro rfl
    rw [List.append_nil, hdir] at hget
    cases hget
  · rw [hwalk]
    exact htree.visits_nodup ⟨closed, hdir⟩ hacc first

/-- A walk that starts at a file visits nothing else. -/
theorem walksFiles_of_file {start : Path} {l : Location} {bytes : ByteArray} {time : Int}
    (htree : d.IsTreeBelow l) (hget : d.get? l = some (.file bytes time))
    (hwalk : d.walk start = [.ok ⟨start, [], .file bytes time⟩]) : d.WalksFiles start l := by
  refine ⟨fun x hx => ?_, fun rel bytes' time' hget' => ?_, ?_⟩
  · rw [hwalk, List.mem_singleton] at hx
    exact ⟨[], _, hx, fun _ => by rw [List.append_nil, hget]⟩
  · by_cases hne : rel = []
    · subst hne
      rw [List.append_nil, hget] at hget'
      obtain ⟨rfl, rfl⟩ := Entry.file.inj (Option.some.inj hget')
      rw [hwalk]
      exact List.mem_singleton.mpr rfl
    · -- What lies below a file would lie in a directory.
      obtain ⟨closed, hdir⟩ := htree.dir_above hget' List.nil_prefix (Ne.symm hne)
      rw [List.append_nil, hget] at hdir
      cases hdir
  · rw [hwalk]
    exact List.nodup_singleton _

/-! ## Walks of directories -/

namespace LeadsTo

variable {start : Path}

/-- A walk visits where it starts, which may be a link, and goes on below the directory. -/
theorem walk_eq (h : d.LeadsTo start loc) : ∃ first : Entry, first.isFile = false ∧
    d.walk start =
      .ok ⟨start, [], first⟩ :: d.walkBelow (d.entries.length + 1) loc start [] := by
  obtain ⟨closed, _, hs⟩ := h.found
  rcases stat_unfollowed hs with hsame | ⟨l, target, hlink⟩
  · exact ⟨_, rfl, walk_of_dir hsame⟩
  · exact ⟨_, rfl, walk_of_link hlink hs⟩

/-- Where no visit is a fault, all files below the directory are visited. -/
theorem walksFiles (h : d.LeadsTo start loc) (hok : ∀ x ∈ d.walk start, ∃ v, x = .ok v) :
    d.WalksFiles start loc := by
  obtain ⟨closed, hdir, _⟩ := h.found
  obtain ⟨first, hfirst, hwalk⟩ := h.walk_eq
  rw [hwalk] at hok
  refine walksFiles_of_dir h.tree hdir hfirst (fun rel closed' hget => ?_) hwalk
  have hlen := h.tree.length_le hget
  exact h.tree.accept_of_walkBelow (fun x hx => hok x (List.mem_cons_of_mem _ hx)) (by omega) hget

/-- A walk shows no fault where the system takes the paths of all directories. -/
theorem walk_ok (h : d.LeadsTo start loc) (hacc : ∀ rel closed,
    d.get? (loc ++ rel) = some (.dir closed) → accept (rel.foldl Path.join start) = .ok ()) :
    ∀ x ∈ d.walk start, ∃ v, x = .ok v := by
  intro x hx
  obtain ⟨first, _, hwalk⟩ := h.walk_eq
  rw [hwalk, h.tree.mem_visits h.dir hacc] at hx
  rcases hx with rfl | ⟨rel, e, _, _, rfl⟩
  · exact ⟨_, rfl⟩
  · exact ⟨_, rfl⟩

/-- The directories are told by the entries of the disk. -/
theorem walk_ok_of_entries (h : d.LeadsTo start loc) (hne : loc ≠ [])
    (hall : ∀ x ∈ d.entries, loc <+: x.1 → x.2.isDir = true →
      accept ((x.1.drop loc.length).foldl Path.join start) = .ok ()) :
    ∀ x ∈ d.walk start, ∃ v, x = .ok v := by
  refine h.walk_ok fun rel closed hget => ?_
  have hmem := mem_of_get (List.append_ne_nil_of_left_ne_nil hne rel) hget
  have hacc := hall _ hmem (List.prefix_append loc rel) rfl
  rwa [List.drop_left] at hacc

end LeadsTo

end Disk

end RunCache
