import RunCache.Proofs.Disk.Changes
import RunCache.Proofs.Disk.Parents

/-! # Below a directory

    What stands below a directory under plain names is found there, and
    what is missing can be made there, if nothing but directories is in the
    way.

    * **`Disk.Stands`**: a directory that is found under a path of a tree.
    * **`Disk.Takes`**: names that the system takes behind a path.
    * **`Stands.locate_found`**, **`Stands.locate_absent`**,
      **`Stands.locate_missing`**: look-ups below it.
    * **`Disk.Open`**: names that nothing but open directories lead to.
    * **`Stands.makeChain`**: directories made below it. -/

namespace RunCache

namespace Disk

variable {d : Disk} {root : Path} {loc here : Location} {segs init : List String} {name : String}
  {closed follow : Bool} {e : Entry}

/-! ## Looking up -/

namespace IsTree

variable {onLink : Location → Path → List String → Except Fault Place}

/-- Where a way comes to a directory, a longer way goes on from there. -/
theorem walkWith_go (h : d.IsTree) {onLink' : Location → Path → List String → Except Fault Place}
    {follow' : Bool} (hw : d.walkWith follow onLink here segs = .ok (.found loc (.dir closed)))
    (more : List String) :
    d.walkWith follow' onLink' here (segs ++ more) = d.walkWith follow' onLink' loc more := by
  induction segs generalizing here with
  | nil =>
    unfold walkWith at hw
    obtain ⟨rfl, _⟩ := Place.found.inj (Except.ok.inj hw)
    rfl
  | cons s rest ih =>
    rw [List.cons_append]
    cases comesTo_of_walkWith hw with
    | on hon hgo =>
      rw [hon.walkWith]
      exact ih hgo
    | absent _ _ _ hplace => cases hplace
    | file _ _ _ hplace => cases hplace
    | link _ hget => exact absurd (h.noLink _ _ hget) (by simp [Entry.isLink])
    | through _ hget => exact absurd (h.noLink _ _ hget) (by simp [Entry.isLink])

end IsTree

/-- Names lead from a directory to what is there. -/
theorem IsTreeBelow.walkWith_found {onLink : Location → Path → List String → Except Fault Place}
    (h : d.IsTreeBelow here) (hhere : ∃ closed, d.get? here = some (.dir closed))
    (hsegs : ∀ s ∈ segs, IsName s) (hget : d.get? (here ++ segs) = some e) :
    d.walkWith follow onLink here segs = .ok (.found (here ++ segs) e) := by
  induction segs generalizing here with
  | nil =>
    rw [List.append_nil] at hget ⊢
    unfold walkWith
    rw [hget, Option.getD_some]
  | cons s rest ih =>
    have hfits := h.fits _ e hget s (by simp)
    have happ : here ++ s :: rest = here ++ [s] ++ rest := by simp
    rw [walkWith_entry (.of_isName (hsegs s (by simp)) hfits)]
    by_cases hrest : rest = []
    · subst hrest
      cases e with
      | dir closed =>
        simp only [hget]
        unfold walkWith
        rw [hget, Option.getD_some]
      | file bytes time => simp [hget]
      | link target => exact absurd (h.noLink _ _ hget) (by simp [Entry.isLink])
    · -- What is on the way to the last name is a directory.
      have hpre : [s] <+: s :: rest := ⟨rest, rfl⟩
      obtain ⟨closed, hdir⟩ := h.dir_above hget hpre (by simpa using Ne.symm hrest)
      simp only [hdir]
      rw [happ] at hget ⊢
      exact ih (h.below [s]) ⟨closed, hdir⟩ (fun t ht => hsegs t (List.mem_cons_of_mem s ht)) hget

namespace IsTree

variable {onLink : Location → Path → List String → Except Fault Place}

/-- With its directory there, a name that is missing is told. -/
theorem walkWith_absent (h : d.IsTree) (hinit : ∀ s ∈ init, IsName s) (hs : IsName name)
    (hfits : name.utf8ByteSize ≤ nameLimit) (hdir : d.get? (here ++ init) = some (.dir closed))
    (hhere : ∃ closed, d.get? here = some (.dir closed))
    (hnone : d.get? (here ++ init ++ [name]) = none) :
    d.walkWith follow onLink here (init ++ [name]) = .ok (.absent (here ++ init) name) := by
  have hinit : d.walkWith follow onLink here init = .ok (.found (here ++ init) (.dir closed)) :=
    (h.below here).walkWith_found hhere hinit hdir
  rw [h.walkWith_go hinit [name], walkWith_entry (.of_isName hs hfits), hnone]
  rfl

/-- With a directory missing on the way, nothing more is told. -/
theorem walkWith_missing (hsegs : ∀ s ∈ init, IsName s ∧ s.utf8ByteSize ≤ nameLimit)
    (hopen : ∀ l, l <+: init → ∀ e, d.get? (here ++ l) = some e → e = .dir false)
    (hhere : d.get? here ≠ none) (hnone : d.get? (here ++ init) = none) :
    d.walkWith follow onLink here (init ++ [name]) = .error .missing := by
  induction init generalizing here with
  | nil =>
    rw [List.append_nil] at hnone
    exact absurd hnone hhere
  | cons s rest ih =>
    obtain ⟨hs, hfits⟩ := hsegs s (by simp)
    rw [List.cons_append, walkWith_entry (.of_isName hs hfits)]
    cases hget : d.get? (here ++ [s]) with
    | none => simp
    | some e =>
      obtain rfl := hopen [s] (by simp) e hget
      refine ih (fun t ht => hsegs t (List.mem_cons_of_mem s ht)) (fun l hl e he => ?_)
        (by simp [hget]) (by simpa using hnone)
      exact hopen (s :: l) (by simpa using hl) e (by simpa using he)

end IsTree

/-! ## Directories that are found -/

/-- A directory that is found under a path of a tree. -/
structure Stands (d : Disk) (root : Path) : Prop where
  tree : d.IsTree
  found : d.isDir root = true

/-- Names that the system takes behind a path. -/
structure Takes (root : Path) (segs : List String) : Prop where
  names : ∀ s ∈ segs, IsName s
  fits : ∀ s ∈ segs, s.utf8ByteSize ≤ nameLimit
  accepted : accept (segs.foldl Path.join root) = .ok ()

theorem Takes.of_isPrefix {l : List String} (h : Takes root segs) (hne : root.text ≠ "")
    (hl : l <+: segs) : Takes root l := by
  obtain ⟨more, rfl⟩ := hl
  have hnames : ∀ s ∈ l, IsName s := fun s hs => h.names s (List.mem_append_left _ hs)
  refine ⟨hnames, fun s hs => h.fits s (List.mem_append_left _ hs), ?_⟩
  have hacc := h.accepted
  rw [List.foldl_append] at hacc
  refine accept_of_foldl_join (fun s hs => h.names s (List.mem_append_right _ hs)) ?_ hacc
  by_cases hnil : l = []
  · rwa [hnil]
  · exact Path.text_foldl_join_ne_empty hnames hnil

theorem accept_eq_ok_iff {p : Path} : accept p = .ok () ↔
    '\x00' ∉ p.text.toList ∧ p.text ≠ "" ∧ p.text.utf8ByteSize < pathLimit := by
  unfold accept
  by_cases hnul : '\x00' ∈ p.text.toList
  · simp [hnul]
  · by_cases hempty : p.text = ""
    · simp [hempty]
    · by_cases hlong : p.text.utf8ByteSize < pathLimit
      · simp [hnul, hempty, hlong, Nat.not_le.mpr hlong]
      · simp [hnul, hempty, hlong, Nat.not_lt.mp hlong]

/-- What the system takes behind a path it takes behind one that is no longer, counted with the slash
    before the first name. -/
theorem Takes.of_length {root' : Path} (h : Takes root segs) (hne : segs ≠ [])
    (hacc : accept root' = .ok ())
    (hlen : (root'.join "").text.utf8ByteSize ≤ (root.join "").text.utf8ByteSize) :
    Takes root' segs := by
  refine ⟨h.names, h.fits, accept_eq_ok_iff.mpr ?_⟩
  obtain ⟨hnul, _, hlimit⟩ := accept_eq_ok_iff.mp h.accepted
  obtain ⟨hnul', _, _⟩ := accept_eq_ok_iff.mp hacc
  refine ⟨?_, Path.text_foldl_join_ne_empty h.names hne, ?_⟩
  · rw [Path.mem_text_foldl_join (by decide) h.names] at hnul ⊢
    rintro (hroot | hsegs)
    · exact hnul' hroot
    · exact hnul (.inr hsegs)
  · rw [Path.text_foldl_join h.names hne, String.utf8ByteSize_append] at hlimit ⊢
    omega

/-- Names that nothing but open directories lead to. -/
def Open (d : Disk) (here : Location) (segs : List String) : Prop :=
  ∀ l, l <+: segs → ∀ e, d.get? (here ++ l) = some e → e = .dir false

theorem Open.of_isPrefix {l : List String} (h : d.Open here segs) (hl : l <+: segs) :
    d.Open here l := fun k hk => h k (hk.trans hl)

/-- A way stays open where directories are made. -/
theorem Open.grows {dirs : Location → Prop} {d' : Disk} (h : d.Open here segs)
    (hg : Grows dirs (fun _ => False) d d') : d'.Open here segs := by
  intro l hl e he
  cases hget : d.get? (here ++ l) with
  | some e' =>
    obtain rfl := h l hl e' hget
    rw [hg.dir hget] at he
    exact (Option.some.inj he).symm
  | none =>
    rcases hg.new hget with hnew | ⟨_, hnew⟩ | ⟨hfalse, _⟩
    · rw [hnew] at he
      cases he
    · rw [hnew] at he
      exact (Option.some.inj he).symm
    · exact hfalse.elim

theorem lookup_of_not_slash {p : Path} (h : p.endsWithSlash = false) :
    d.lookup follow p = d.locate follow p := by
  unfold lookup
  rw [h, Bool.or_false]
  split
  · next heq => rw [heq]; rfl
  · rfl

/-- A directory that is located is found. -/
theorem stat_of_locate {p : Path}
    (hl : ∀ follow, d.locate follow p = .ok (.found loc (.dir closed))) (follow : Bool) :
    d.stat follow p = .ok (loc, .dir closed) := by
  simp [stat, lookup, hl, Entry.isDir]

/-- Which segments a path has behind those of the trimmed one. -/
theorem steps_trimmed {p : Path} (hne : p.text ≠ "") :
    p.trimmed.isAbsolute = p.isAbsolute ∧
      ∃ dots, steps p = steps p.trimmed ++ dots ∧ ∀ s ∈ dots, s = "." := by
  obtain ⟨idle, hbody, hidle, _⟩ := Path.trimEnd_eq_append p.isAbsolute p.body
  have hpre := Path.trimEnd_isPrefix p.isAbsolute p.body
  have hslash : ∀ s ∈ Path.trimEnd p.isAbsolute p.body, '/' ∉ s.toList :=
    fun s hs => Path.no_slash_of_mem_body (hpre.subset hs)
  have hhead : p.isAbsolute = false → "" ∉ (Path.trimEnd p.isAbsolute p.body).head? := by
    intro habs
    obtain ⟨s, segs, hcons, hs⟩ := Path.exists_trimEnd_cons habs hne
    rw [habs, hcons]
    simpa using hs
  obtain ⟨habs, htrim⟩ := Path.body_ofBody hslash hhead
  refine ⟨habs, idle.filter (!·.isEmpty), ?_, fun s hs => ?_⟩
  · have hsteps : steps p.trimmed = (Path.trimEnd p.isAbsolute p.body).filter (!·.isEmpty) := by
      rw [steps, Path.trimmed, htrim]
      split
      · next hnil => simp [hnil]
      · rfl
    rw [hsteps, ← List.filter_append, ← hbody, steps]
  · obtain ⟨hs, hempty⟩ := List.mem_filter.mp hs
    have := hidle s hs
    simp only [Path.isIdle, Bool.or_eq_true, decide_eq_true_eq] at this
    rcases this with rfl | hdot
    · simp at hempty
    · exact hdot

theorem names_trimmed {p : Path} (hne : p.text ≠ "") : p.trimmed.names = p.names := by
  obtain ⟨_, dots, hsteps, hdots⟩ := steps_trimmed hne
  have hnone : dots.filter (· ≠ ".") = [] :=
    List.filter_eq_nil_iff.mpr fun s hs => by simp [hdots s hs]
  rw [names_eq_filter_steps, names_eq_filter_steps, hsteps, List.filter_append, hnone,
    List.append_nil]

/-- The system takes a trimmed path when it takes the path. -/
theorem accept_trimmed {p : Path} (hacc : accept p = .ok ()) (hne : p.text ≠ "") :
    accept p.trimmed = .ok () := by
  obtain ⟨more, hmore⟩ := p.text_trimmed
  have hp : p = ⟨p.trimmed.text ++ more⟩ := congrArg Path.mk hmore
  rw [hp] at hacc
  exact accept_of_append hacc (Path.text_trimmed_ne_empty hne)

/-- The system takes what is above a path when it takes the path. -/
theorem accept_of_parent {p q : Path} (hacc : accept p = .ok ()) (hparent : p.parent? = some q)
    (hne : q.text ≠ "") : accept q = .ok () := by
  obtain ⟨more, hmore⟩ := Path.text_of_parent hparent
  have hp : p = ⟨q.text ++ more⟩ := congrArg Path.mk hmore
  rw [hp] at hacc
  exact accept_of_append hacc hne

namespace Stands

theorem text_ne_empty (h : d.Stands root) : root.text ≠ "" := by
  intro hempty
  have hroot : root = ⟨""⟩ := congrArg Path.mk hempty
  have hfound := h.found
  rw [hroot] at hfound
  cases hfound

/-- The way to the directory. -/
theorem walk (h : d.Stands root) : ∃ closed onLink, accept root = .ok () ∧
    d.get? (d.place root) = some (.dir closed) ∧
    d.walkWith true onLink (d.start root) (steps root) =
      .ok (.found (d.place root) (.dir closed)) := by
  obtain ⟨loc, closed, hs⟩ := stat_of_isDir h.found
  have hl := locate_of_stat hs
  obtain ⟨rfl, hget⟩ := h.tree.stat_ok hs
  obtain ⟨onLink, hwalk⟩ := walkFrom_eq_walkWith d true linkLimit
  rw [Bool.true_or, locate_eq_walkFrom (accept_of_locate hl), hwalk] at hl
  exact ⟨closed, onLink, accept_of_locate (locate_of_stat hs), hget, hl⟩

theorem dir (h : d.Stands root) : ∃ closed, d.get? (d.place root) = some (.dir closed) := by
  obtain ⟨closed, _, _, hget, _⟩ := h.walk
  exact ⟨closed, hget⟩

/-- A directory that stands stays while the disk grows. -/
theorem grows {dirs files : Location → Prop} {d' : Disk} (h : d.Stands root) (hd' : d'.IsTree)
    (hg : Grows dirs files d d') : d'.Stands root := by
  refine ⟨hd', ?_⟩
  obtain ⟨loc, closed, hs⟩ := stat_of_isDir h.found
  have hl := locate_of_stat hs
  rw [Bool.true_or] at hl
  obtain ⟨hloc, hget⟩ := h.tree.stat_ok hs
  have hseen := hg.locate hl
  rw [seen, hloc, hg.dir hget, Option.getD_some] at hseen
  unfold isDir stat lookup
  rw [Bool.true_or, hseen]
  simp [Entry.isDir]

/-- Below the directory a look-up goes on from its place. -/
theorem locate_eq (h : d.Stands root) (ht : Takes root segs) (follow : Bool) :
    ∃ onLink, d.locate follow (segs.foldl Path.join root) =
      d.walkWith follow onLink (d.place root) segs := by
  obtain ⟨closed, _, _, _, hw⟩ := h.walk
  obtain ⟨onLink, hwalk⟩ := walkFrom_eq_walkWith d follow linkLimit
  refine ⟨onLink, ?_⟩
  rw [locate_eq_walkFrom ht.accepted, steps_foldl_join ht.names, start,
    Path.isAbsolute_foldl_join ht.names, ← start, hwalk, h.tree.walkWith_go hw]

theorem locate_found (h : d.Stands root) (ht : Takes root segs)
    (hget : d.get? (d.place root ++ segs) = some e) :
    d.locate follow (segs.foldl Path.join root) = .ok (.found (d.place root ++ segs) e) := by
  obtain ⟨onLink, hl⟩ := h.locate_eq ht follow
  rw [hl, (h.tree.below _).walkWith_found h.dir ht.names hget]

theorem locate_absent (h : d.Stands root) (ht : Takes root (init ++ [name]))
    (hdir : d.get? (d.place root ++ init) = some (.dir closed))
    (hnone : d.get? (d.place root ++ (init ++ [name])) = none) :
    d.locate follow ((init ++ [name]).foldl Path.join root) =
      .ok (.absent (d.place root ++ init) name) := by
  obtain ⟨onLink, hl⟩ := h.locate_eq ht follow
  rw [← List.append_assoc] at hnone
  rw [hl, h.tree.walkWith_absent (fun s hs => ht.names s (List.mem_append_left _ hs))
    (ht.names name (by simp)) (ht.fits name (by simp)) hdir h.dir hnone]

theorem locate_missing (h : d.Stands root) (ht : Takes root (init ++ [name]))
    (hopen : d.Open (d.place root) init) (hnone : d.get? (d.place root ++ init) = none) :
    d.locate follow ((init ++ [name]).foldl Path.join root) = .error .missing := by
  obtain ⟨onLink, hl⟩ := h.locate_eq ht follow
  obtain ⟨_, hdir⟩ := h.dir
  rw [hl]
  refine IsTree.walkWith_missing (fun s hs => ?_) hopen (by simp [hdir]) hnone
  exact ⟨ht.names s (List.mem_append_left _ hs), ht.fits s (List.mem_append_left _ hs)⟩

/-- What is below the directory is found. -/
theorem stat_found (h : d.Stands root) (ht : Takes root segs) (hne : segs ≠ [])
    (hget : d.get? (d.place root ++ segs) = some e) :
    d.stat follow (segs.foldl Path.join root) = .ok (d.place root ++ segs, e) := by
  unfold stat
  rw [lookup_of_not_slash (Path.endsWithSlash_foldl_join ht.names hne), h.locate_found ht hget]

theorem readFile_found {bytes : ByteArray} {time : Int} (h : d.Stands root) (ht : Takes root segs)
    (hne : segs ≠ []) (hget : d.get? (d.place root ++ segs) = some (.file bytes time)) :
    d.readFile (segs.foldl Path.join root) = .ok bytes := by
  rw [readFile, h.stat_found ht hne hget]

/-- The trimmed path leads to the directory as well. -/
theorem locate_trimmed (h : d.Stands root) : ∃ closed, d.get? (d.place root) = some (.dir closed) ∧
    ∀ follow, d.locate follow root.trimmed = .ok (.found (d.place root) (.dir closed)) := by
  obtain ⟨closed, onLink, hacc, hget, hw⟩ := h.walk
  obtain ⟨habs, dots, hsteps, hdots⟩ := steps_trimmed h.text_ne_empty
  have hacc' := accept_trimmed hacc h.text_ne_empty
  have hstart : d.start root.trimmed = d.start root := by rw [start, start, habs]
  -- The dots that are trimmed lead nowhere.
  have hplace : (steps root.trimmed).foldl stepTo (d.start root) = d.place root := by
    rw [place_eq_foldl_steps, hsteps, List.foldl_append, ← foldl_stepTo_filter dots,
      List.filter_eq_nil_iff.mpr fun s hs => by simp [hdots s hs], List.foldl_nil]
  refine ⟨closed, hget, fun follow => ?_⟩
  obtain ⟨onLink', hwalk⟩ := walkFrom_eq_walkWith d follow linkLimit
  rw [locate_eq_walkFrom hacc', hwalk, hstart]
  by_cases hnil : dots = []
  · rw [hnil, List.append_nil] at hsteps
    rw [← hsteps]
    have := @IsTree.walkWith_go _ _ _ _ _ _ _ h.tree onLink' follow hw []
    rw [List.append_nil] at this
    rw [this]
    unfold walkWith
    rw [hget, Option.getD_some]
  · rw [hsteps] at hw
    obtain ⟨closed', hget', hall⟩ := h.tree.walkWith_append (h.tree.start_dir root) hnil hw
    rw [hplace, hget, Option.some.injEq] at hget'
    rw [hall, hplace, hget']

/-- Whether a directory below is there is told without fault, where the way is open. -/
theorem exists_of_open (h : d.Stands root) (ht : Takes root segs)
    (hopen : d.Open (d.place root) segs) :
    d.exists? (segs.foldl Path.join root).trimmed =
      .ok (d.get? (d.place root ++ segs)).isSome := by
  rcases List.eq_nil_or_concat segs with rfl | ⟨init, name, rfl⟩
  · obtain ⟨closed, hget, hl⟩ := h.locate_trimmed
    rw [List.foldl_nil, exists?, stat_of_locate hl, List.append_nil, hget]
    rfl
  · rw [List.concat_eq_append] at ht hopen ⊢
    have hname := ht.names name (by simp)
    have hpath : ((init ++ [name]).foldl Path.join root).trimmed =
        (init ++ [name]).foldl Path.join root := by
      rw [List.foldl_append, List.foldl_cons, List.foldl_nil, Path.trimmed_join hname]
    rw [hpath, exists?]
    unfold stat
    rw [lookup_of_not_slash (Path.endsWithSlash_foldl_join ht.names (by simp))]
    cases hget : d.get? (d.place root ++ (init ++ [name])) with
    | some e => rw [h.locate_found ht hget]; rfl
    | none =>
      cases hinit : d.get? (d.place root ++ init) with
      | some e =>
        obtain rfl := hopen init (List.prefix_append _ _) e hinit
        rw [h.locate_absent ht hinit hget]
        rfl
      | none =>
        rw [h.locate_missing ht (hopen.of_isPrefix (List.prefix_append _ _)) hinit]
        rfl

/-- A directory below that is open is there, can be made, or lacks the one it lies in. -/
theorem makeDir_cases (h : d.Stands root) (ht : Takes root (init ++ [name]))
    (hopen : d.Open (d.place root) (init ++ [name])) :
    (d.get? (d.place root ++ (init ++ [name])) = some (.dir false) ∧
        d.makeDir ((init ++ [name]).foldl Path.join root) = .error .present ∧
        d.isDir ((init ++ [name]).foldl Path.join root) = true) ∨
      (∃ d', d.makeDir ((init ++ [name]).foldl Path.join root) = .ok d' ∧
        d'.get? (d.place root ++ (init ++ [name])) = some (.dir false)) ∨
      (d.get? (d.place root ++ init) = none ∧
        d.makeDir ((init ++ [name]).foldl Path.join root) = .error .missing) := by
  cases hget : d.get? (d.place root ++ (init ++ [name])) with
  | some e =>
    obtain rfl := hopen _ List.prefix_rfl e hget
    have hl : ∀ follow, d.locate follow ((init ++ [name]).foldl Path.join root) =
        .ok (.found (d.place root ++ (init ++ [name])) (.dir false)) :=
      fun follow => h.locate_found ht hget
    refine .inl ⟨rfl, ?_, ?_⟩
    · rw [makeDir, hl]
    · rw [isDir, stat_of_locate hl]
      rfl
  | none =>
    cases hinit : d.get? (d.place root ++ init) with
    | some e =>
      obtain rfl := hopen init (List.prefix_append _ _) e hinit
      refine .inr (.inl ⟨d.put (d.place root ++ init ++ [name]) (.dir false), ?_, ?_⟩)
      · rw [makeDir, h.locate_absent ht hinit hget]
        simp only [create, hinit]
      · rw [← List.append_assoc, get_put_self (by simp)]
    | none =>
      refine .inr (.inr ⟨rfl, ?_⟩)
      rw [makeDir, h.locate_missing ht (hopen.of_isPrefix (List.prefix_append _ _)) hinit]

/-- Where the way is open, a directory below can be made with those above it. -/
theorem makeChain (h : d.Stands root) (ht : Takes root segs)
    (hopen : d.Open (d.place root) segs) {n : Nat} (hn : segs.length ≤ n) :
    ∃ d', d.makeChain (Path.ancestorsWithin n (segs.foldl Path.join root).trimmed) =
        (.ok (), d') ∧ d'.get? (d.place root ++ segs) = some (.dir false) := by
  -- By induction on the names from below: the directory of the last one is made before it.
  induction segs using List.reverseRecOn generalizing n with
  | nil =>
    obtain ⟨closed, hget, hl⟩ := h.locate_trimmed
    obtain ⟨rest, hrest⟩ := Path.ancestorsWithin_eq_cons n root.trimmed
    have hclosed := hopen [] List.nil_prefix (.dir closed) (by rw [List.append_nil, hget])
    refine ⟨d, ?_, by rw [List.append_nil, hget, hclosed]⟩
    have hmake : d.makeDir root.trimmed = .error .present := by rw [makeDir, hl]
    have hdir : d.isDir root.trimmed = true := by
      rw [isDir, stat_of_locate hl]
      rfl
    rw [List.foldl_nil, hrest, Disk.makeChain,
      if_neg (by simpa using Path.text_trimmed_ne_empty h.text_ne_empty), hmake]
    simp [hdir]
  | append_singleton init name ih =>
    obtain ⟨n, rfl⟩ : ∃ m, n = m + 1 := ⟨n - 1, by simp at hn; omega⟩
    have hname := ht.names name (by simp)
    have htext : ((init ++ [name]).foldl Path.join root).text ≠ "" :=
      Path.text_foldl_join_ne_empty ht.names (by simp)
    rw [Path.ancestorsWithin_concat hname, Disk.makeChain, if_neg (by simpa using htext)]
    rcases h.makeDir_cases ht hopen with ⟨hget, hmake, hdir⟩ | ⟨d', hmake, hget⟩ | ⟨_, hmake⟩
    · refine ⟨d, ?_, hget⟩
      rw [hmake]
      simp only [hdir, if_true]
    · refine ⟨d', ?_, hget⟩
      rw [hmake]
    · obtain ⟨d₁, hchain, hinit⟩ := ih (ht.of_isPrefix h.text_ne_empty (List.prefix_append _ _))
        (hopen.of_isPrefix (List.prefix_append _ _)) (n := n) (by simpa using hn)
      have hmakes := makeChain_makes d
        (Path.ancestorsWithin n (init.foldl Path.join root).trimmed)
      rw [hchain] at hmakes
      have hgrows := hmakes.grows
      have hplace : d₁.place root = d.place root := place_congr hgrows.home root
      have h₁ : d₁.Stands root := h.grows (hmakes.tree h.tree).1 hgrows
      have hopen₁ : d₁.Open (d₁.place root) (init ++ [name]) := hplace ▸ hopen.grows hgrows
      rw [hmake]
      simp only [hchain]
      rw [← hplace] at hinit ⊢
      rcases h₁.makeDir_cases ht hopen₁ with ⟨hget, hmake, hdir⟩ | ⟨d', hmake, hget⟩ | ⟨hnone, _⟩
      · refine ⟨d₁, ?_, hget⟩
        rw [hmake]
        simp only [hdir, if_true]
      · refine ⟨d', ?_, hget⟩
        rw [hmake]
      · rw [hinit] at hnone
        cases hnone

/-- The place of a path above one below the directory: it is below as well, if nothing is there
    yet. -/
theorem place_above {q : Path} (h : d.Stands root) (hsegs : ∀ s ∈ segs, IsName s)
    (hq : q ∈ (segs.foldl Path.join root).trimmed.ancestors) (hnone : d.get? (d.place q) = none) :
    ∃ l, l <+: segs ∧ d.place q = d.place root ++ l := by
  have htext : (segs.foldl Path.join root).text ≠ "" := by
    by_cases hnil : segs = []
    · rw [hnil]
      exact h.text_ne_empty
    · exact Path.text_foldl_join_ne_empty hsegs hnil
  obtain ⟨habs, hpre, _⟩ := Path.mem_ancestorsWithin hq
  rw [(steps_trimmed htext).1, Path.isAbsolute_foldl_join hsegs] at habs
  rw [names_trimmed htext, Path.names_foldl_join hsegs] at hpre
  rcases List.prefix_or_prefix_of_prefix hpre (List.prefix_append root.names segs) with hq | hq
  · -- What is above the directory is there already.
    obtain ⟨closed, hdir⟩ := h.tree.dir_of_names h.found habs hq
    rw [hnone] at hdir
    cases hdir
  · obtain ⟨l, hl⟩ := hq
    rw [← hl, List.prefix_append_right_inj] at hpre
    exact ⟨l, hpre, place_of_names (fun s hs => hsegs s (hpre.subset hs)) d habs hl.symm⟩

end Stands

end Disk

end RunCache
