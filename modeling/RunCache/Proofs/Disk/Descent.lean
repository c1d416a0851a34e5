import RunCache.Proofs.Disk.Below

/-! # Making directories on the way down

    A directory whose own directory is missing is made in a second attempt,
    after that one.  In a tree this comes to the same as going down by the
    names of the path and making what is missing.

    * **`Disk.goDown`**: a look-up by names alone, which all look-ups of
      trimmed paths are (`IsTree.locate_eq_goDown`).
    * **`Disk.makeWay`**: directories made going down.
    * **`IsTree.makeDirs_eq`**: the two ways to make directories agree.
    * **`IsTree.writeFile_eq`**: writing a file in a directory that is
      there. -/

namespace RunCache

namespace Disk

variable {d : Disk} {here : Location} {names init rest segs : List String} {s : String} {p : Path}
  {closed : Bool} {f : Fault}

/-! ## Look-ups by names -/

/-- A look-up by names alone. In a tree there is no link on the way. -/
def goDown (d : Disk) (here : Location) (names : List String) : Except Fault Place :=
  d.walkWith false (fun _ _ _ => .error .tooManyLinks) here names

@[simp] theorem goDown_nil :
    d.goDown here [] = .ok (.found here ((d.get? here).getD (.dir false))) := by
  unfold goDown walkWith
  rfl

theorem walkWith_long {follow : Bool}
    {onLink : Location → Path → List String → Except Fault Place} (hs : IsName s)
    (hlong : s.utf8ByteSize > nameLimit) :
    d.walkWith follow onLink here (s :: rest) = .error .nameTooLong := by
  unfold walkWith
  rw [if_neg hs.2.1, if_neg hs.2.2.1, if_pos hlong]

theorem goDown_long (hs : IsName s) (hlong : s.utf8ByteSize > nameLimit) :
    d.goDown here (s :: rest) = .error .nameTooLong := walkWith_long hs hlong

theorem goDown_entry (hs : IsName s) (hfits : s.utf8ByteSize ≤ nameLimit) :
    d.goDown here (s :: rest) =
      match d.get? (here ++ [s]) with
      | none => if rest.isEmpty then .ok (.absent here s) else .error .missing
      | some (.dir _) => d.goDown (here ++ [s]) rest
      | some (.file content modified) =>
        if rest.isEmpty then .ok (.found (here ++ [s]) (.file content modified))
        else .error .notDirectory
      | some (.link target) =>
        if rest.isEmpty then .ok (.found (here ++ [s]) (.link target))
        else .error .tooManyLinks := by
  refine (walkWith_entry (.of_isName hs hfits)).trans ?_
  cases d.get? (here ++ [s]) with
  | none => rfl
  | some e =>
    cases e with
    | dir closed => rfl
    | file content modified => rfl
    | link target =>
      simp only [Bool.not_false, Bool.and_true]

/-- Segments without dots are followed in a tree as those with dots are, if the last is no dot. -/
theorem IsTree.walkWith_filter {follow follow' : Bool}
    {onLink onLink' : Location → Path → List String → Except Fault Place} (h : d.IsTree)
    (hlast : segs.getLast? ≠ some ".") :
    d.walkWith follow onLink here segs =
      d.walkWith follow' onLink' here (segs.filter (· ≠ ".")) := by
  induction segs generalizing here with
  | nil =>
    unfold walkWith
    rfl
  | cons s rest ih =>
    have hlast' : rest.getLast? ≠ some "." := by
      intro hdot
      apply hlast
      rw [List.getLast?_cons, hdot, Option.getD_some]
    by_cases hdot : s = "."
    · subst hdot
      rw [LeadsOn.dot.walkWith, List.filter_cons_of_neg (by simp)]
      exact ih hlast'
    rw [List.filter_cons_of_pos (by simpa using hdot)]
    by_cases hup : s = ".."
    · subst hup
      rw [LeadsOn.up.walkWith, LeadsOn.up.walkWith]
      exact ih hlast'
    by_cases hlong : s.utf8ByteSize > nameLimit
    · unfold walkWith
      rw [if_neg hdot, if_neg hup, if_pos hlong, if_neg hdot, if_neg hup, if_pos hlong]
    have hs : IsEntryName s := ⟨hdot, hup, Nat.not_lt.mp hlong⟩
    -- The way ends at the same segment, since the last of those behind it stays.
    have hend : (rest.filter (· ≠ ".")).isEmpty = rest.isEmpty := by
      rcases List.eq_nil_or_concat rest with rfl | ⟨more, t, rfl⟩
      · rfl
      · rw [List.concat_eq_append, List.getLast?_concat] at hlast'
        have ht : t ≠ "." := fun heq => hlast' (congrArg some heq)
        rw [List.concat_eq_append, List.filter_append, List.filter_cons_of_pos (by simpa using ht),
          List.isEmpty_eq_false_iff.mpr (by simp), List.isEmpty_eq_false_iff.mpr (by simp)]
    rw [walkWith_entry hs, walkWith_entry hs, hend]
    cases hget : d.get? (here ++ [s]) with
    | none => rfl
    | some e =>
      cases e with
      | dir closed => exact ih hlast'
      | file bytes time => rfl
      | link target => exact absurd (h.noLink _ _ hget) (by simp [Entry.isLink])

/-- A look-up of a trimmed path goes down by the names of the path. -/
theorem IsTree.locate_eq_goDown (h : d.IsTree) (hp : p.IsRooted) (htrim : p.IsTrimmed)
    (hacc : accept p = .ok ()) (follow : Bool) : d.locate follow p = d.goDown [] p.names := by
  obtain ⟨onLink, hwalk⟩ := walkFrom_eq_walkWith d follow linkLimit
  rw [locate_eq_walkFrom hacc, hwalk, start, if_pos hp.absolute, goDown,
    h.walkWith_filter htrim.getLast_steps, ← names_eq_filter_steps]

theorem IsTree.stat_eq_goDown (h : d.IsTree) (hp : p.IsRooted) (htrim : p.IsTrimmed)
    (hacc : accept p = .ok ()) (follow : Bool) :
    d.stat follow p =
      match d.goDown [] p.names with
      | .error f => .error f
      | .ok (.absent ..) => .error .missing
      | .ok (.found loc e) => .ok (loc, e) := by
  unfold stat
  by_cases hroot : p.names = []
  · -- Only the root may end with a slash, and it is a directory.
    have hfound : ∀ follow, d.locate follow p = .ok (.found [] (.dir false)) := by
      intro follow
      rw [h.locate_eq_goDown hp htrim hacc, hroot]
      simp
    simp [lookup, hfound, hroot, Entry.isDir]
  · have hlookup : d.lookup follow p = d.goDown [] p.names :=
      (lookup_of_not_slash (htrim.endsWithSlash hroot)).trans
        (h.locate_eq_goDown hp htrim hacc follow)
    cases hgo : d.goDown [] p.names with
    | error f => simp only [hlookup, hgo]
    | ok place => cases place <;> simp only [hlookup, hgo]

/-! ### What the way comes to -/

/-- Names lead from a directory to what is there. -/
theorem IsTree.goDown_found {e : Entry} (h : d.IsTree)
    (hhere : ∃ closed, d.get? here = some (.dir closed)) (hnames : ∀ s ∈ names, IsName s)
    (hget : d.get? (here ++ names) = some e) :
    d.goDown here names = .ok (.found (here ++ names) e) :=
  (h.below here).walkWith_found hhere hnames hget

theorem IsTree.goDown_names {e : Entry} (h : d.IsTree) (hp : p.IsRooted)
    (hget : d.get? p.names = some e) : d.goDown [] p.names = .ok (.found p.names e) := by
  have hroot : ∃ closed, d.get? [] = some (.dir closed) := ⟨false, rfl⟩
  exact h.goDown_found hroot (fun s hs => hp.isName_of_mem hs) hget

/-- Behind a directory the way goes on from there. -/
theorem IsTree.goDown_append (h : d.IsTree) (hhere : ∃ closed, d.get? here = some (.dir closed))
    (hinit : ∀ s ∈ init, IsName s) (hdir : d.get? (here ++ init) = some (.dir closed))
    (rest : List String) : d.goDown here (init ++ rest) = d.goDown (here ++ init) rest :=
  h.walkWith_go (h.goDown_found hhere hinit hdir) rest

/-- A way that comes to anything passes through directories. -/
theorem IsTree.dir_of_goDown {place : Place} (h : d.IsTree)
    (hhere : ∃ closed, d.get? here = some (.dir closed)) (hinit : ∀ s ∈ init, IsName s)
    (hgo : d.goDown here (init ++ [s]) = .ok place) :
    ∃ closed, d.get? (here ++ init) = some (.dir closed) := by
  obtain ⟨closed, hdir, _⟩ := h.walkWith_append hhere (by simp) hgo
  rw [foldl_stepTo_of_isName hinit] at hdir
  exact ⟨closed, hdir⟩

/-- A fault on the way, but for what is missing, stands in the way of whatever lies behind. -/
theorem IsTree.goDown_fault (h : d.IsTree) (hnames : ∀ s ∈ names, IsName s)
    (hgo : d.goDown here names = .error f) (hf : f ≠ .missing) (more : List String) :
    d.goDown here (names ++ more) = .error f := by
  induction names generalizing here with
  | nil =>
    rw [goDown_nil] at hgo
    cases hgo
  | cons s rest ih =>
    have hs := hnames s (by simp)
    rw [List.cons_append]
    by_cases hlong : s.utf8ByteSize > nameLimit
    · rw [goDown_long hs hlong] at hgo ⊢
      exact hgo
    have hfits := Nat.not_lt.mp hlong
    rw [goDown_entry hs hfits] at hgo ⊢
    cases hget : d.get? (here ++ [s]) with
    | none =>
      simp only [hget] at hgo
      split at hgo
      · cases hgo
      · -- What is missing is the one fault that is left out.
        exact absurd (Except.error.inj hgo).symm hf
    | some e =>
      cases e with
      | dir closed =>
        simp only [hget] at hgo
        exact ih (fun t ht => hnames t (List.mem_cons_of_mem s ht)) hgo
      | file bytes time =>
        simp only [hget] at hgo ⊢
        split at hgo
        · cases hgo
        · next hrest =>
          rw [if_neg (by simpa using fun hnil _ => hrest (List.isEmpty_iff.mpr hnil))]
          exact hgo
      | link target => exact absurd (h.noLink _ _ hget) (by simp [Entry.isLink])

/-! ## Making what is missing -/

/-- Makes the directories of names, each in the one before it. -/
def makeWay (d : Disk) (here : Location) : List String → Except Fault Unit × Disk
  | [] => (.ok (), d)
  | s :: rest =>
    if s.utf8ByteSize > nameLimit then (.error .nameTooLong, d)
    else match d.get? (here ++ [s]) with
      | some (.dir _) => makeWay d (here ++ [s]) rest
      | some _ => (.error .notDirectory, d)
      | none =>
        match d.create here s (.dir false) with
        | .error f => (.error f, d)
        | .ok d => makeWay d (here ++ [s]) rest

/-- Directories made in two parts. -/
theorem makeWay_append (d : Disk) (here : Location) (init more : List String) :
    d.makeWay here (init ++ more) =
      match d.makeWay here init with
      | (.error f, d) => (.error f, d)
      | (.ok (), d) => d.makeWay (here ++ init) more := by
  induction init generalizing d here with
  | nil => simp [makeWay]
  | cons s init ih =>
    have hassoc : here ++ s :: init = here ++ [s] ++ init := by simp
    rw [List.cons_append, makeWay, makeWay]
    split
    · rfl
    · split
      · rw [ih, hassoc]
      · rfl
      · split
        · rfl
        · rw [ih, hassoc]

/-- Where all is there already, nothing is made. -/
theorem IsTree.makeWay_of_dir (h : d.IsTree) (hdir : d.get? (here ++ names) = some (.dir closed)) :
    d.makeWay here names = (.ok (), d) := by
  induction names generalizing here with
  | nil => rfl
  | cons s rest ih =>
    have hfits := h.fits _ _ hdir s (by simp)
    have hassoc : here ++ s :: rest = here ++ [s] ++ rest := by simp
    rw [hassoc] at hdir
    have hnext : ∃ closed, d.get? (here ++ [s]) = some (.dir closed) := by
      by_cases hrest : rest = []
      · exact ⟨closed, by simpa [hrest] using hdir⟩
      · exact h.dir_above hdir (List.prefix_append _ _) (by simpa using hrest)
    obtain ⟨closed', hnext⟩ := hnext
    rw [makeWay, if_neg (Nat.not_lt.mpr hfits), hnext]
    exact ih hdir

/-- Where the way down comes to a fault, it is the same one, before anything is made. -/
theorem IsTree.makeWay_of_fault (h : d.IsTree) (hnames : ∀ s ∈ names, IsName s)
    (hgo : d.goDown here names = .error f) (hf : f ≠ .missing) :
    d.makeWay here names = (.error f, d) := by
  induction names generalizing here with
  | nil =>
    rw [goDown_nil] at hgo
    cases hgo
  | cons s rest ih =>
    have hs := hnames s (by simp)
    by_cases hlong : s.utf8ByteSize > nameLimit
    · rw [goDown_long hs hlong] at hgo
      rw [makeWay, if_pos hlong, Except.error.inj hgo]
    rw [goDown_entry hs (Nat.not_lt.mp hlong)] at hgo
    rw [makeWay, if_neg hlong]
    cases hget : d.get? (here ++ [s]) with
    | none =>
      simp only [hget] at hgo
      split at hgo
      · cases hgo
      · -- What is missing is the one fault that is left out.
        exact absurd (Except.error.inj hgo).symm hf
    | some e =>
      cases e with
      | dir closed =>
        simp only [hget] at hgo
        exact ih (fun t ht => hnames t (List.mem_cons_of_mem s ht)) hgo
      | file bytes time =>
        simp only [hget] at hgo
        split at hgo
        · cases hgo
        · simp only [Except.error.inj hgo]
      | link target => exact absurd (h.noLink _ _ hget) (by simp [Entry.isLink])

/-- What has been made is there. -/
theorem makeWay_ok {d' : Disk} (hhere : ∃ closed, d.get? here = some (.dir closed))
    (hm : d.makeWay here names = (.ok (), d')) :
    ∃ closed, d'.get? (here ++ names) = some (.dir closed) := by
  induction names generalizing d here with
  | nil =>
    obtain ⟨_, rfl⟩ := Prod.mk.inj hm
    simpa using hhere
  | cons s rest ih =>
    have hassoc : here ++ s :: rest = here ++ [s] ++ rest := by simp
    rw [hassoc]
    rw [makeWay] at hm
    split at hm
    · cases hm
    · split at hm
      · next closed hget => exact ih ⟨closed, hget⟩ hm
      · cases hm
      · split at hm
        · cases hm
        · next d₁ hcreate =>
          obtain ⟨_, rfl⟩ := create_ok hcreate
          exact ih ⟨false, get_put_self (by simp)⟩ hm

/-! ## The two ways agree -/

/-- A path that the system does not take is made nowhere. -/
theorem makeDirs_refused (hp : p.IsRooted) (hacc : accept p = .error f) :
    d.makeDirs p = (.error f, d) := by
  have hf : f ≠ .missing := by
    rintro rfl
    exact accept_ne_missing hp.text_ne_empty hacc
  have hm : d.makeDir p = .error f := by simp [makeDir, locate, hacc]
  have hdir : d.isDir p = false := by simp [isDir, stat, lookup, locate, hacc]
  rw [makeDirs, Path.ancestors_eq_cons, makeChain, if_neg (by simpa using hp.text_ne_empty), hm]
  split
  · next heq => cases heq
  · next heq => exact absurd (Except.error.inj heq) hf
  · next heq =>
    rw [hdir, Except.error.inj heq]
    rfl

namespace IsTree

/-- The way to a path goes on from the directory that the path lies in. -/
theorem goDown_last (h : d.IsTree) (hp : p.IsRooted) (hnames : p.names = init ++ [s])
    (hdir : d.get? init = some (.dir closed)) : d.goDown [] p.names = d.goDown init [s] := by
  have hinit : ∀ t ∈ init, IsName t := fun t ht => hp.isName_of_mem (by simp [hnames, ht])
  have hroot : ∃ closed, d.get? [] = some (.dir closed) := ⟨false, rfl⟩
  rw [hnames, h.goDown_append hroot hinit hdir, List.nil_append]

/-- With its directory there, a directory is made, or is there already, or cannot be made. -/
theorem makeDir_last (h : d.IsTree) (hp : p.IsRooted) (htrim : p.IsTrimmed)
    (hacc : accept p = .ok ()) (hnames : p.names = init ++ [s])
    (hdir : d.get? init = some (.dir closed))
    (hfile : ∀ bytes time, d.get? p.names ≠ some (.file bytes time)) :
    (match d.makeDir p with
      | .ok d => (.ok (), d)
      | .error f => if d.isDir p then (.ok (), d) else (.error f, d)) = d.makeWay init [s] := by
  have hs : IsName s := hp.isName_of_mem (by simp [hnames])
  have hlocate := h.locate_eq_goDown hp htrim hacc false
  have hstat := h.stat_eq_goDown hp htrim hacc true
  rw [h.goDown_last hp hnames hdir] at hlocate hstat
  rw [hnames] at hfile
  by_cases hlong : s.utf8ByteSize > nameLimit
  · rw [goDown_long hs hlong] at hlocate hstat
    simp [Disk.makeDir, hlocate, isDir, hstat, makeWay, hlong]
  · rw [goDown_entry hs (Nat.not_lt.mp hlong)] at hlocate hstat
    rw [makeWay, if_neg hlong]
    cases hget : d.get? (init ++ [s]) with
    | none =>
      simp only [hget, List.isEmpty_nil, if_true] at hlocate hstat
      simp only [Disk.makeDir, hlocate, isDir, hstat, makeWay, Bool.false_eq_true, if_false]
      cases d.create init s (.dir false) <;> rfl
    | some e =>
      cases e with
      | dir closed' =>
        simp only [hget, goDown_nil, Option.getD_some] at hlocate hstat
        simp [Disk.makeDir, hlocate, isDir, hstat, makeWay, Entry.isDir]
      | file bytes time => exact absurd hget (hfile bytes time)
      | link target => exact absurd (h.noLink _ _ hget) (by simp [Entry.isLink])

/-- A path leads to no directory where its look-up comes to a fault. -/
theorem isDir_of_fault (h : d.IsTree) (hp : p.IsRooted) (htrim : p.IsTrimmed)
    (hacc : accept p = .ok ()) (hgo : d.goDown [] p.names = .error f) : d.isDir p = false := by
  rw [isDir, h.stat_eq_goDown hp htrim hacc, hgo]

/-- Nothing is found behind a file. -/
theorem goDown_behind_file {bytes : ByteArray} {time : Int} (h : d.IsTree)
    (hhere : ∃ closed, d.get? here = some (.dir closed)) (hinit : ∀ t ∈ init, IsName t)
    (hfile : d.get? (here ++ init) = some (.file bytes time)) :
    d.goDown here (init ++ [s]) = .error .notDirectory := by
  induction init generalizing here with
  | nil =>
    obtain ⟨closed, hdir⟩ := hhere
    rw [List.append_nil, hdir] at hfile
    cases hfile
  | cons t rest ih =>
    have hfits := h.fits _ _ hfile t (by simp)
    have hassoc : here ++ t :: rest = here ++ [t] ++ rest := by simp
    rw [hassoc] at hfile
    rw [List.cons_append, goDown_entry (hinit t (by simp)) hfits]
    by_cases hrest : rest = []
    · rw [hrest, List.append_nil] at hfile
      simp [hfile, hrest]
    · obtain ⟨closed, hdir⟩ := h.dir_above hfile (List.prefix_append _ _) (by simpa using hrest)
      simp only [hdir]
      exact ih ⟨closed, hdir⟩ (fun u hu => hinit u (List.mem_cons_of_mem t hu)) hfile

/-- The root is there. -/
theorem makeChain_root (h : d.IsTree) (hp : p.IsRooted) (htrim : p.IsTrimmed)
    (hacc : accept p = .ok ()) (hnil : p.names = []) (n : Nat) :
    d.makeChain (p.ancestorsWithin n) = (.ok (), d) := by
  have hlocate := h.locate_eq_goDown hp htrim hacc false
  have hdir : d.isDir p = true := by
    rw [isDir, h.stat_eq_goDown hp htrim hacc, hnil]
    rfl
  obtain ⟨rest, hrest⟩ := Path.ancestorsWithin_eq_cons n p
  rw [hnil, goDown_nil] at hlocate
  rw [hrest, Disk.makeChain, if_neg (by simpa using hp.text_ne_empty)]
  simp [Disk.makeDir, hlocate, hdir]

/-- With its directory there, a directory is made at the first attempt, or a second one comes to what
    the first one came to. -/
theorem makeChain_of_dir {above : List Path} (h : d.IsTree) (hp : p.IsRooted) (htrim : p.IsTrimmed)
    (hacc : accept p = .ok ()) (hnames : p.names = init ++ [s])
    (hdir : d.get? init = some (.dir closed))
    (hfile : ∀ bytes time, d.get? p.names ≠ some (.file bytes time))
    (habove : d.makeChain above = (.ok (), d)) :
    d.makeChain (p :: above) = d.makeWay init [s] := by
  rw [Disk.makeChain, if_neg (by simpa using hp.text_ne_empty), habove,
    ← h.makeDir_last hp htrim hacc hnames hdir hfile]
  split
  · next hm => rw [hm]
  · rfl
  · next hm => rw [hm]

/-- Where the directory of a directory is not there, it is made first, unless something stands in its
    way. -/
theorem makeChain_of_not_dir {above : List Path} (h : d.IsTree) (hp : p.IsRooted)
    (htrim : p.IsTrimmed) (hacc : accept p = .ok ()) (hnames : p.names = init ++ [s])
    (hdir : ∀ closed, d.get? init ≠ some (.dir closed))
    (hfile : ∀ bytes time, d.get? p.names ≠ some (.file bytes time))
    (habove : (∀ bytes time, d.get? init ≠ some (.file bytes time)) →
      d.makeChain above = d.makeWay [] init) :
    d.makeChain (p :: above) = d.makeWay [] p.names := by
  have hinit : ∀ t ∈ init, IsName t := fun t ht => hp.isName_of_mem (by simp [hnames, ht])
  have hroot : ∃ closed, d.get? [] = some (.dir closed) := ⟨false, rfl⟩
  have hlocate := h.locate_eq_goDown hp htrim hacc false
  rw [Disk.makeChain, if_neg (by simpa using hp.text_ne_empty)]
  cases hgo : d.goDown [] p.names with
  | ok place =>
    rw [hnames] at hgo
    obtain ⟨closed, hget⟩ := h.dir_of_goDown hroot hinit hgo
    exact absurd hget (hdir closed)
  | error f =>
    have hm : d.makeDir p = .error f := by rw [Disk.makeDir, hlocate, hgo]
    by_cases hf : f = .missing
    · subst hf
      have hnofile : ∀ bytes time, d.get? init ≠ some (.file bytes time) := by
        intro bytes time hget
        rw [hnames, h.goDown_behind_file hroot hinit hget] at hgo
        cases hgo
      have hmakes := makeChain_makes d above
      rw [hm]
      simp only
      rw [habove hnofile] at hmakes ⊢
      rw [hnames, makeWay_append]
      rcases hway : d.makeWay [] init with ⟨result, d₁⟩
      rw [hway] at hmakes
      cases result with
      | error f => rfl
      | ok u =>
        -- The second attempt finds the directory that has been made.
        obtain ⟨closed, hdir₁⟩ := makeWay_ok hroot hway
        apply (hmakes.tree h).1.makeDir_last hp htrim hacc hnames hdir₁
        intro bytes time hget
        rcases hmakes.grows.file_before hget with hold | ⟨hfalse, _⟩
        · exact hfile bytes time hold
        · exact hfalse
    · rw [h.makeWay_of_fault (fun t ht => hp.isName_of_mem ht) hgo hf, hm]
      split
      · next heq => cases heq
      · next heq => exact absurd (Except.error.inj heq) hf
      · next heq =>
        rw [h.isDir_of_fault hp htrim hacc hgo, Except.error.inj heq]
        rfl

/-- Directories made from below are those made on the way down, unless a file stands where the last
    one is to be made. -/
theorem makeChain_eq {n : Nat} (h : d.IsTree) (hp : p.IsRooted) (htrim : p.IsTrimmed)
    (hacc : accept p = .ok ()) (hn : p.names.length ≤ n)
    (hfile : ∀ bytes time, d.get? p.names ≠ some (.file bytes time)) :
    d.makeChain (p.ancestorsWithin n) = d.makeWay [] p.names := by
  induction n generalizing p with
  | zero =>
    have hnil : p.names = [] := List.length_eq_zero_iff.mp (Nat.le_zero.mp hn)
    rw [h.makeChain_root hp htrim hacc hnil, hnil, makeWay]
  | succ n ih =>
    rcases List.eq_nil_or_concat p.names with hnil | ⟨init, s, hnames⟩
    · rw [h.makeChain_root hp htrim hacc hnil, hnil, makeWay]
    rw [List.concat_eq_append] at hnames
    obtain ⟨q, hq, hqroot, hqtrim, hqnames⟩ := hp.exists_parent hnames
    have habove : (∀ bytes time, d.get? init ≠ some (.file bytes time)) →
        d.makeChain (q.ancestorsWithin n) = d.makeWay [] init := by
      intro hnofile
      rw [← hqnames] at hnofile ⊢
      apply ih hqroot hqtrim (accept_of_parent hacc hq hqroot.text_ne_empty) _ hnofile
      simp only [hnames, List.length_append, List.length_singleton] at hn
      rw [hqnames]
      omega
    rw [Path.ancestorsWithin, hq]
    -- Either the directory above is there, or it is made first.
    by_cases hdir : ∃ closed, d.get? init = some (.dir closed)
    · obtain ⟨closed, hdir⟩ := hdir
      have hway : d.makeWay [] init = (.ok (), d) := h.makeWay_of_dir hdir
      rw [h.makeChain_of_dir hp htrim hacc hnames hdir hfile
        (by rw [habove (by simp [hdir]), hway]), hnames, makeWay_append, hway]
      rfl
    · exact h.makeChain_of_not_dir hp htrim hacc hnames (fun c hc => hdir ⟨c, hc⟩) hfile habove

/-- Directories are made on the way down, unless a file stands where the last one is to be made. -/
theorem makeDirs_eq (h : d.IsTree) (hp : p.IsRooted) (htrim : p.IsTrimmed)
    (hacc : accept p = .ok ()) (hfile : ∀ bytes time, d.get? p.names ≠ some (.file bytes time)) :
    d.makeDirs p = d.makeWay [] p.names := by
  apply h.makeChain_eq hp htrim hacc _ hfile
  rw [Path.parts_of_isAbsolute hp.absolute]
  exact Nat.le_succ _

/-- Where a file stands, no directory is made. -/
theorem makeDirs_of_file {bytes : ByteArray} {time : Int} (h : d.IsTree) (hp : p.IsRooted)
    (htrim : p.IsTrimmed) (hacc : accept p = .ok ())
    (hfile : d.get? p.names = some (.file bytes time)) :
    d.makeDirs p = (.error .present, d) := by
  have hgo := h.goDown_names hp hfile
  have hlocate := h.locate_eq_goDown hp htrim hacc false
  have hdir : d.isDir p = false := by
    rw [isDir, h.stat_eq_goDown hp htrim hacc, hgo]
    rfl
  rw [hgo] at hlocate
  rw [Disk.makeDirs, Path.ancestors_eq_cons, Disk.makeChain,
    if_neg (by simpa using hp.text_ne_empty)]
  simp [Disk.makeDir, hlocate, hdir]

/-- A directory that has been made with those above it is there. -/
theorem dir_of_makeDirs {d' : Disk} (h : d.IsTree) (hp : p.IsRooted) (htrim : p.IsTrimmed)
    (hm : d.makeDirs p = (.ok (), d')) : ∃ closed, d'.get? p.names = some (.dir closed) := by
  cases hacc : accept p with
  | error f =>
    rw [makeDirs_refused hp hacc] at hm
    cases hm
  | ok u =>
    by_cases hfile : ∃ bytes time, d.get? p.names = some (.file bytes time)
    · obtain ⟨bytes, time, hfile⟩ := hfile
      rw [h.makeDirs_of_file hp htrim hacc hfile] at hm
      cases hm
    · rw [h.makeDirs_eq hp htrim hacc fun bytes time hget => hfile ⟨bytes, time, hget⟩] at hm
      have hroot : ∃ closed, d.get? [] = some (.dir closed) := ⟨false, rfl⟩
      exact makeWay_ok hroot hm

/-- A file is written in a directory that is there under a name that the system takes, unless
    something else has the name. -/
theorem writeFile_eq (now : Int) (bytes : ByteArray) (h : d.IsTree) (hp : p.IsRooted)
    (htrim : p.IsTrimmed) (hacc : accept p = .ok ()) (hnames : p.names = init ++ [s])
    (hdir : d.get? init = some (.dir closed)) :
    d.writeFile now p bytes =
      if s.utf8ByteSize > nameLimit then .error .nameTooLong
      else match d.get? (init ++ [s]) with
        | none => d.create init s (.file bytes now)
        | some (.file ..) => .ok (d.put (init ++ [s]) (.file bytes now))
        | some _ => .error .isDirectory := by
  have hs : IsName s := hp.isName_of_mem (by simp [hnames])
  have hslash : p.endsWithSlash = false := htrim.endsWithSlash (by simp [hnames])
  have hlocate := h.locate_eq_goDown hp htrim hacc true
  rw [h.goDown_last hp hnames hdir] at hlocate
  unfold Disk.writeFile
  by_cases hlong : s.utf8ByteSize > nameLimit
  · rw [goDown_long hs hlong] at hlocate
    rw [hlocate, if_pos hlong]
  · rw [goDown_entry hs (Nat.not_lt.mp hlong)] at hlocate
    rw [hlocate, if_neg hlong]
    cases hget : d.get? (init ++ [s]) with
    | none => simp [hslash]
    | some e =>
      cases e with
      | dir closed' => simp [hslash, hget]
      | file old time => simp [hslash]
      | link target => simp [hslash]

end IsTree

end Disk

end RunCache
