import RunCache.Proofs.Disk.Path
import RunCache.Proofs.Disk.Tree
import RunCache.Proofs.Disk.Way

/-! # Looking up paths in trees

    Where nothing is a link, a path leads to one place, whatever the disk
    holds there: a name goes down, two dots go up.  A look-up either comes
    to that place or tells that nothing is there.

    * **`Disk.place`**: the place of a path.
    * **`Disk.Tells`**: what the end of a look-up says of the place.
    * **`IsTree.locate_found`**, **`IsTree.locate_absent`**,
      **`IsTree.get_place_of_locate_error`**: the three ends.
    * **`IsTree.stat_ok`**, **`IsTree.exists_false`**: the same for the
      reading operations. -/

namespace RunCache

/-- A trimmed path does not end with a dot. -/
theorem Path.IsTrimmed.getLast_steps {p : Path} (h : p.IsTrimmed) :
    (Disk.steps p).getLast? ≠ some "." := by
  rcases h with hroot | ⟨init, l, hbody, hl⟩
  · simp [Disk.steps, hroot]
  · have hne : l ≠ "" := by
      rintro rfl
      simp [Path.isIdle] at hl
    have hdot : l ≠ "." := by
      rintro rfl
      simp [Path.isIdle] at hl
    simp [Disk.steps, hbody, List.filter_append, hne, hdot]

namespace Disk

/-! ## Places -/

/-- Where a segment leads from a location. -/
def stepTo (here : Location) (s : String) : Location :=
  if s = "." then here else if s = ".." then here.dropLast else here ++ [s]

/-- Where a look-up of a path starts. -/
def start (d : Disk) (p : Path) : Location := if p.isAbsolute then [] else d.home

/-- Where a path leads in a tree without links, whether anything is there or not. -/
def place (d : Disk) (p : Path) : Location := p.names.foldl stepTo (d.start p)

theorem stepTo_of_isName {s : String} (hs : IsName s) (here : Location) :
    stepTo here s = here ++ [s] := by
  simp [stepTo, hs.2.1, hs.2.2.1]

theorem foldl_stepTo_of_isName {segs : List String} (hsegs : ∀ s ∈ segs, IsName s)
    (here : Location) : segs.foldl stepTo here = here ++ segs := by
  induction segs generalizing here with
  | nil => simp
  | cons s rest ih =>
    rw [List.foldl_cons, stepTo_of_isName (hsegs s (by simp)),
      ih fun t ht => hsegs t (List.mem_cons_of_mem _ ht)]
    simp

/-- Without two dots the way goes down. -/
theorem prefix_foldl_stepTo {segs : List String} (hup : ".." ∉ segs) (here : Location) :
    here <+: segs.foldl stepTo here := by
  induction segs generalizing here with
  | nil => exact List.prefix_rfl
  | cons s rest ih =>
    have hs : s ≠ ".." := fun h => hup (by simp [h])
    have hrest : ".." ∉ rest := fun h => hup (List.mem_cons_of_mem _ h)
    rw [List.foldl_cons]
    refine List.IsPrefix.trans ?_ (ih hrest _)
    unfold stepTo
    rw [if_neg hs]
    split
    · exact List.prefix_rfl
    · exact List.prefix_append here [s]

/-- A way that goes down and ends with a name leaves its start. -/
theorem foldl_stepTo_ne {segs : List String} (hup : ".." ∉ segs) (hne : segs ≠ [])
    (hlast : segs.getLast? ≠ some ".") (here : Location) : here ≠ segs.foldl stepTo here := by
  obtain ⟨init, l, rfl⟩ : ∃ init l, segs = init ++ [l] :=
    ⟨_, _, (List.dropLast_append_getLast hne).symm⟩
  have hl : l ≠ "." := by simpa using hlast
  have hl' : l ≠ ".." := fun h => hup (by simp [h])
  have hpre : here <+: init.foldl stepTo here :=
    prefix_foldl_stepTo (fun h => hup (List.mem_append_left _ h)) here
  rw [List.foldl_append, List.foldl_cons, List.foldl_nil, stepTo, if_neg hl, if_neg hl']
  intro heq
  have hlen := congrArg List.length heq
  have := hpre.length_le
  simp only [List.length_append, List.length_singleton] at hlen
  omega

/-- Dots lead nowhere. -/
theorem foldl_stepTo_filter (segs : List String) (here : Location) :
    (segs.filter (· ≠ ".")).foldl stepTo here = segs.foldl stepTo here := by
  induction segs generalizing here with
  | nil => rfl
  | cons s rest ih =>
    by_cases hdot : s = "."
    · simpa [hdot, stepTo] using ih here
    · simpa [hdot] using ih (stepTo here s)

theorem names_eq_filter_steps (p : Path) : p.names = (steps p).filter (· ≠ ".") := by
  rw [steps, List.filter_filter, Path.names]
  congr 1
  funext s
  by_cases hempty : s = "" <;> simp [Path.isIdle, hempty]

theorem place_eq_foldl_steps (d : Disk) (p : Path) :
    d.place p = (steps p).foldl stepTo (d.start p) := by
  rw [place, names_eq_filter_steps, foldl_stepTo_filter]

theorem mem_names_of_mem_steps {p : Path} {s : String} (h : s ∈ steps p) (hs : s ≠ ".") :
    s ∈ p.names := by
  obtain ⟨hbody, hne⟩ := List.mem_filter.mp h
  exact List.mem_filter.mpr ⟨hbody, by simpa [Path.isIdle, hs] using hne⟩

theorem steps_join_of_head {p : Path} {s : String} (hhead : s.toList.head? ≠ some '/') :
    steps (p.join s) = steps p ++ (Text.segments s).filter (!·.isEmpty) := by
  obtain ⟨segs, hp, hj⟩ := Path.body_join_of_head (p := p) hhead
  have hsteps : steps p = segs.filter (!·.isEmpty) := by
    rcases hp with hp | hp <;> simp [steps, hp]
  rw [hsteps, steps, hj, List.filter_append]

theorem steps_join {p : Path} {s : String} (hs : IsName s) : steps (p.join s) = steps p ++ [s] := by
  rw [steps_join_of_head (Path.head_ne_slash hs.2.2.2), Text.segments_of_no_slash hs.2.2.2]
  simp [hs.1]

theorem steps_foldl_join {segs : List String} (hsegs : ∀ s ∈ segs, IsName s) (p : Path) :
    steps (segs.foldl Path.join p) = steps p ++ segs := by
  induction segs generalizing p with
  | nil => simp
  | cons s rest ih =>
    rw [List.foldl_cons, ih fun t ht => hsegs t (List.mem_cons_of_mem _ ht),
      steps_join (hsegs s (by simp))]
    simp

/-- A path that never leads up goes down from where it starts. -/
theorem place_of_noUp {p : Path} (hup : ".." ∉ p.names) (d : Disk) :
    d.place p = d.start p ++ p.names := by
  rw [place, foldl_stepTo_of_isName fun s hs => Path.isName_of_mem_names hup hs]

theorem place_of_isRooted {p : Path} (hp : p.IsRooted) (d : Disk) : d.place p = p.names := by
  rw [place_of_noUp hp.noUp, start, if_pos hp.absolute, List.nil_append]

/-- The place of a path that goes on from another one. -/
theorem place_of_names {p q : Path} {segs : List String} (hsegs : ∀ s ∈ segs, IsName s) (d : Disk)
    (habs : q.isAbsolute = p.isAbsolute) (hnames : q.names = p.names ++ segs) :
    d.place q = d.place p ++ segs := by
  rw [place, place, start, start, habs, hnames, List.foldl_append, foldl_stepTo_of_isName hsegs]

theorem place_foldl_join {segs : List String} (hsegs : ∀ s ∈ segs, IsName s) (d : Disk) (p : Path) :
    d.place (segs.foldl Path.join p) = d.place p ++ segs :=
  place_of_names hsegs d (Path.isAbsolute_foldl_join hsegs) (Path.names_foldl_join hsegs)

theorem place_congr {d d' : Disk} (h : d'.home = d.home) (p : Path) : d'.place p = d.place p := by
  rw [place, place, start, start, h]

/-! ## What a look-up tells -/

/-- What the end of a look-up says of the location to which segments lead. An error says that there
    is nothing, unless the segments lead up or end with a dot. -/
def Tells (d : Disk) (here : Location) (segs : List String) : Except Fault Place → Prop
  | .ok (.found loc e) => loc = segs.foldl stepTo here ∧ d.get? loc = some e
  | .ok (.absent parent name) =>
    parent ++ [name] = segs.foldl stepTo here ∧ d.get? (parent ++ [name]) = none ∧
      (∃ closed, d.get? parent = some (.dir closed)) ∧ name.utf8ByteSize ≤ nameLimit
  | .error _ =>
    ".." ∉ segs → segs.getLast? ≠ some "." → d.get? (segs.foldl stepTo here) = none

variable {d : Disk} {here : Location} {segs : List String} {follow : Bool} {p : Path}

/-- What is told from behind a first segment. -/
theorem Tells.cons {s : String} {r : Except Fault Place} (h : d.Tells (stepTo here s) segs r) :
    d.Tells here (s :: segs) r := by
  match r with
  | .ok (.found loc e) => exact h
  | .ok (.absent parent name) => exact h
  | .error f =>
    intro hup hlast
    refine h (fun hup' => hup (List.mem_cons_of_mem s hup')) fun hlast' => hlast ?_
    rw [List.getLast?_cons, hlast', Option.getD_some]

theorem IsEntryName.stepTo_eq {s : String} (hs : IsEntryName s) (here : Location) :
    stepTo here s = here ++ [s] := by
  rw [stepTo, if_neg hs.not_dot, if_neg hs.not_up]

theorem LeadsOn.stepTo_eq {s : String} {there : Location} (h : d.LeadsOn here s there) :
    stepTo here s = there := by
  cases h with
  | dot => rfl
  | up => rfl
  | down hs => exact hs.stepTo_eq here

/-- A plain name is that of an entry, if the system takes it. -/
theorem IsEntryName.of_isName {s : String} (hs : IsName s) (hfits : s.utf8ByteSize ≤ nameLimit) :
    IsEntryName s :=
  ⟨hs.2.1, hs.2.2.1, hfits⟩

/-- A plain name leads down. -/
theorem LeadsOn.of_isName {s : String} {there : Location} (h : d.LeadsOn here s there)
    (hs : IsName s) : ∃ closed, d.get? (here ++ [s]) = some (.dir closed) ∧ there = here ++ [s] := by
  cases h with
  | dot => exact absurd rfl hs.2.1
  | up => exact absurd rfl hs.2.2.1
  | down _ hget => exact ⟨_, hget, rfl⟩

/-- Links matter to a look-up only in what it does when it comes to one. -/
theorem walkFrom_eq_walkWith (d : Disk) (follow : Bool) (links : Nat) :
    ∃ onLink, ∀ here segs, d.walkFrom follow links here segs =
      d.walkWith follow onLink here segs := by
  cases links with
  | zero => exact ⟨_, fun _ _ => rfl⟩
  | succ links => exact ⟨_, fun _ _ => rfl⟩

namespace IsTree

theorem dropLast_dir (h : d.IsTree) (hhere : ∃ closed, d.get? here = some (.dir closed)) :
    ∃ closed, d.get? here.dropLast = some (.dir closed) := by
  obtain ⟨closed, hdir⟩ := hhere
  by_cases hroot : here.dropLast = here
  · exact ⟨closed, by rw [hroot, hdir]⟩
  · exact h.dir_above hdir (List.dropLast_prefix here) hroot

/-- A segment leads from a directory to a directory. -/
theorem leadsOn_dir {s : String} {there : Location} (h : d.IsTree) (hon : d.LeadsOn here s there)
    (hhere : ∃ closed, d.get? here = some (.dir closed)) :
    ∃ closed, d.get? there = some (.dir closed) := by
  cases hon with
  | dot => exact hhere
  | up => exact h.dropLast_dir hhere
  | down hs hget => exact ⟨_, hget⟩

/-- Following segments in a tree. Since nothing is a link, what to do with links does not matter. -/
theorem tells_walkWith (h : d.IsTree) {onLink : Location → Path → List String → Except Fault Place}
    (hhere : ∃ closed, d.get? here = some (.dir closed)) :
    d.Tells here segs (d.walkWith follow onLink here segs) := by
  induction segs generalizing here with
  | nil =>
    obtain ⟨closed, hdir⟩ := hhere
    simp [walkWith, Tells, hdir]
  | cons s rest ih =>
    unfold walkWith
    by_cases hdot : s = "."
    · rw [if_pos hdot]
      exact Tells.cons (by simpa [stepTo, hdot] using ih hhere)
    rw [if_neg hdot]
    by_cases hup : s = ".."
    · rw [if_pos hup]
      refine Tells.cons ?_
      simpa [stepTo, hdot, hup] using ih (h.dropLast_dir hhere)
    rw [if_neg hup]
    have hstep : stepTo here s = here ++ [s] := by simp [stepTo, hdot, hup]
    have hbelow : ".." ∉ s :: rest → here ++ [s] <+: (s :: rest).foldl stepTo here := by
      intro hup'
      rw [List.foldl_cons, hstep]
      exact prefix_foldl_stepTo (fun h => hup' (List.mem_cons_of_mem s h)) _
    by_cases hlong : s.utf8ByteSize > nameLimit
    · rw [if_pos hlong]
      intro hup' _
      cases hget : d.get? ((s :: rest).foldl stepTo here) with
      | none => rfl
      | some e =>
        have := h.fits _ e hget s ((hbelow hup').subset (by simp))
        omega
    rw [if_neg hlong]
    split
    · next hnone =>
      by_cases hrest : rest.isEmpty = true
      · rw [if_pos hrest]
        obtain rfl := List.isEmpty_iff.mp hrest
        exact ⟨by simp [hstep], hnone, hhere, by omega⟩
      · rw [if_neg hrest]
        exact fun hup' _ => h.none_below hnone (hbelow hup')
    · next closed hdir =>
      refine Tells.cons ?_
      rw [hstep]
      exact ih ⟨closed, hdir⟩
    · next bytes time hfile =>
      by_cases hrest : rest.isEmpty = true
      · rw [if_pos hrest]
        obtain rfl := List.isEmpty_iff.mp hrest
        exact ⟨by simp [hstep], hfile⟩
      · rw [if_neg hrest]
        intro hup' hlast
        have hne : rest ≠ [] := by simpa using hrest
        cases hget : d.get? ((s :: rest).foldl stepTo here) with
        | none => rfl
        | some e =>
          -- What is below a file would lie in a directory.
          have hstrict := foldl_stepTo_ne (fun h => hup' (List.mem_cons_of_mem s h)) hne
            (fun hl => hlast (by rw [List.getLast?_cons, hl, Option.getD_some])) (here ++ [s])
          rw [← hstep, ← List.foldl_cons, hstep] at hstrict
          obtain ⟨closed, hdir⟩ := h.dir_above hget (hbelow hup') hstrict
          rw [hfile] at hdir
          cases hdir
    · next target hlink => exact absurd (h.noLink _ _ hlink) (by simp [Entry.isLink])

theorem start_dir (h : d.IsTree) (p : Path) : ∃ closed, d.get? (d.start p) = some (.dir closed) := by
  unfold start
  split
  · exact ⟨false, rfl⟩
  · exact h.home

/-- A look-up of a path that the system takes tells what is at its place. -/
theorem tells_walkFrom (h : d.IsTree) (links : Nat) :
    d.Tells (d.start p) (steps p) (d.walkFrom follow links (d.start p) (steps p)) := by
  obtain ⟨onLink, hwalk⟩ := walkFrom_eq_walkWith d follow links
  rw [hwalk]
  exact h.tells_walkWith (h.start_dir p)

end IsTree

/-! ## Paths that the system takes -/

/-- Before it looks, the system finds only the empty path missing. -/
theorem accept_ne_missing (hne : p.text ≠ "") : accept p ≠ .error .missing := by
  unfold accept
  split
  · simp
  · rw [if_neg (by simpa using hne)]
    split <;> simp

theorem accept_of_append {a b : String} (h : accept ⟨a ++ b⟩ = .ok ()) (ha : a ≠ "") :
    accept ⟨a⟩ = .ok () := by
  unfold accept at h ⊢
  split at h
  · cases h
  · next hnul =>
    split at h
    · cases h
    · split at h
      · cases h
      · next hlen =>
        have hnul' : ¬ a.toList.contains '\x00' = true := by
          intro hmem
          exact hnul (by simpa using Or.inl (by simpa using hmem))
        have hlen' : ¬ a.utf8ByteSize ≥ pathLimit := by
          have hlen' : ¬ (a ++ b).utf8ByteSize ≥ pathLimit := hlen
          have : (a ++ b).utf8ByteSize = a.utf8ByteSize + b.utf8ByteSize := by simp
          omega
        rw [if_neg hnul', if_neg (by simpa using ha), if_neg hlen']

/-- The system takes a path when it takes one further down. -/
theorem accept_of_join {s : String} (hs : IsName s) (hne : p.text ≠ "")
    (h : accept (p.join s) = .ok ()) : accept p = .ok () := by
  obtain ⟨more, hmore⟩ := Path.text_join (p := p) hs.2.2.2
  have htext : p.join s = ⟨p.text ++ more⟩ := congrArg Path.mk hmore
  rw [htext] at h
  exact accept_of_append h hne

theorem accept_of_foldl_join {segs : List String} (hsegs : ∀ s ∈ segs, IsName s)
    (hne : p.text ≠ "") (h : accept (segs.foldl Path.join p) = .ok ()) : accept p = .ok () := by
  induction segs generalizing p with
  | nil => exact h
  | cons s rest ih =>
    have hs : IsName s := hsegs s (by simp)
    exact accept_of_join hs hne
      (ih (fun t ht => hsegs t (List.mem_cons_of_mem _ ht)) (Path.text_join_ne_empty hs) h)

theorem accept_of_locate {place : Place} (hl : d.locate follow p = .ok place) :
    accept p = .ok () := by
  unfold locate at hl
  split at hl
  · cases hl
  · assumption

theorem locate_eq_walkFrom (hacc : accept p = .ok ()) :
    d.locate follow p = d.walkFrom follow linkLimit (d.start p) (steps p) := by
  rw [locate, hacc, start]

theorem lookup_ok {place : Place} (hl : d.lookup follow p = .ok place) :
    d.locate (follow || p.endsWithSlash) p = .ok place := by
  unfold lookup at hl
  split at hl
  · next loc e hloc =>
    split at hl
    · cases hl
    · rw [hloc, hl]
  · exact hl

theorem locate_of_stat {loc : Location} {e : Entry} (hs : d.stat follow p = .ok (loc, e)) :
    d.locate (follow || p.endsWithSlash) p = .ok (.found loc e) := by
  unfold stat at hs
  split at hs
  · cases hs
  · cases hs
  · next loc' e' hlook =>
    obtain ⟨rfl, rfl⟩ := Prod.mk.inj (Except.ok.inj hs)
    exact lookup_ok hlook

theorem stat_of_isDir (h : d.isDir p = true) :
    ∃ loc closed, d.stat true p = .ok (loc, .dir closed) := by
  unfold isDir at h
  split at h
  · next loc e hs =>
    obtain ⟨closed, rfl⟩ := Entry.eq_dir_of_isDir h
    exact ⟨loc, closed, hs⟩
  · cases h

theorem stat_of_isFile (h : d.isFile p = true) :
    ∃ loc bytes time, d.stat true p = .ok (loc, .file bytes time) := by
  unfold isFile at h
  split at h
  · next loc e hs =>
    obtain ⟨bytes, time, rfl⟩ := Entry.eq_file_of_isFile h
    exact ⟨loc, bytes, time, hs⟩
  · cases h

theorem isDir_eq_any (d : Disk) (p : Path) :
    d.isDir p = (d.stat true p).toOption.any fun x => x.2.isDir := by
  unfold isDir
  cases d.stat true p <;> rfl

theorem isFile_eq_any (d : Disk) (p : Path) :
    d.isFile p = (d.stat true p).toOption.any fun x => x.2.isFile := by
  unfold isFile
  cases d.stat true p <;> rfl

/-! ## The ends of a look-up -/

namespace IsTree

theorem tells_locate (h : d.IsTree) (follow : Bool) (hacc : accept p = .ok ()) :
    d.Tells (d.start p) (steps p) (d.locate follow p) := by
  rw [locate_eq_walkFrom hacc]
  exact h.tells_walkFrom linkLimit

theorem locate_found {loc : Location} {e : Entry} (h : d.IsTree)
    (hl : d.locate follow p = .ok (.found loc e)) :
    loc = d.place p ∧ d.get? (d.place p) = some e := by
  have htells := h.tells_locate follow (accept_of_locate hl)
  rw [hl] at htells
  obtain ⟨rfl, hget⟩ := htells
  rw [place_eq_foldl_steps]
  exact ⟨rfl, hget⟩

theorem locate_absent {parent : Location} {name : String} (h : d.IsTree)
    (hl : d.locate follow p = .ok (.absent parent name)) :
    d.place p = parent ++ [name] ∧ d.get? (d.place p) = none ∧
      (∃ closed, d.get? parent = some (.dir closed)) ∧ name.utf8ByteSize ≤ nameLimit := by
  have htells := h.tells_locate follow (accept_of_locate hl)
  rw [hl] at htells
  obtain ⟨hplace, hnone, hdir, hname⟩ := htells
  rw [place_eq_foldl_steps, ← hplace]
  exact ⟨rfl, hnone, hdir, hname⟩

/-- Paths whose look-up fails in a tree only where nothing is. -/
theorem get_place_of_locate_error {f : Fault} (h : d.IsTree) (hp : p.IsRooted) (htrim : p.IsTrimmed)
    (hacc : accept p = .ok ()) (hl : d.locate follow p = .error f) : d.get? (d.place p) = none := by
  -- A fault tells that nothing is there, if the path neither leads up nor ends with a dot.
  have htells := h.tells_locate follow hacc
  rw [hl] at htells
  rw [place_eq_foldl_steps]
  refine htells ?_ ?_
  · intro hup
    exact hp.noUp (mem_names_of_mem_steps hup (by decide))
  · exact htrim.getLast_steps

theorem stat_ok {loc : Location} {e : Entry} (h : d.IsTree)
    (hs : d.stat follow p = .ok (loc, e)) : loc = d.place p ∧ d.get? (d.place p) = some e :=
  h.locate_found (locate_of_stat hs)

theorem stat_error {f : Fault} (h : d.IsTree) (hp : p.IsRooted) (htrim : p.IsTrimmed)
    (hacc : accept p = .ok ()) (hs : d.stat follow p = .error f) : d.get? (d.place p) = none := by
  unfold stat lookup at hs
  cases hl : d.locate (follow || p.endsWithSlash) p with
  | error f => exact h.get_place_of_locate_error hp htrim hacc hl
  | ok place =>
    cases place with
    | absent parent name => exact (h.locate_absent hl).2.1
    | found loc e =>
      -- Only the root ends with a slash, and it is a directory.
      exfalso
      obtain ⟨_, hget⟩ := h.locate_found hl
      have hdir : (p.endsWithSlash && !e.isDir) = false := by
        by_cases hroot : p.names = []
        · rw [place_of_isRooted hp, hroot, get_nil] at hget
          obtain rfl := Option.some.inj hget
          simp [Entry.isDir]
        · simp [htrim.endsWithSlash hroot]
      simp [hl, hdir] at hs

/-- A directory is found by its path. -/
theorem isDir_of_get {closed : Bool} (h : d.IsTree) (hp : p.IsRooted) (htrim : p.IsTrimmed)
    (hacc : accept p = .ok ()) (hget : d.get? (d.place p) = some (.dir closed)) :
    d.isDir p = true := by
  cases hs : d.stat true p with
  | error f =>
    rw [h.stat_error hp htrim hacc hs] at hget
    cases hget
  | ok x =>
    have hentry := (h.stat_ok hs).2
    rw [hget, Option.some_inj] at hentry
    simp [isDir_eq_any, hs, Except.toOption, ← hentry, Entry.isDir]

theorem exists_true (h : d.IsTree) (hex : d.exists? p = .ok true) :
    ∃ e, d.get? (d.place p) = some e := by
  unfold exists? at hex
  split at hex
  · next x hs => exact ⟨x.2, (h.stat_ok hs).2⟩
  · cases hex
  · cases hex

theorem exists_false (h : d.IsTree) (hp : p.IsRooted) (htrim : p.IsTrimmed)
    (hex : d.exists? p = .ok false) : accept p = .ok () ∧ d.get? (d.place p) = none := by
  unfold exists? at hex
  split at hex
  · cases hex
  · next hs =>
    have hacc : accept p = .ok () := by
      cases hacc : accept p with
      | ok u => rfl
      | error f =>
        simp only [stat, lookup, locate, hacc, Except.error.injEq] at hs
        exact absurd (hs ▸ hacc) (accept_ne_missing hp.text_ne_empty)
    exact ⟨hacc, h.stat_error hp htrim hacc hs⟩
  · cases hex

/-! ## Paths above a path that is found -/

/-- What is gone through on the way to a place is a directory. -/
theorem walkWith_append {onLink : Location → Path → List String → Except Fault Place}
    {rest : List String} {place : Place} (h : d.IsTree)
    (hhere : ∃ closed, d.get? here = some (.dir closed)) (hrest : rest ≠ [])
    (hw : d.walkWith follow onLink here (segs ++ rest) = .ok place) :
    ∃ closed, d.get? (segs.foldl stepTo here) = some (.dir closed) ∧ ∀ follow onLink,
      d.walkWith follow onLink here segs =
        .ok (.found (segs.foldl stepTo here) (.dir closed)) := by
  induction segs generalizing here with
  | nil =>
    obtain ⟨closed, hdir⟩ := hhere
    exact ⟨closed, hdir, fun _ _ => by simp [walkWith, hdir]⟩
  | cons s segs ih =>
    rw [List.foldl_cons]
    -- With more to come the way does not end at the segment.
    cases comesTo_of_walkWith (List.cons_append ▸ hw) with
    | on hon hgo =>
      obtain ⟨closed, hdir, hall⟩ := ih (h.leadsOn_dir hon hhere) hgo
      rw [hon.stepTo_eq]
      refine ⟨closed, hdir, fun follow onLink => ?_⟩
      rw [hon.walkWith, hall]
    | absent _ _ hend => simp [hrest] at hend
    | file _ _ hend => simp [hrest] at hend
    | link _ _ hend => simp [hrest] at hend
    | through _ hget => exact absurd (h.noLink _ _ hget) (by simp [Entry.isLink])

/-- A path above one that is looked up without fault leads to a directory. -/
theorem stat_above {place : Place} (h : d.IsTree) (hsegs : ∀ s ∈ segs, IsName s) (hne : segs ≠ [])
    (htext : p.text ≠ "") (hl : d.locate follow (segs.foldl Path.join p) = .ok place) :
    ∃ closed, ∀ follow, d.stat follow p = .ok (d.place p, .dir closed) := by
  have hacc : accept p = .ok () := accept_of_foldl_join hsegs htext (accept_of_locate hl)
  rw [locate_eq_walkFrom (accept_of_locate hl), steps_foldl_join hsegs, start,
    Path.isAbsolute_foldl_join hsegs, ← start] at hl
  obtain ⟨onLink, hwalk⟩ := walkFrom_eq_walkWith d follow linkLimit
  rw [hwalk] at hl
  -- The way to the path further down passes through this one.
  obtain ⟨closed, _, hfound⟩ := h.walkWith_append (h.start_dir p) hne hl
  have hlocate : ∀ follow, d.locate follow p = .ok (.found (d.place p) (.dir closed)) := by
    intro follow
    obtain ⟨onLink, hwalk⟩ := walkFrom_eq_walkWith d follow linkLimit
    rw [locate_eq_walkFrom hacc, hwalk, hfound, place_eq_foldl_steps]
  refine ⟨closed, fun follow => ?_⟩
  simp [stat, lookup, hlocate, Entry.isDir]

/-- What is above a directory is a directory. -/
theorem dir_of_names {q : Path} (h : d.IsTree) (hp : d.isDir p = true)
    (habs : q.isAbsolute = p.isAbsolute) (hnames : q.names <+: p.names) :
    ∃ closed, d.get? (d.place q) = some (.dir closed) := by
  have hstart : d.start q = d.start p := by rw [start, start, habs]
  obtain ⟨loc, closed, hs⟩ := stat_of_isDir hp
  have hdir := (h.stat_ok hs).2
  obtain ⟨more, hmore⟩ := hnames
  by_cases hnil : more = []
  · refine ⟨closed, ?_⟩
    rw [place, hstart, ← List.append_nil q.names, ← hnil, hmore]
    exact hdir
  · -- The segments split where the names do.
    have hfilter : (steps p).filter (· ≠ ".") = q.names ++ more := by
      rw [hmore, names_eq_filter_steps]
    obtain ⟨l, r, hsteps, hl, hr⟩ := List.filter_eq_append_iff.mp hfilter
    have hr' : r ≠ [] := by
      rintro rfl
      exact hnil hr.symm
    have hlocate := locate_of_stat hs
    rw [locate_eq_walkFrom (accept_of_locate hlocate), hsteps] at hlocate
    obtain ⟨onLink, hwalk⟩ := walkFrom_eq_walkWith d (true || p.endsWithSlash) linkLimit
    rw [hwalk] at hlocate
    obtain ⟨closed', hdir', _⟩ := h.walkWith_append (h.start_dir p) hr' hlocate
    refine ⟨closed', ?_⟩
    rw [place, hstart, ← hl, foldl_stepTo_filter, hdir']

/-! ## The same place on another disk -/

/-- A way down finds the same on a disk that has the same entries on it. -/
theorem walkWith_of_agree {onLink onLink' : Location → Path → List String → Except Fault Place}
    {loc : Location} {e : Entry} {d' : Disk} (h : d.IsTree) (hup : ".." ∉ segs)
    (hw : d.walkWith follow onLink here segs = .ok (.found loc e))
    (hagree : ∀ l, l <+: segs.foldl stepTo here → d'.get? l = d.get? l) :
    d'.walkWith follow onLink' here segs = .ok (.found loc e) := by
  induction segs generalizing here with
  | nil =>
    unfold walkWith at hw ⊢
    rw [hagree here List.prefix_rfl]
    exact hw
  | cons s rest ih =>
    have hup' : ".." ∉ rest := fun hmem => hup (List.mem_cons_of_mem s hmem)
    rw [List.foldl_cons] at hagree
    -- The next place is on the way, so both disks have the same there.
    have hsame : IsEntryName s → d'.get? (here ++ [s]) = d.get? (here ++ [s]) := fun hs =>
      hagree _ (hs.stepTo_eq here ▸ prefix_foldl_stepTo hup' _)
    cases comesTo_of_walkWith hw with
    | @on there hon hgo =>
      rw [hon.stepTo_eq] at hagree
      have hon' : d'.LeadsOn here s there := by
        cases hon with
        | dot => exact .dot
        | up => exact .up
        | down hs hget => exact .down hs ((hsame hs).trans hget)
      rw [hon'.walkWith]
      exact ih hup' hgo hagree
    | absent _ _ _ hplace => cases hplace
    | file hs hget hend hplace =>
      subst hend
      rw [walkWith_entry hs, hsame hs, hget, hplace]
      rfl
    | link _ hget => exact absurd (h.noLink _ _ hget) (by simp [Entry.isLink])
    | through _ hget => exact absurd (h.noLink _ _ hget) (by simp [Entry.isLink])

/-- What a path without `..` leads to is found on any disk that has the same on the way. -/
theorem stat_of_agree {loc : Location} {e : Entry} {d' : Disk} (h : d.IsTree) (hp : p.IsRooted)
    (hs : d.stat follow p = .ok (loc, e)) (hagree : ∀ l, l <+: loc → d'.get? l = d.get? l) :
    d'.stat follow p = .ok (loc, e) := by
  have hlocate := locate_of_stat hs
  have hloc : loc = (steps p).foldl stepTo (d.start p) :=
    (h.locate_found hlocate).1.trans (place_eq_foldl_steps d p)
  have hup : ".." ∉ steps p := fun hmem => hp.noUp (mem_names_of_mem_steps hmem (by decide))
  have hacc := accept_of_locate hlocate
  have hstart : d'.start p = d.start p := by
    rw [start, start, if_pos hp.absolute, if_pos hp.absolute]
  have hsame : d'.locate (follow || p.endsWithSlash) p = .ok (.found loc e) := by
    rw [locate_eq_walkFrom hacc, hstart]
    rw [locate_eq_walkFrom hacc] at hlocate
    obtain ⟨onLink, hwalk⟩ := walkFrom_eq_walkWith d (follow || p.endsWithSlash) linkLimit
    obtain ⟨onLink', hwalk'⟩ := walkFrom_eq_walkWith d' (follow || p.endsWithSlash) linkLimit
    rw [hwalk] at hlocate
    rw [hwalk']
    exact h.walkWith_of_agree hup hlocate (hloc ▸ hagree)
  unfold stat lookup at hs ⊢
  rw [locate_of_stat hs] at hs
  rw [hsame]
  exact hs

/-- Where a path leads is told by what is at its place. -/
theorem stat_congr {d' : Disk} (h : d.IsTree) (h' : d'.IsTree) (hp : p.IsRooted)
    (htrim : p.IsTrimmed) (hsame : d'.get? p.names = d.get? p.names) :
    (d'.stat follow p).toOption = (d.stat follow p).toOption := by
  have hplace : d'.place p = d.place p := by rw [place_of_isRooted hp, place_of_isRooted hp]
  rw [← place_of_isRooted hp d] at hsame
  cases hacc : accept p with
  | error f => simp [stat, lookup, locate, hacc]
  | ok u =>
    cases hs : d.stat follow p with
    | error f =>
      have hnone := h.stat_error hp htrim hacc hs
      cases hs' : d'.stat follow p with
      | error f' => rfl
      | ok x =>
        have hget := (h'.stat_ok hs').2
        rw [hplace, hsame, hnone] at hget
        cases hget
    | ok x =>
      obtain ⟨hloc, hget⟩ := h.stat_ok hs
      cases hs' : d'.stat follow p with
      | error f' =>
        have hnone := h'.stat_error hp htrim hacc hs'
        rw [hplace, hsame, hget] at hnone
        cases hnone
      | ok x' =>
        obtain ⟨hloc', hget'⟩ := h'.stat_ok hs'
        rw [hplace, hsame, hget] at hget'
        have hx : x' = x := Prod.ext ((hloc'.trans hplace).trans hloc.symm)
          (Option.some.inj hget').symm
        rw [hx]

theorem isDir_congr {d' : Disk} (h : d.IsTree) (h' : d'.IsTree) (hp : p.IsRooted)
    (htrim : p.IsTrimmed) (hsame : d'.get? p.names = d.get? p.names) : d'.isDir p = d.isDir p := by
  rw [isDir_eq_any, isDir_eq_any, h.stat_congr h' hp htrim hsame]

theorem isFile_congr {d' : Disk} (h : d.IsTree) (h' : d'.IsTree) (hp : p.IsRooted)
    (htrim : p.IsTrimmed) (hsame : d'.get? p.names = d.get? p.names) : d'.isFile p = d.isFile p := by
  rw [isFile_eq_any, isFile_eq_any, h.stat_congr h' hp htrim hsame]

end IsTree

end Disk

end RunCache
