import RunCache.Proofs.Disk.Tree
import RunCache.Proofs.Disk.Way

/-! # Disks that grow

    While files are written, nothing goes away: directories and links stay,
    files stay files, and what is new is a directory or a file.  So a path
    that has led somewhere goes on leading there, also by way of links.

    * **`Disk.Grows`**: a later disk in this sense, and where it may have
      new directories and new or changed files.
    * **`makeDir_grows`**, **`writeFile_grows`**: the two changes.
    * **`Grows.locate`**: what a look-up finds later. -/

namespace RunCache

namespace Disk

/-! ## Later disks -/

/-- What may become of a location: it stays as it is, or, where that is allowed, it becomes a
    directory or a file. -/
inductive Later (dirs files : Prop) : Option Entry → Option Entry → Prop
  | same (o : Option Entry) : Later dirs files o o
  | made (h : dirs) : Later dirs files none (some (.dir false))
  | wrote {o : Option Entry} (h : files) (bytes : ByteArray) (time : Int)
      (ho : o = none ∨ ∃ bytes time, o = some (.file bytes time)) :
      Later dirs files o (some (.file bytes time))

/-- A later disk that still has all that was there before, with directories and files made only at
    given locations. -/
structure Grows (dirs files : Location → Prop) (d d' : Disk) : Prop where
  home : d'.home = d.home
  later : ∀ loc, Later (dirs loc) (files loc) (d.get? loc) (d'.get? loc)

theorem Later.trans {dirs files : Prop} {a b c : Option Entry} (h : Later dirs files a b)
    (h' : Later dirs files b c) : Later dirs files a c := by
  cases h' with
  | same => exact h
  | made hdirs =>
    cases h with
    | same => exact .made hdirs
  | wrote hfiles bytes time hb =>
    refine .wrote hfiles bytes time ?_
    cases h with
    | same => exact hb
    | made => simp at hb
    | wrote _ _ _ ha => exact ha

theorem Later.mono {dirs files dirs' files' : Prop} {a b : Option Entry} (h : Later dirs files a b)
    (hdirs : dirs → dirs') (hfiles : files → files') : Later dirs' files' a b := by
  cases h with
  | same => exact .same _
  | made h => exact .made (hdirs h)
  | wrote h bytes time ho => exact .wrote (hfiles h) bytes time ho

variable {dirs files dirs' files' : Location → Prop} {d d' d'' : Disk} {follow : Bool} {p : Path}
  {loc : Location}

namespace Grows

theorem refl (d : Disk) : Grows dirs files d d := ⟨rfl, fun _ => .same _⟩

theorem trans (h : Grows dirs files d d') (h' : Grows dirs files d' d'') :
    Grows dirs files d d'' :=
  ⟨h'.home.trans h.home, fun loc => (h.later loc).trans (h'.later loc)⟩

theorem mono (h : Grows dirs files d d') (hdirs : ∀ loc, dirs loc → dirs' loc)
    (hfiles : ∀ loc, files loc → files' loc) : Grows dirs' files' d d' :=
  ⟨h.home, fun loc => (h.later loc).mono (hdirs loc) (hfiles loc)⟩

theorem dir {closed : Bool} (h : Grows dirs files d d') (hget : d.get? loc = some (.dir closed)) :
    d'.get? loc = some (.dir closed) := by
  have hlater := h.later loc
  rw [hget] at hlater
  generalize d'.get? loc = o at hlater
  cases hlater with
  | same => rfl
  | wrote _ _ _ ho => simp at ho

theorem link {target : Path} (h : Grows dirs files d d') (hget : d.get? loc = some (.link target)) :
    d'.get? loc = some (.link target) := by
  have hlater := h.later loc
  rw [hget] at hlater
  generalize d'.get? loc = o at hlater
  cases hlater with
  | same => rfl
  | wrote _ _ _ ho => simp at ho

theorem file {bytes : ByteArray} {time : Int} (h : Grows dirs files d d')
    (hget : d.get? loc = some (.file bytes time)) :
    ∃ bytes time, d'.get? loc = some (.file bytes time) := by
  have hlater := h.later loc
  rw [hget] at hlater
  generalize d'.get? loc = o at hlater
  cases hlater with
  | same => exact ⟨bytes, time, rfl⟩
  | wrote _ bytes time _ => exact ⟨bytes, time, rfl⟩

/-- What is new is no link. -/
theorem new (h : Grows dirs files d d') (hget : d.get? loc = none) :
    d'.get? loc = none ∨ (dirs loc ∧ d'.get? loc = some (.dir false)) ∨
      (files loc ∧ ∃ bytes time, d'.get? loc = some (.file bytes time)) := by
  have hlater := h.later loc
  rw [hget] at hlater
  generalize d'.get? loc = o at hlater
  cases hlater with
  | same => exact .inl rfl
  | made hdirs => exact .inr (.inl ⟨hdirs, rfl⟩)
  | wrote hfiles bytes time _ => exact .inr (.inr ⟨hfiles, bytes, time, rfl⟩)

/-- What is there stays as it is where no file is written. -/
theorem kept {e : Entry} (h : Grows dirs files d d') (hget : d.get? loc = some e)
    (hnot : ¬ files loc) : d'.get? loc = some e := by
  have hlater := h.later loc
  rw [hget] at hlater
  generalize d'.get? loc = o at hlater
  cases hlater with
  | same => rfl
  | wrote hfiles => exact absurd hfiles hnot

/-- What is missing later was missing before. -/
theorem missing (h : Grows dirs files d d') (hget : d'.get? loc = none) : d.get? loc = none := by
  have hlater := h.later loc
  rw [hget] at hlater
  generalize d.get? loc = o at hlater
  cases hlater with
  | same => rfl

/-- A directory was there before or is new. -/
theorem dir_before {closed : Bool} (h : Grows dirs files d d')
    (hget : d'.get? loc = some (.dir closed)) :
    d.get? loc = some (.dir closed) ∨ (dirs loc ∧ d.get? loc = none) := by
  have hlater := h.later loc
  rw [hget] at hlater
  generalize d.get? loc = o at hlater
  cases hlater with
  | same => exact .inl rfl
  | made hdirs => exact .inr ⟨hdirs, rfl⟩

/-- A file was there before with its bytes or has been written since. -/
theorem file_before {bytes : ByteArray} {time : Int} (h : Grows dirs files d d')
    (hget : d'.get? loc = some (.file bytes time)) :
    d.get? loc = some (.file bytes time) ∨
      (files loc ∧ (d.get? loc = none ∨ ∃ bytes time, d.get? loc = some (.file bytes time))) := by
  have hlater := h.later loc
  rw [hget] at hlater
  generalize d.get? loc = o at hlater
  cases hlater with
  | same => exact .inl rfl
  | wrote hfiles _ _ ho => exact .inr ⟨hfiles, ho⟩

end Grows

/-! ## Looking up later -/

/-- What a look-up comes to later, where it came to a place before. -/
def seen (d : Disk) : Place → Place
  | .found loc _ => .found loc ((d.get? loc).getD (.dir false))
  | .absent parent name =>
    match d.get? (parent ++ [name]) with
    | none => .absent parent name
    | some e => .found (parent ++ [name]) e

/-- A segment that has led on goes on leading to the same directory. -/
theorem Grows.leadsOn {here there : Location} {s : String} (h : Grows dirs files d d')
    (hon : d.LeadsOn here s there) : d'.LeadsOn here s there := by
  cases hon with
  | dot => exact .dot
  | up => exact .up
  | down hs hget => exact .down hs (h.dir hget)

theorem Grows.walkWith {here : Location} {segs : List String} {place : Place}
    {onLink onLink' : Location → Path → List String → Except Fault Place} (h : Grows dirs files d d')
    (hlink : ∀ here target rest place, onLink here target rest = .ok place →
      onLink' here target rest = .ok (seen d' place))
    (hw : d.walkWith follow onLink here segs = .ok place) :
    d'.walkWith follow onLink' here segs = .ok (seen d' place) := by
  induction segs generalizing here with
  | nil =>
    unfold Disk.walkWith at hw ⊢
    obtain rfl := Except.ok.inj hw
    rfl
  | cons s rest ih =>
    cases comesTo_of_walkWith hw with
    | on hon hrest =>
      rw [(h.leadsOn hon).walkWith]
      exact ih hrest
    | absent hs hget hrest hplace =>
      subst hrest hplace
      rw [walkWith_entry hs]
      -- What was missing is missing still, or it has become a directory or a file.
      rcases h.new hget with hnew | ⟨_, hnew⟩ | ⟨_, bytes, time, hnew⟩ <;>
        simp [seen, hnew, Disk.walkWith]
    | file hs hget hrest hplace =>
      subst hrest hplace
      -- A file may have other bytes, but a way ends there all the same.
      obtain ⟨bytes', time', hlater⟩ := h.file hget
      simp [walkWith_entry hs, seen, hlater]
    | link hs hget hrest hfollow hplace =>
      subst hrest hfollow hplace
      simp [walkWith_entry hs, seen, h.link hget]
    | through hs hget hgo hw =>
      rw [walkWith_link hs (h.link hget) hgo]
      exact hlink _ _ _ _ hw

theorem Grows.walkFrom {links : Nat} {here : Location} {segs : List String} {place : Place}
    (h : Grows dirs files d d') (hw : d.walkFrom follow links here segs = .ok place) :
    d'.walkFrom follow links here segs = .ok (seen d' place) := by
  induction links generalizing here segs place with
  | zero => exact h.walkWith (fun _ _ _ _ hlink => by cases hlink) hw
  | succ links ih => exact h.walkWith (fun _ _ _ _ hlink => ih hlink) hw

/-- A path that has led somewhere goes on leading there. -/
theorem Grows.locate {place : Place} (h : Grows dirs files d d') (hl : d.locate follow p = .ok place) :
    d'.locate follow p = .ok (seen d' place) := by
  unfold Disk.locate at hl ⊢
  split at hl
  · cases hl
  · rw [h.home]
    exact h.walkFrom hl

/-- What a look-up comes to is on the disk. -/
theorem seen_self {place : Place} (hl : d.locate follow p = .ok place) : seen d place = place := by
  -- A disk is a later one of itself.
  have hgrows : Grows (fun _ => False) (fun _ => False) d d := .refl d
  have hseen := hgrows.locate hl
  rw [hl] at hseen
  exact (Except.ok.inj hseen).symm

theorem get_of_locate_absent {parent : Location} {name : String}
    (hl : d.locate follow p = .ok (.absent parent name)) : d.get? (parent ++ [name]) = none := by
  have hseen := seen_self hl
  simp only [seen] at hseen
  split at hseen
  · assumption
  · cases hseen

theorem get_of_locate_file {bytes : ByteArray} {time : Int}
    (hl : d.locate follow p = .ok (.found loc (.file bytes time))) :
    d.get? loc = some (.file bytes time) := by
  have hseen := seen_self hl
  simp only [seen, Place.found.injEq, true_and] at hseen
  cases hget : d.get? loc with
  | none => simp [hget] at hseen
  | some e => simpa [hget] using hseen

/-! ## The two changes -/

theorem put_grows {e : Entry} (hlater : Later (dirs loc) (files loc) (d.get? loc) (some e)) :
    Grows dirs files d (d.put loc e) := by
  refine ⟨put_home d loc e, fun l => ?_⟩
  by_cases hl : l = loc
  · subst hl
    by_cases hroot : l = []
    · subst hroot
      exact .same _
    · rwa [get_put_self hroot]
  · rw [get_put_of_ne hl]
    exact .same _

theorem create_ok {parent : Location} {name : String} {e : Entry}
    (h : d.create parent name e = .ok d') :
    d.get? parent = some (.dir false) ∧ d' = d.put (parent ++ [name]) e := by
  unfold create at h
  split at h
  · next hparent => exact ⟨hparent, (Except.ok.inj h).symm⟩
  · cases h

theorem create_of_dir {parent : Location} {name : String} {e : Entry} {closed : Bool}
    (hparent : d.get? parent = some (.dir closed)) :
    d.create parent name e =
      if closed then .error .missing else .ok (d.put (parent ++ [name]) e) := by
  unfold create
  rw [hparent]
  cases closed <;> rfl

/-- Making a directory succeeds where a look-up comes to a missing name in an open directory. -/
theorem makeDir_ok (h : d.makeDir p = .ok d') :
    ∃ parent name, d.locate false p = .ok (.absent parent name) ∧
      d.get? parent = some (.dir false) ∧ d' = d.put (parent ++ [name]) (.dir false) := by
  unfold makeDir at h
  split at h
  · cases h
  · cases h
  · next parent name hl =>
    obtain ⟨hparent, hd'⟩ := create_ok h
    exact ⟨parent, name, hl, hparent, hd'⟩

/-- Writing a file succeeds where a look-up comes to a file, or to a missing name in an open
    directory. -/
theorem writeFile_ok {now : Int} {bytes : ByteArray} (h : d.writeFile now p bytes = .ok d') :
    p.endsWithSlash = false ∧ ∃ loc, d' = d.put loc (.file bytes now) ∧
      ((∃ old time, d.locate true p = .ok (.found loc (.file old time))) ∨
        ∃ parent name, loc = parent ++ [name] ∧ d.locate true p = .ok (.absent parent name) ∧
          d.get? parent = some (.dir false)) := by
  unfold writeFile at h
  split at h
  · cases h
  · next place hl =>
    split at h
    · cases h
    · next hslash =>
      refine ⟨by simpa using hslash, ?_⟩
      split at h
      · next loc old time =>
        exact ⟨loc, (Except.ok.inj h).symm, .inl ⟨old, time, hl⟩⟩
      · cases h
      · next parent name =>
        obtain ⟨hparent, hd'⟩ := create_ok h
        exact ⟨_, hd', .inr ⟨parent, name, rfl, hl, hparent⟩⟩

theorem makeDir_grows (h : d.makeDir p = .ok d')
    (hdirs : ∀ parent name, d.locate false p = .ok (.absent parent name) →
      dirs (parent ++ [name])) : Grows dirs files d d' := by
  obtain ⟨parent, name, hl, _, rfl⟩ := makeDir_ok h
  exact put_grows (by rw [get_of_locate_absent hl]; exact .made (hdirs _ _ hl))

theorem writeFile_grows {now : Int} {bytes : ByteArray} (h : d.writeFile now p bytes = .ok d')
    (hfound : ∀ loc e, d.locate true p = .ok (.found loc e) → files loc)
    (habsent : ∀ parent name, d.locate true p = .ok (.absent parent name) →
      files (parent ++ [name])) : Grows dirs files d d' := by
  obtain ⟨_, loc, rfl, ⟨old, time, hl⟩ | ⟨parent, name, rfl, hl, _⟩⟩ := writeFile_ok h
  · exact put_grows (.wrote (hfound _ _ hl) _ _ (.inr ⟨old, time, get_of_locate_file hl⟩))
  · exact put_grows (.wrote (habsent _ _ hl) _ _ (.inl (get_of_locate_absent hl)))

/-! ## Files -/

theorem stat_file_iff {bytes : ByteArray} {time : Int} :
    d.stat true p = .ok (loc, .file bytes time) ↔
      p.endsWithSlash = false ∧ d.locate true p = .ok (.found loc (.file bytes time)) := by
  unfold stat lookup
  rw [Bool.true_or]
  cases hl : d.locate true p with
  | error f => simp
  | ok place =>
    cases place with
    | absent parent name => simp
    | found l e =>
      by_cases hslash : p.endsWithSlash = true
      · -- With a slash at its end the path leads to a directory.
        cases e <;> simp [hslash, Entry.isDir]
      · simp [hslash]

/-- A file is found under the path it has been found under before. -/
theorem Grows.stat_file {bytes : ByteArray} {time : Int} (h : Grows dirs files d d')
    (hs : d.stat true p = .ok (loc, .file bytes time)) :
    ∃ bytes time, d'.get? loc = some (.file bytes time) ∧
      d'.stat true p = .ok (loc, .file bytes time) := by
  obtain ⟨hslash, hl⟩ := stat_file_iff.mp hs
  obtain ⟨bytes', time', hget⟩ := h.file (get_of_locate_file hl)
  refine ⟨bytes', time', hget, stat_file_iff.mpr ⟨hslash, ?_⟩⟩
  have hseen := h.locate hl
  rwa [seen, hget, Option.getD_some] at hseen

theorem get_of_stat_file {bytes : ByteArray} {time : Int}
    (hs : d.stat true p = .ok (loc, .file bytes time)) : d.get? loc = some (.file bytes time) :=
  get_of_locate_file (stat_file_iff.mp hs).2

/-- A file that has been written is found with its bytes. -/
theorem stat_of_writeFile {now : Int} {bytes : ByteArray}
    (h : d.writeFile now p bytes = .ok d') :
    ∃ loc, d' = d.put loc (.file bytes now) ∧ d'.stat true p = .ok (loc, .file bytes now) := by
  have hgrows : Grows (fun _ => True) (fun _ => True) d d' :=
    writeFile_grows h (fun _ _ _ => trivial) fun _ _ _ => trivial
  obtain ⟨hslash, loc, rfl, ⟨old, time, hl⟩ | ⟨parent, name, rfl, hl, _⟩⟩ := writeFile_ok h
  · have hne : loc ≠ [] := by
      rintro rfl
      cases get_of_locate_file hl
    have hseen := hgrows.locate hl
    rw [seen, get_put_self hne, Option.getD_some] at hseen
    exact ⟨loc, rfl, stat_file_iff.mpr ⟨hslash, hseen⟩⟩
  · have hseen := hgrows.locate hl
    have hget : (d.put (parent ++ [name]) (.file bytes now)).get? (parent ++ [name]) =
        some (.file bytes now) := get_put_self (by simp)
    simp only [seen, hget] at hseen
    exact ⟨_, rfl, stat_file_iff.mpr ⟨hslash, hseen⟩⟩

end Disk

end RunCache
