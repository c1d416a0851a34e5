import RunCache.Proofs.Disk.Below

/-! # Below a directory that links may lead to

    A path may come to its directory by way of links.  Behind the directory
    a look-up goes down as in a tree, if what lies there is one.

    * **`walkFrom_through`**: a look-up behind the directory it comes to.
    * **`walkFrom_unfollowed`**: a look-up that leaves the last link alone.
    * **`Disk.LeadsTo`**: a path that leads to a directory with a tree
      below it.
    * **`LeadsTo.stat_below`**, **`LeadsTo.get_of_stat`**: look-ups below
      it. -/

namespace RunCache

namespace Disk

variable {d : Disk} {root p : Path} {loc here : Location} {segs more : List String}
  {closed follow : Bool} {e : Entry}
  {onLink onLink' : Location → Path → List String → Except Fault Place}

/-! ## Behind links -/

/-- Where a way comes to a directory, a longer way goes on from there. A link on the way is followed
    by both of them, since more stands behind it. -/
theorem walkWith_through (hmore : more ≠ [])
    (hlink : ∀ here target rest, onLink here target rest = .ok (.found loc (.dir closed)) →
      ∃ onLink'', onLink' here target (rest ++ more) = d.walkWith follow onLink'' loc more)
    (hw : d.walkWith true onLink here segs = .ok (.found loc (.dir closed))) :
    ∃ onLink'', d.walkWith follow onLink' here (segs ++ more) =
      d.walkWith follow onLink'' loc more := by
  induction segs generalizing here with
  | nil =>
    unfold walkWith at hw
    obtain ⟨rfl, _⟩ := Place.found.inj (Except.ok.inj hw)
    exact ⟨onLink', rfl⟩
  | cons s rest ih =>
    rw [List.cons_append]
    cases comesTo_of_walkWith hw with
    | on hon hgo =>
      rw [hon.walkWith]
      exact ih hgo
    | absent _ _ _ hplace => cases hplace
    | file _ _ _ hplace => cases hplace
    | link _ _ _ hfollow => cases hfollow
    | through hs hget _ hgo =>
      rw [walkWith_link hs hget fun _ => List.append_ne_nil_of_right_ne_nil rest hmore]
      exact hlink _ _ _ hgo

theorem walkFrom_through {links : Nat} (hmore : more ≠ [])
    (hw : d.walkFrom true links here segs = .ok (.found loc (.dir closed))) :
    ∃ onLink, d.walkFrom follow links here (segs ++ more) =
      d.walkWith follow onLink loc more := by
  induction links generalizing here segs with
  | zero =>
    unfold walkFrom at hw ⊢
    exact walkWith_through hmore (fun _ _ _ h => by cases h) hw
  | succ links ih =>
    -- Behind a link the way starts anew, with one link less to follow.
    unfold walkFrom at hw ⊢
    refine walkWith_through hmore (fun here target rest h => ?_) hw
    rw [← List.append_assoc]
    exact ih h

/-- A way on which the last link is left alone comes to the same place, or ends at that link. -/
theorem walkWith_unfollowed
    (hlink : ∀ here target rest, onLink here target rest = .ok (.found loc e) →
      onLink' here target rest = .ok (.found loc e) ∨
        ∃ l target', onLink' here target rest = .ok (.found l (.link target')))
    (hw : d.walkWith true onLink here segs = .ok (.found loc e)) :
    d.walkWith false onLink' here segs = .ok (.found loc e) ∨
      ∃ l target, d.walkWith false onLink' here segs = .ok (.found l (.link target)) := by
  induction segs generalizing here with
  | nil => exact .inl hw
  | cons s rest ih =>
    cases comesTo_of_walkWith hw with
    | on hon hgo =>
      rw [hon.walkWith]
      exact ih hgo
    | absent _ _ _ hplace => cases hplace
    | file hs hget hrest hplace =>
      subst hrest
      exact .inl (by rw [walkWith_entry hs, hget, hplace]; rfl)
    | link _ _ _ hfollow => cases hfollow
    | @through target hs hget _ hgo =>
      by_cases hrest : rest = []
      · exact .inr ⟨here ++ [s], target, by simp [walkWith_entry hs, hget, hrest]⟩
      · rw [walkWith_link hs hget fun _ => hrest]
        exact hlink _ _ _ hgo

theorem walkFrom_unfollowed {links : Nat}
    (hw : d.walkFrom true links here segs = .ok (.found loc e)) :
    d.walkFrom false links here segs = .ok (.found loc e) ∨
      ∃ l target, d.walkFrom false links here segs = .ok (.found l (.link target)) := by
  induction links generalizing here segs with
  | zero =>
    unfold walkFrom at hw ⊢
    exact walkWith_unfollowed (fun _ _ _ h => by cases h) hw
  | succ links ih =>
    unfold walkFrom at hw ⊢
    exact walkWith_unfollowed (fun _ _ _ h => ih h) hw

/-- What a path leads to it leads to as well where its last link is left alone, unless that link is
    what it leads to then. -/
theorem stat_unfollowed (hs : d.stat true p = .ok (loc, e)) :
    d.stat false p = .ok (loc, e) ∨ ∃ l target, d.stat false p = .ok (l, .link target) := by
  by_cases hslash : p.endsWithSlash = true
  · -- A slash at the end has the last link followed in any case.
    refine .inl ?_
    unfold stat lookup at hs ⊢
    simpa only [hslash, Bool.or_true] using hs
  · have hslash' : p.endsWithSlash = false := by simpa using hslash
    have hl := locate_of_stat hs
    have hacc := accept_of_locate hl
    rw [hslash', Bool.or_false, locate_eq_walkFrom hacc] at hl
    unfold stat
    rw [lookup_of_not_slash hslash', locate_eq_walkFrom hacc]
    rcases walkFrom_unfollowed hl with hw | ⟨l, target, hw⟩
    · exact .inl (by rw [hw])
    · exact .inr ⟨l, target, by rw [hw]⟩

/-! ## Down from a directory -/

/-- What names lead to lies under them. -/
theorem IsTreeBelow.get_of_walkWith {l : Location} (h : d.IsTreeBelow here)
    (hhere : ∃ closed, d.get? here = some (.dir closed)) (hsegs : ∀ s ∈ segs, IsName s)
    (hw : d.walkWith follow onLink here segs = .ok (.found l e)) :
    l = here ++ segs ∧ d.get? (here ++ segs) = some e := by
  induction segs generalizing here with
  | nil =>
    obtain ⟨closed, hdir⟩ := hhere
    unfold walkWith at hw
    obtain ⟨rfl, rfl⟩ := Place.found.inj (Except.ok.inj hw)
    rw [List.append_nil, hdir]
    exact ⟨rfl, rfl⟩
  | cons s rest ih =>
    have hname := hsegs s (by simp)
    cases comesTo_of_walkWith hw with
    | on hon hgo =>
      obtain ⟨closed, hget, rfl⟩ := hon.of_isName hname
      rw [List.append_cons here s rest]
      exact ih (h.below [s]) ⟨closed, hget⟩ (fun t ht => hsegs t (List.mem_cons_of_mem s ht)) hgo
    | absent _ _ _ hplace => cases hplace
    | file _ hget hrest hplace =>
      obtain ⟨rfl, rfl⟩ := Place.found.inj hplace
      rw [hrest]
      exact ⟨rfl, hget⟩
    | link _ hget => exact absurd (h.noLink _ _ hget) (by simp [Entry.isLink])
    | through _ hget => exact absurd (h.noLink _ _ hget) (by simp [Entry.isLink])

/-- A path that leads, by way of links or not, to a directory with a tree below it. -/
structure LeadsTo (d : Disk) (root : Path) (loc : Location) : Prop where
  tree : d.IsTreeBelow loc
  found : ∃ closed, d.get? loc = some (.dir closed) ∧ d.stat true root = .ok (loc, .dir closed)

namespace LeadsTo

/-- In a tree without links a directory is at its own place. -/
theorem of_isTree (hd : d.IsTree) (hdir : d.isDir root = true) : d.LeadsTo root (d.place root) := by
  obtain ⟨loc, closed, hs⟩ := stat_of_isDir hdir
  obtain ⟨rfl, hget⟩ := hd.stat_ok hs
  exact ⟨hd.below _, closed, hget, hs⟩

theorem dir (h : d.LeadsTo root loc) : ∃ closed, d.get? loc = some (.dir closed) := by
  obtain ⟨closed, hdir, _⟩ := h.found
  exact ⟨closed, hdir⟩

theorem isDir (h : d.LeadsTo root loc) : d.isDir root = true := by
  obtain ⟨closed, _, hfound⟩ := h.found
  simp only [Disk.isDir, hfound, Entry.isDir]

theorem taken (h : d.LeadsTo root loc) : accept root = .ok () := by
  obtain ⟨closed, _, hfound⟩ := h.found
  exact accept_of_locate (locate_of_stat hfound)

/-- Below the directory a look-up goes on from there. -/
theorem locate_eq (h : d.LeadsTo root loc) (hne : segs ≠ [])
    (habs : p.isAbsolute = root.isAbsolute) (hsteps : steps p = steps root ++ segs)
    (hacc : accept p = .ok ()) (follow : Bool) :
    ∃ onLink, d.locate follow p = d.walkWith follow onLink loc segs := by
  obtain ⟨closed, _, hfound⟩ := h.found
  have hroot := locate_of_stat hfound
  rw [Bool.true_or, locate_eq_walkFrom (accept_of_locate hroot)] at hroot
  rw [locate_eq_walkFrom hacc, hsteps, start, habs, ← start]
  exact walkFrom_through hne hroot

/-- What is there below the directory is found. -/
theorem stat_below (h : d.LeadsTo root loc) (hne : segs ≠ []) (hsegs : ∀ s ∈ segs, IsName s)
    (habs : p.isAbsolute = root.isAbsolute) (hsteps : steps p = steps root ++ segs)
    (hacc : accept p = .ok ()) (hslash : p.endsWithSlash = true → e.isDir = true)
    (hget : d.get? (loc ++ segs) = some e) (follow : Bool) :
    d.stat follow p = .ok (loc ++ segs, e) := by
  obtain ⟨onLink, hl⟩ := h.locate_eq hne habs hsteps hacc (follow || p.endsWithSlash)
  rw [h.tree.walkWith_found h.dir hsegs hget] at hl
  have hcond : (p.endsWithSlash && !e.isDir) = false := by
    cases hs : p.endsWithSlash with
    | false => rfl
    | true => simp [hslash hs]
  simp only [stat, lookup, hl, hcond, Bool.false_eq_true, if_false]

/-- What is found below the directory is there. -/
theorem get_of_stat {l : Location} (h : d.LeadsTo root loc) (hne : segs ≠ [])
    (hsegs : ∀ s ∈ segs, IsName s) (habs : p.isAbsolute = root.isAbsolute)
    (hsteps : steps p = steps root ++ segs) (hs : d.stat follow p = .ok (l, e)) :
    l = loc ++ segs ∧ d.get? (loc ++ segs) = some e := by
  have hl := locate_of_stat hs
  obtain ⟨onLink, heq⟩ := h.locate_eq hne habs hsteps (accept_of_locate hl) (follow || p.endsWithSlash)
  rw [heq] at hl
  exact h.tree.get_of_walkWith h.dir hsegs hl

end LeadsTo

end Disk

end RunCache
