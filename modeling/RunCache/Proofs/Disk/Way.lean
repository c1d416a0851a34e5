import RunCache.Disk.Basic

/-! # One segment of a way

    A look-up follows the segments of a path one at a time.  What becomes
    of the first one is said here once; what holds of whole ways follows
    from that by induction.

    * **`Disk.LeadsOn`**: segments that lead from a directory to another
      one, and **`LeadsOn.walkWith`**: the way goes on from there.
    * **`Disk.walkWith_entry`**: segments that are names of entries.
    * **`Disk.ComesTo`**, **`Disk.comesTo_of_walkWith`**: all ways to come to a
      place. -/

namespace RunCache.Disk

/-- A segment that names an entry of its directory and that the system takes. -/
structure IsEntryName (s : String) : Prop where
  not_dot : s ≠ "."
  not_up : s ≠ ".."
  fits : s.utf8ByteSize ≤ nameLimit

/-- A segment that leads from a directory on to another one. -/
inductive LeadsOn (d : Disk) (here : Location) : String → Location → Prop
  | dot : LeadsOn d here "." here
  | up : LeadsOn d here ".." here.dropLast
  | down {s : String} {closed : Bool} (hs : IsEntryName s)
      (hget : d.get? (here ++ [s]) = some (.dir closed)) : LeadsOn d here s (here ++ [s])

/-- How a way can come to a place, by its first segment: it goes on from another directory, it ends
    at the segment, or a link takes it elsewhere. -/
inductive ComesTo (d : Disk) (follow : Bool)
    (onLink : Location → Path → List String → Except Fault Place) (here : Location) (s : String)
    (rest : List String) (place : Place) : Prop
  | on {there : Location} (hon : d.LeadsOn here s there)
      (hw : d.walkWith follow onLink there rest = .ok place)
  | absent (hs : IsEntryName s) (hget : d.get? (here ++ [s]) = none) (hrest : rest = [])
      (hplace : place = .absent here s)
  | file {bytes : ByteArray} {time : Int} (hs : IsEntryName s)
      (hget : d.get? (here ++ [s]) = some (.file bytes time)) (hrest : rest = [])
      (hplace : place = .found (here ++ [s]) (.file bytes time))
  | link {target : Path} (hs : IsEntryName s) (hget : d.get? (here ++ [s]) = some (.link target))
      (hrest : rest = []) (hfollow : follow = false)
      (hplace : place = .found (here ++ [s]) (.link target))
  | through {target : Path} (hs : IsEntryName s)
      (hget : d.get? (here ++ [s]) = some (.link target)) (hgo : follow = false → rest ≠ [])
      (hw : onLink here target rest = .ok place)

variable {d : Disk} {follow : Bool} {here there : Location} {s : String} {rest : List String}
  {onLink : Location → Path → List String → Except Fault Place} {place : Place}

/-- The name of an entry decides by what it stands for. -/
theorem walkWith_entry (hs : IsEntryName s) :
    d.walkWith follow onLink here (s :: rest) =
      match d.get? (here ++ [s]) with
      | none => if rest.isEmpty then .ok (.absent here s) else .error .missing
      | some (.dir _) => d.walkWith follow onLink (here ++ [s]) rest
      | some (.file content modified) =>
        if rest.isEmpty then .ok (.found (here ++ [s]) (.file content modified))
        else .error .notDirectory
      | some (.link target) =>
        if rest.isEmpty && !follow then .ok (.found (here ++ [s]) (.link target))
        else onLink here target rest := by
  conv => lhs; unfold walkWith
  rewrite [if_neg hs.not_dot, if_neg hs.not_up, if_neg (Nat.not_lt.mpr hs.fits)]
  cases d.get? (here ++ [s]) with
  | none => rfl
  | some e => cases e <;> rfl

/-- Behind a segment that leads on the way goes on from there. -/
theorem LeadsOn.walkWith (h : d.LeadsOn here s there) (follow : Bool)
    (onLink : Location → Path → List String → Except Fault Place) (rest : List String) :
    d.walkWith follow onLink here (s :: rest) = d.walkWith follow onLink there rest := by
  cases h with
  | dot => rw [Disk.walkWith, if_pos rfl]
  | up => rw [Disk.walkWith, if_neg (by decide), if_pos rfl]
  | down hs hget => rw [walkWith_entry hs, hget]

/-- A link behind which more is to come, or that is to be followed, takes the way elsewhere. -/
theorem walkWith_link {target : Path} (hs : IsEntryName s)
    (hget : d.get? (here ++ [s]) = some (.link target)) (hgo : follow = false → rest ≠ []) :
    d.walkWith follow onLink here (s :: rest) = onLink here target rest := by
  have hcond : (rest.isEmpty && !follow) = false := by
    cases follow with
    | true => simp
    | false => simpa using hgo rfl
  rw [walkWith_entry hs, hget]
  simp only [hcond, Bool.false_eq_true, if_false]

/-- A way that comes to a place does so in one of these ways. -/
theorem comesTo_of_walkWith (hw : d.walkWith follow onLink here (s :: rest) = .ok place) :
    d.ComesTo follow onLink here s rest place := by
  by_cases hdot : s = "."
  · subst hdot
    exact .on .dot ((LeadsOn.dot.walkWith follow onLink rest).symm.trans hw)
  by_cases hup : s = ".."
  · subst hup
    exact .on .up ((LeadsOn.up.walkWith follow onLink rest).symm.trans hw)
  by_cases hlong : s.utf8ByteSize > nameLimit
  · rw [Disk.walkWith, if_neg hdot, if_neg hup, if_pos hlong] at hw
    cases hw
  -- It is a name, then, and what it leads to is looked up.
  have hs : IsEntryName s := ⟨hdot, hup, Nat.not_lt.mp hlong⟩
  rw [walkWith_entry hs] at hw
  cases hget : d.get? (here ++ [s]) with
  | none =>
    simp only [hget] at hw
    split at hw
    · next hrest => exact .absent hs hget (List.isEmpty_iff.mp hrest) (Except.ok.inj hw).symm
    · cases hw
  | some e =>
    cases e with
    | dir closed =>
      simp only [hget] at hw
      exact .on (.down hs hget) hw
    | file bytes time =>
      simp only [hget] at hw
      split at hw
      · next hrest => exact .file hs hget (List.isEmpty_iff.mp hrest) (Except.ok.inj hw).symm
      · cases hw
    | link target =>
      simp only [hget] at hw
      split at hw
      · next hstop =>
        obtain ⟨hrest, hfollow⟩ := Bool.and_eq_true_iff.mp hstop
        exact .link hs hget (List.isEmpty_iff.mp hrest) (by simpa using hfollow)
          (Except.ok.inj hw).symm
      · next hgo =>
        refine .through hs hget (fun hfollow hrest => hgo ?_) hw
        rw [hfollow, hrest]
        rfl

end RunCache.Disk
