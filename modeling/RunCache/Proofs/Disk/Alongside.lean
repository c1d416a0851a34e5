import RunCache.Proofs.Disk.Descent

/-! # Trees that agree in some areas

    What is written in an area, and made on the way to it, comes to the
    same in two trees that agree there, also where one of them has some of
    the directories on the way already.

    * **`Disk.Alongside`**: two such trees.
    * **`Alongside.makeWay`**, **`Alongside.makeDirs`**: making directories
      in both.
    * **`Alongside.writeFile`**: writing a file in both. -/

namespace RunCache.Disk

variable {areas : List Location} {a here init : Location} {d d' : Disk} {names : List String}
  {s : String} {p : Path} {loc : Location} {e : Entry} {closed : Bool}

/-- Two trees with the same entries in some areas, each a location with all that is below it. On the
    way to them the second may have directories that the first lacks, where these can be made. -/
structure Alongside (areas : List Location) (d d' : Disk) : Prop where
  tree : d.IsTree
  tree' : d'.IsTree
  inside : ∀ a ∈ areas, ∀ loc, a <+: loc → d'.get? loc = d.get? loc
  way : ∀ a ∈ areas, ∀ loc, loc <+: a → d'.get? loc = d.get? loc ∨
    (d.get? loc = none ∧ d'.get? loc = some (.dir false) ∧ d.get? loc.dropLast ≠ some (.dir true))

namespace Alongside

/-! ## Entries put in the trees -/

/-- The same entry may be put in both trees, whatever it is but a closed directory. -/
theorem put (h : Alongside areas d d') (hne : loc ≠ []) (he : e ≠ .dir true)
    (htree : (d.put loc e).IsTree) (htree' : (d'.put loc e).IsTree) :
    Alongside areas (d.put loc e) (d'.put loc e) := by
  refine ⟨htree, htree', ?_, ?_⟩
  · intro a ha l hpre
    by_cases hl : l = loc
    · rw [hl, get_put_self hne, get_put_self hne]
    · rw [get_put_of_ne hl, get_put_of_ne hl, h.inside a ha l hpre]
  · intro a ha l hpre
    by_cases hl : l = loc
    · rw [hl, get_put_self hne, get_put_self hne]
      exact .inl rfl
    · rw [get_put_of_ne hl, get_put_of_ne hl]
      rcases h.way a ha l hpre with hsame | ⟨hnone, hdir, hopen⟩
      · exact .inl hsame
      · refine .inr ⟨hnone, hdir, ?_⟩
        by_cases habove : l.dropLast = loc
        · rw [habove, get_put_self hne]
          simpa using he
        · rwa [get_put_of_ne habove]

/-- A directory that the first tree lacks may be made there. -/
theorem put_left (h : Alongside areas d d') (hne : loc ≠ []) (hget : d'.get? loc = some (.dir false))
    (htree : (d.put loc (.dir false)).IsTree) : Alongside areas (d.put loc (.dir false)) d' := by
  refine ⟨htree, h.tree', ?_, ?_⟩
  · intro a ha l hpre
    by_cases hl : l = loc
    · rw [hl, get_put_self hne, hget]
    · rw [get_put_of_ne hl, h.inside a ha l hpre]
  · intro a ha l hpre
    by_cases hl : l = loc
    · rw [hl, get_put_self hne, hget]
      exact .inl rfl
    · rw [get_put_of_ne hl]
      rcases h.way a ha l hpre with hsame | ⟨hnone, hdir, hopen⟩
      · exact .inl hsame
      · refine .inr ⟨hnone, hdir, ?_⟩
        by_cases habove : l.dropLast = loc
        · rw [habove, get_put_self hne]
          simp
        · rwa [get_put_of_ne habove]

/-! ## Directories -/

/-- On a way that leads into an area, the trees have the same, or the first one lacks a directory
    that can be made. -/
theorem next (h : Alongside areas d d') (ha : a ∈ areas) (hpre : a <+: here ++ s :: names) :
    d'.get? (here ++ [s]) = d.get? (here ++ [s]) ∨
      (d.get? (here ++ [s]) = none ∧ d'.get? (here ++ [s]) = some (.dir false) ∧
        d.get? here ≠ some (.dir true)) := by
  have hnext : here ++ [s] <+: here ++ s :: names := ⟨names, by simp⟩
  rcases List.prefix_or_prefix_of_prefix hnext hpre with hway | hin
  · have hor := h.way a ha _ hway
    rwa [List.dropLast_concat] at hor
  · exact .inl (h.inside a ha _ hin)

/-- Directories on a way that leads into an area are made in both trees with the same result. -/
theorem makeWay (h : Alongside areas d d') (ha : a ∈ areas) (hpre : a <+: here ++ names)
    (hhere : d.get? here = some (.dir closed)) (hhere' : d'.get? here = some (.dir closed)) :
    (d'.makeWay here names).1 = (d.makeWay here names).1 ∧
      Alongside areas (d.makeWay here names).2 (d'.makeWay here names).2 := by
  induction names generalizing d d' here closed with
  | nil => exact ⟨rfl, h⟩
  | cons s rest ih =>
    by_cases hlong : s.utf8ByteSize > nameLimit
    · rw [Disk.makeWay, if_pos hlong, Disk.makeWay, if_pos hlong]
      exact ⟨rfl, h⟩
    have hfits := Nat.not_lt.mp hlong
    have hpre' : a <+: here ++ [s] ++ rest := by simpa using hpre
    have hne : here ++ [s] ≠ [] := by simp
    have hself : ∀ d : Disk, (d.put (here ++ [s]) (.dir false)).get? (here ++ [s]) =
        some (.dir false) := fun d => get_put_self hne
    rw [Disk.makeWay, if_neg hlong, Disk.makeWay, if_neg hlong, create_of_dir hhere,
      create_of_dir hhere']
    rcases h.next ha hpre with hsame | ⟨hnone, hdir, hopen⟩
    · rw [hsame]
      cases hget : d.get? (here ++ [s]) with
      | some e =>
        cases e with
        | dir closed' => exact ih h hpre' hget (hsame.trans hget)
        | file bytes time => exact ⟨rfl, h⟩
        | link target => exact ⟨rfl, h⟩
      | none =>
        cases closed with
        | true => exact ⟨rfl, h⟩
        | false =>
          have htree := h.tree.put_new ⟨false, hhere⟩ hget hfits (e := .dir false) rfl
          have htree' := h.tree'.put_new ⟨false, hhere'⟩ (hsame.trans hget) hfits
            (e := .dir false) rfl
          exact ih (h.put hne (by simp) htree htree') hpre' (hself d) (hself d')
    · -- The second tree has the directory that is made in the first one.
      cases closed with
      | true => exact absurd hhere hopen
      | false =>
        have htree := h.tree.put_new ⟨false, hhere⟩ hnone hfits (e := .dir false) rfl
        rw [hnone, hdir]
        exact ih (h.put_left hne hdir htree) hpre' (hself d) hdir

/-- A directory in an area is made in both trees, with those above it, with the same result. -/
theorem makeDirs (h : Alongside areas d d') (ha : a ∈ areas) (hp : p.IsRooted)
    (htrim : p.IsTrimmed) (hpre : a <+: p.names) :
    (d'.makeDirs p).1 = (d.makeDirs p).1 ∧
      Alongside areas (d.makeDirs p).2 (d'.makeDirs p).2 := by
  have hsame := h.inside a ha p.names hpre
  cases hacc : accept p with
  | error f =>
    rw [makeDirs_refused hp hacc, makeDirs_refused hp hacc]
    exact ⟨rfl, h⟩
  | ok u =>
    by_cases hfile : ∃ bytes time, d.get? p.names = some (.file bytes time)
    · obtain ⟨bytes, time, hfile⟩ := hfile
      rw [h.tree.makeDirs_of_file hp htrim hacc hfile,
        h.tree'.makeDirs_of_file hp htrim hacc (hsame.trans hfile)]
      exact ⟨rfl, h⟩
    · have hno : ∀ bytes time, d.get? p.names ≠ some (.file bytes time) :=
        fun bytes time hget => hfile ⟨bytes, time, hget⟩
      rw [h.tree.makeDirs_eq hp htrim hacc hno,
        h.tree'.makeDirs_eq hp htrim hacc (by rwa [hsame])]
      exact h.makeWay ha hpre rfl rfl

/-! ## Files -/

/-- A file in a directory in an area is written in both trees, or it cannot be written in either. -/
theorem writeFile {now : Int} {bytes : ByteArray} (h : Alongside areas d d') (ha : a ∈ areas)
    (hp : p.IsRooted) (htrim : p.IsTrimmed) (hnames : p.names = init ++ [s]) (hpre : a <+: init)
    (hdir : d.get? init = some (.dir closed)) :
    (∃ f, d.writeFile now p bytes = .error f ∧ d'.writeFile now p bytes = .error f) ∨
      ∃ e e', d.writeFile now p bytes = .ok e ∧ d'.writeFile now p bytes = .ok e' ∧
        Alongside areas e e' := by
  cases hacc : accept p with
  | error f => exact .inl ⟨f, by simp [Disk.writeFile, locate, hacc], by
      simp [Disk.writeFile, locate, hacc]⟩
  | ok u =>
    have hdir' : d'.get? init = some (.dir closed) := (h.inside a ha init hpre).trans hdir
    have hsame := h.inside a ha (init ++ [s]) (hpre.trans (List.prefix_append _ _))
    have heq := h.tree.writeFile_eq now bytes hp htrim hacc hnames hdir
    have heq' := h.tree'.writeFile_eq now bytes hp htrim hacc hnames hdir'
    rw [hsame, create_of_dir hdir'] at heq'
    rw [create_of_dir hdir] at heq
    -- Where both are written, the same file is put at the same place.
    have hboth : d.writeFile now p bytes = .ok (d.put (init ++ [s]) (.file bytes now)) →
        d'.writeFile now p bytes = .ok (d'.put (init ++ [s]) (.file bytes now)) →
        ∃ e e', d.writeFile now p bytes = .ok e ∧ d'.writeFile now p bytes = .ok e' ∧
          Alongside areas e e' := by
      intro hw hw'
      exact ⟨_, _, hw, hw', h.put (by simp) (by simp) (h.tree.writeFile hw).2.2
        (h.tree'.writeFile hw').2.2⟩
    by_cases hlong : s.utf8ByteSize > nameLimit
    · rw [if_pos hlong] at heq heq'
      exact .inl ⟨_, heq, heq'⟩
    rw [if_neg hlong] at heq heq'
    cases hget : d.get? (init ++ [s]) with
    | none =>
      rw [hget] at heq heq'
      cases closed with
      | true => exact .inl ⟨_, heq, heq'⟩
      | false => exact .inr (hboth heq heq')
    | some entry =>
      rw [hget] at heq heq'
      cases entry with
      | dir closed' => exact .inl ⟨_, heq, heq'⟩
      | file old time => exact .inr (hboth heq heq')
      | link target => exact .inl ⟨_, heq, heq'⟩

end Alongside

end RunCache.Disk
