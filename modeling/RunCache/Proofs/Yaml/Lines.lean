import RunCache.Proofs.Yaml.Quoted

/-! # Text that stands line by line is read back

    The lines of such a text stand behind their indentation, empty lines
    without it.  The breaks at its end count as the header says.

    * **`readIndents_eq`**: passing empty lines and the indentation.
    * **`readLines_eq`**: the lines of a text.
    * **`readBlock_eq`**: the text behind its mark. -/

namespace RunCache.Yaml

variable {bs rest t u l more lead breaks : List Char} {m : Mark} {c : Char}
  {indent deepest j k : Nat} {folded leadBlank : Bool}

/-- Breaks that are shown. -/
def AreBreaks (bs : List Char) : Prop := ∀ b ∈ bs, isShown b = true ∧ isBreak b = true

/-! ## Indentation -/

/-- Where indentation ends: at the end of the text, or at a character that is no break and no tab,
    and no space unless the indentation is complete. -/
def EndsIndent (indent column : Nat) (rest : List Char) : Prop :=
  ∀ c, rest.head? = some c → isBreak c = false ∧ c ≠ '\t' ∧
    (c = ' ' → indent ≠ 0 ∧ indent ≤ column)

theorem readIndents_stop (h : EndsIndent indent m.column rest) :
    readIndents indent deepest breaks m rest =
      .ok (breaks, max deepest m.column, ⟨m, rest⟩) := by
  cases rest with
  | nil => rfl
  | cons c rest =>
    obtain ⟨hbreak, htab, hspace⟩ := h c rfl
    have hcr : c ≠ '\r' := by
      rintro rfl
      exact absurd hbreak (by decide)
    have hseparator : ¬ (c = '\u2028' ∨ c = '\u2029') := by
      rintro (rfl | rfl) <;> exact absurd hbreak (by decide)
    have hwithin : (c = ' ' && (indent = 0 || m.column < indent)) = false := by
      by_cases hc : c = ' '
      · obtain ⟨hne, hle⟩ := hspace hc
        simp [hne, hle]
      · simp [hc]
    rw [readIndents.eq_def]
    simp [hwithin, htab, hcr, hseparator, hbreak]

theorem readIndents_spaces (hwithin : indent = 0 ∨ m.column + j ≤ indent)
    (h : EndsIndent indent (m.column + j) rest) :
    readIndents indent deepest breaks m (spaces j ++ rest) =
      .ok (breaks, max deepest (m.column + j), ⟨m.right j, rest⟩) := by
  induction j generalizing m with
  | zero => exact readIndents_stop h
  | succ j ih =>
    have hspace : (decide (indent = 0) || decide (m.column < indent)) = true := by
      rcases hwithin with rfl | hle
      · rfl
      · simp only [Bool.or_eq_true, decide_eq_true_eq]
        omega
    have hcolumn : (m.right 1).column + j = m.column + (j + 1) := by
      simp only [Mark.right]
      omega
    rw [spaces, List.replicate_succ, List.cons_append, ← spaces, readIndents.eq_def]
    simp only [hspace, decide_true, Bool.and_true, if_true]
    rw [ih (hcolumn ▸ hwithin) (hcolumn ▸ h), hcolumn, Mark.right_right, Nat.add_comm 1 j]

/-- Empty lines and the indentation behind them are passed. -/
theorem readIndents_eq (hbs : AreBreaks bs) (hm : m.column = 0) (hwithin : indent = 0 ∨ j ≤ indent)
    (h : EndsIndent indent j rest) :
    readIndents indent deepest breaks m (bs ++ (spaces j ++ rest)) =
      .ok (breaks ++ bs, max deepest j, ⟨m.after (bs ++ spaces j), rest⟩) := by
  induction bs generalizing m breaks with
  | nil =>
    have hj : m.column + j = j := by omega
    rw [List.nil_append, readIndents_spaces (hj.symm ▸ hwithin) (hj.symm ▸ h), hj, List.append_nil,
      List.nil_append, Mark.after_spaces]
  | cons b bs ih =>
    obtain ⟨hshown, hbreak⟩ := hbs b (by simp)
    have hstep : readIndents indent deepest breaks m (b :: (bs ++ (spaces j ++ rest))) =
        readIndents indent deepest (breaks ++ [b]) (m.down 1) (bs ++ (spaces j ++ rest)) := by
      have hdeepest : max deepest m.column = deepest := by omega
      rw [readIndents.eq_def]
      rcases break_cases hshown hbreak with rfl | rfl | rfl <;> simp [hdeepest, isBreak]
    rw [List.cons_append, hstep, ih (fun d hd => hbs d (List.mem_cons_of_mem b hd)) rfl,
      List.cons_append, Mark.after_cons_break hbreak, List.append_assoc]
    rfl

/-! ## Lines -/

/-- A line, up to its break. -/
theorem literalLines_line (hl : ∀ c ∈ l, isBreak c = false) (indent : Nat) (u : List Char) :
    literalLines indent false (l ++ u) = l ++ literalLines indent false u := by
  induction l with
  | nil => rfl
  | cons c l ih =>
    simp [literalLines, hl c (by simp), ih fun d hd => hl d (List.mem_cons_of_mem c hd)]

theorem literalLines_breaks (hbs : AreBreaks bs) (indent : Nat) (u : List Char) :
    literalLines indent true (bs ++ u) = bs ++ literalLines indent true u := by
  induction bs with
  | nil => rfl
  | cons b bs ih =>
    simp [literalLines, (hbs b (by simp)).2, ih fun d hd => hbs d (List.mem_cons_of_mem b hd)]

theorem literalLines_next (hu : u.head?.any isBreak = false) (hne : u ≠ []) (indent : Nat) :
    literalLines indent true u = spaces indent ++ literalLines indent false u := by
  obtain ⟨c, u, rfl⟩ := List.exists_cons_of_ne_nil hne
  have hc : isBreak c = false := hu
  simp [literalLines, hc]

/-- What ends the last line of a text. -/
def lineEnd (t : List Char) : List Char := if endsWithBreak t then [] else ['\n']

/-- How the end of a text is read: what is read before it, the break behind the last line and the
    empty lines further behind. -/
inductive EndsLines (u : List Char) : (text lead breaks : List Char) → Prop
  | bare : endsWithBreak u = false → EndsLines u u ['\n'] []
  | broken {text breaks : List Char} {b : Char} : u = text ++ b :: breaks → text ≠ [] →
    endsWithBreak text = false → isBreak b = true → AreBreaks breaks → EndsLines u text [b] breaks

theorem endsWithBreak_append (hne : u ≠ []) (t : List Char) :
    endsWithBreak (t ++ u) = endsWithBreak u := by
  rw [endsWithBreak, endsWithBreak, List.getLast?_append, List.getLast?_eq_some_getLast hne]
  rfl

/-- Text in front does not change the end. -/
theorem EndsLines.behind {text : List Char} (h : EndsLines u text lead breaks) (hne : u ≠ [])
    (s : List Char) : EndsLines (s ++ u) (s ++ text) lead breaks := by
  cases h with
  | bare hbare => exact .bare (by rwa [endsWithBreak_append hne])
  | @broken _ _ b hu htext hbare hbreak hbs =>
    exact .broken (by simp [hu]) (by simp [htext]) (by rwa [endsWithBreak_append htext]) hbreak hbs

/-- A text that begins with a line: the line, and nothing behind it, or breaks and perhaps a further
    text that begins with a line. -/
theorem exists_line (hne : u ≠ []) (hu : u.head?.any isBreak = false) (hshown : ∀ c ∈ u, isShown c = true) :
    ∃ l, l ≠ [] ∧ (∀ c ∈ l, isBreak c = false) ∧ (u = l ∨ ∃ b bs rest, u = l ++ b :: (bs ++ rest) ∧
      AreBreaks (b :: bs) ∧ rest.head?.any isBreak = false) := by
  have hdrop := List.head?_dropWhile_not (fun c => !isBreak c) u
  have hsplit : u = u.takeWhile (fun c => !isBreak c) ++ u.dropWhile (fun c => !isBreak c) :=
    List.takeWhile_append_dropWhile.symm
  refine ⟨u.takeWhile (fun c => !isBreak c), ?_, fun c hc => by simpa using List.mem_takeWhile_imp hc, ?_⟩
  · obtain ⟨c, u, rfl⟩ := List.exists_cons_of_ne_nil hne
    have hc : isBreak c = false := hu
    simp [hc]
  · cases hrest : u.dropWhile (fun c => !isBreak c) with
    | nil =>
      rw [hrest, List.append_nil] at hsplit
      exact .inl hsplit
    | cons b behind =>
      rw [hrest] at hdrop hsplit
      obtain ⟨bs, rest, rfl, hbs, hhead⟩ := exists_breaks behind
      refine .inr ⟨b, bs, rest, hsplit, ?_, hhead⟩
      intro d hd
      refine ⟨hshown d ?_, ?_⟩
      · rw [hsplit]
        rcases List.mem_cons.mp hd with rfl | hd
        · simp
        · simp [hd]
      · rcases List.mem_cons.mp hd with rfl | hd
        · simpa using hdrop
        · exact hbs d hd

theorem endsWithBreak_of_line (hl : ∀ c ∈ l, isBreak c = false) : endsWithBreak l = false := by
  rw [endsWithBreak]
  cases hlast : l.getLast? with
  | none => rfl
  | some c => exact hl c (List.mem_of_getLast? hlast)

/-- A line with the break behind it. -/
theorem readLines_line (hm : m.column = indent) (hl : ∀ c ∈ l, isBreak c = false)
    {b : Char} (hshown : isShown b = true) (hbreak : isBreak b = true) (hbs : AreBreaks bs)
    (hj : indent = 0 ∨ j ≤ indent) (hstop : EndsIndent indent j rest) (lead breaks : List Char)
    (leadBlank : Bool) (steps : Nat) :
    ∃ blank, readLines false indent lead breaks leadBlank (steps + 1)
        ⟨m, l ++ b :: (bs ++ (spaces j ++ rest))⟩ =
      (readLines false indent [b] bs blank steps
        ⟨m.after (l ++ b :: (bs ++ spaces j)), rest⟩).map
          fun (more, lead', breaks', k) => (lead ++ breaks ++ l ++ more, lead', breaks', k) := by
  have hspan : (⟨m, l ++ b :: (bs ++ (spaces j ++ rest))⟩ : Cursor).span (fun x => !isBreak x) =
      (l, ⟨m.right l.length, b :: (bs ++ (spaces j ++ rest))⟩) :=
    Cursor.span_append (fun c hc => by simp [hl c hc]) (by simp [hbreak]) m
  have hindents : readIndents indent 0 [] ((m.right l.length).down 1) (bs ++ (spaces j ++ rest)) =
      .ok (bs, max 0 j, ⟨((m.right l.length).down 1).after (bs ++ spaces j), rest⟩) :=
    readIndents_eq hbs rfl hj hstop
  have hmark : m.after (l ++ b :: (bs ++ spaces j)) =
      ((m.right l.length).down 1).after (bs ++ spaces j) := by
    rw [Mark.after_append, Mark.after_of_line hl, Mark.after_cons_break hbreak]
  have hempty : (l ++ b :: (bs ++ (spaces j ++ rest))).isEmpty = false := by simp
  refine ⟨(l ++ b :: (bs ++ (spaces j ++ rest))).head?.any isBlank, ?_⟩
  rw [readLines]
  simp only [hm, decide_true, hempty, Bool.not_false, Bool.and_self, if_true, hspan,
    Cursor.takeBreak_cons hshown hbreak, hindents, hmark, Bool.false_and, Bool.false_eq_true, if_false]
  cases readLines false indent [b] bs _ steps _ with
  | error e => rfl
  | ok r => simp [Except.map]

theorem readLines_stop (hm : m.column ≠ indent) (steps : Nat) :
    readLines folded indent lead breaks leadBlank steps ⟨m, rest⟩ =
      .ok ([], lead, breaks, ⟨m, rest⟩) := by
  cases steps with
  | zero => rfl
  | succ steps => simp [readLines, hm]

/-- Less indentation than the lines have, and what stands behind it. -/
theorem endsIndent_of_less (hmore : more.head?.any isGap = false) : EndsIndent indent k more := by
  intro c hc
  rw [hc] at hmore
  have hparts : isBlank c = false ∧ isBreak c = false := by simpa [isGap] using hmore
  refine ⟨hparts.2, ?_, ?_⟩
  · rintro rfl
    exact absurd hparts.1 (by decide)
  · rintro rfl
    exact absurd hparts.1 (by decide)

/-- Complete indentation, and a line behind it. -/
theorem endsIndent_of_line (hpos : 0 < indent) (hshown : ∀ c ∈ u, isShown c = true)
    (hu : u.head?.any isBreak = false) (hne : u ≠ []) (more : List Char) :
    EndsIndent indent indent (literalLines indent false u ++ more) := by
  obtain ⟨c, u, rfl⟩ := List.exists_cons_of_ne_nil hne
  have hc : isBreak c = false := hu
  intro d hd
  have hd : d = c := by simpa [literalLines, hc, eq_comm] using hd
  subst hd
  refine ⟨hc, ?_, fun _ => ⟨by omega, Nat.le_refl _⟩⟩
  rintro rfl
  exact absurd (hshown '\t' (by simp)) (by decide)

/-- Behind the breaks of the last line no line follows. -/
theorem readLines_last {b : Char} (hm : m.column = indent) (hl : ∀ c ∈ l, isBreak c = false)
    (hbs : AreBreaks (b :: bs)) (hk : k < indent) (hmore : more.head?.any isGap = false)
    (lead breaks : List Char) (leadBlank : Bool) (steps : Nat) :
    readLines false indent lead breaks leadBlank (steps + 1)
        ⟨m, l ++ b :: (bs ++ (spaces k ++ more))⟩ =
      .ok (lead ++ breaks ++ l, [b], bs, ⟨m.after (l ++ b :: (bs ++ spaces k)), more⟩) := by
  obtain ⟨hshown, hbreak⟩ := hbs b (by simp)
  obtain ⟨blank, hline⟩ := readLines_line hm hl hshown hbreak
    (fun d hd => hbs d (List.mem_cons_of_mem b hd)) (.inr (Nat.le_of_lt hk))
    (endsIndent_of_less hmore) lead breaks leadBlank steps
  have hcolumn : (m.after (l ++ b :: (bs ++ spaces k))).column = k := by
    rw [← List.cons_append, Mark.column_after_breaks (fun d hd => (hbs d hd).2) (List.cons_ne_nil b bs)]
  have hstop : readLines false indent [b] bs blank steps
      ⟨m.after (l ++ b :: (bs ++ spaces k)), more⟩ =
        .ok ([], [b], bs, ⟨m.after (l ++ b :: (bs ++ spaces k)), more⟩) :=
    readLines_stop (by omega) steps
  rw [hline, hstop]
  simp only [Except.map, List.append_nil]

/-! ## Written lines -/

/-- A line is written with a break. -/
theorem written_line (hl : ∀ c ∈ l, isBreak c = false) (indent : Nat) :
    literalLines indent false l ++ lineEnd l = l ++ ['\n'] := by
  have hlines := literalLines_line hl indent []
  rw [List.append_nil, literalLines, List.append_nil] at hlines
  rw [hlines, lineEnd, endsWithBreak_of_line hl]
  rfl

/-- Nothing but breaks is written as it is. -/
theorem written_allBreaks (hbs : AreBreaks bs) (hne : bs ≠ []) (indent : Nat) :
    literalLines indent true bs = bs ∧ endsWithBreak bs = true := by
  refine ⟨?_, ?_⟩
  · have hlines := literalLines_breaks hbs indent []
    rwa [literalLines, List.append_nil] at hlines
  · rw [endsWithBreak, List.getLast?_eq_some_getLast hne]
    exact (hbs _ (List.getLast_mem hne)).2

/-- A line with breaks of its own is written as it is. -/
theorem written_breaks {b : Char} (hl : ∀ c ∈ l, isBreak c = false) (hbs : AreBreaks (b :: bs))
    (indent : Nat) :
    literalLines indent false (l ++ b :: bs) ++ lineEnd (l ++ b :: bs) = l ++ b :: bs := by
  have hb : isBreak b = true := (hbs b (by simp)).2
  obtain ⟨hlines, hbreak⟩ := written_allBreaks hbs (List.cons_ne_nil b bs) indent
  rw [literalLines, if_pos hb] at hlines
  rw [literalLines_line hl, literalLines, if_pos hb, hlines, lineEnd,
    endsWithBreak_append (List.cons_ne_nil b bs), hbreak]
  exact List.append_nil _

/-- A line, breaks and further lines are written one behind the other. -/
theorem written_further {b : Char} (hl : ∀ c ∈ l, isBreak c = false) (hbs : AreBreaks (b :: bs))
    (hu : u.head?.any isBreak = false) (hne : u ≠ []) (indent : Nat) :
    literalLines indent false (l ++ b :: (bs ++ u)) ++ lineEnd (l ++ b :: (bs ++ u)) =
      l ++ b :: (bs ++ spaces indent) ++ (literalLines indent false u ++ lineEnd u) := by
  have hend : endsWithBreak (l ++ b :: (bs ++ u)) = endsWithBreak u := by
    rw [← List.cons_append, ← List.append_assoc, endsWithBreak_append hne]
  rw [literalLines_line hl, literalLines, if_pos (hbs b (by simp)).2,
    literalLines_breaks fun d hd => hbs d (List.mem_cons_of_mem b hd), literalLines_next hu hne,
    lineEnd, lineEnd, hend]
  simp

/-- The lines of a text are read up to less indentation. -/
theorem readLines_eq (hshown : ∀ c ∈ u, isShown c = true) (hne : u ≠ [])
    (hu : u.head?.any isBreak = false) (hm : m.column = indent) (hk : k < indent)
    (hmore : more.head?.any isGap = false) (lead breaks : List Char) (leadBlank : Bool) (steps : Nat)
    (hsteps : u.length < steps) : ∃ text lead' breaks', EndsLines u text lead' breaks' ∧
      readLines false indent lead breaks leadBlank steps
          ⟨m, literalLines indent false u ++ lineEnd u ++ (spaces k ++ more)⟩ =
        .ok (lead ++ breaks ++ text, lead', breaks',
          ⟨m.after (literalLines indent false u ++ lineEnd u ++ spaces k), more⟩) := by
  induction hlen : u.length using Nat.strong_induction_on
    generalizing u m lead breaks leadBlank steps with
  | _ len ih =>
    obtain ⟨steps, rfl⟩ : ∃ i, steps = i + 1 := ⟨steps - 1, by omega⟩
    obtain ⟨l, hlne, hl, rfl | ⟨b, bs, rest, rfl, hbs, hrest⟩⟩ := exists_line hne hu hshown
    · -- The last line, without a break of its own.
      have hfeed : AreBreaks ['\n'] := List.forall_mem_singleton.mpr ⟨by decide, by decide⟩
      refine ⟨u, ['\n'], [], .bare (endsWithBreak_of_line hl), ?_⟩
      have hlast := readLines_last hm hl hfeed hk hmore lead breaks leadBlank steps
      rw [written_line hl]
      simpa only [List.append_assoc, List.cons_append, List.nil_append] using hlast
    · obtain ⟨hshownBreak, hbreak⟩ := hbs b (by simp)
      have hbehind : AreBreaks bs := fun d hd => hbs d (List.mem_cons_of_mem b hd)
      by_cases hnil : rest = []
      · -- The last line, with the breaks behind it.
        subst hnil
        rw [List.append_nil]
        refine ⟨l, [b], bs, .broken rfl hlne (endsWithBreak_of_line hl) hbreak hbehind, ?_⟩
        have hlast := readLines_last hm hl hbs hk hmore lead breaks leadBlank steps
        rw [written_breaks hl hbs]
        simpa only [List.append_assoc, List.cons_append] using hlast
      · -- A line with further lines behind it.
        have hrestShown : ∀ c ∈ rest, isShown c = true := fun c hc => hshown c (by simp [hc])
        have hstart : (m.after (l ++ b :: (bs ++ spaces indent))).column = indent := by
          rw [← List.cons_append,
            Mark.column_after_breaks (fun d hd => (hbs d hd).2) (List.cons_ne_nil b bs)]
        obtain ⟨blank, hline⟩ := readLines_line hm hl hshownBreak hbreak hbehind
          (.inr (Nat.le_refl indent)) (endsIndent_of_line (by omega) hrestShown hrest hnil
            (lineEnd rest ++ (spaces k ++ more))) lead breaks leadBlank steps
        have hlength : rest.length < (l ++ b :: (bs ++ rest)).length := by
          simp only [List.length_append, List.length_cons]
          omega
        obtain ⟨text, lead', breaks', hends, hread⟩ := ih rest.length (by omega) hrestShown hnil hrest
          hstart [b] bs blank steps (by omega) rfl
        have hends := hends.behind hnil (l ++ b :: bs)
        refine ⟨l ++ b :: (bs ++ text), lead', breaks', by simpa using hends, ?_⟩
        rw [written_further hl hbs hrest hnil]
        simp only [List.append_assoc, List.cons_append, Mark.after_append] at hline hread ⊢
        rw [hline, hread]
        simp only [Except.map, ← Mark.after_append, List.append_assoc, List.cons_append,
          List.nil_append]

/-! ## The end of a text -/

theorem chomping_bare (h : endsWithBreak t = false) : chomping t = ['-'] := by
  unfold chomping
  rw [endsWithBreak, ← List.head?_reverse] at h
  cases hrev : t.reverse with
  | nil => rfl
  | cons c rest =>
    rw [hrev] at h
    have hc : isBreak c = false := h
    cases rest <;> simp [hc]

theorem chomping_clip {b : Char} (hb : isBreak b = true) (hne : t ≠ [])
    (h : endsWithBreak t = false) : chomping (t ++ [b]) = [] := by
  unfold chomping
  rw [endsWithBreak, ← List.head?_reverse] at h
  rw [List.reverse_append, List.reverse_singleton, List.singleton_append]
  cases hrev : t.reverse with
  | nil => exact absurd (List.reverse_eq_nil_iff.mp hrev) hne
  | cons c rest =>
    rw [hrev] at h
    have hc : isBreak c = false := h
    simp [hb, hc]

theorem chomping_keep (hbs : ∀ b ∈ bs, isBreak b = true) (hne : bs ≠ []) (h : t = [] ∨ 2 ≤ bs.length) :
    chomping (t ++ bs) = ['+'] := by
  unfold chomping
  rw [List.reverse_append]
  cases hrev : bs.reverse with
  | nil => exact absurd (List.reverse_eq_nil_iff.mp hrev) hne
  | cons c rest =>
    have hmem : ∀ d ∈ c :: rest, isBreak d = true := fun d hd =>
      hbs d (List.mem_reverse.mp (hrev ▸ hd))
    cases rest with
    | cons d rest => simp [hmem c (by simp), hmem d (by simp)]
    | nil =>
      have hlen : bs.length = 1 := by
        rw [← List.length_reverse, hrev]
        rfl
      rcases h with rfl | h
      · simp [hmem c (by simp)]
      · omega

/-! ## The whole text -/

/-- The indentation mark in a header. -/
def indentMark (t : List Char) : List Char :=
  if t.head?.any (fun c => c = ' ' || isBreak c) then ['2'] else []

theorem literalHeader_eq (t : List Char) : literalHeader t = '|' :: (indentMark t ++ chomping t) :=
  rfl

/-- The chomping mark of a way to end. -/
def Chomp.mark : Chomp → List Char
  | .clip => []
  | .strip => ['-']
  | .keep => ['+']

theorem readBlockHeader_eq (marked : Bool) (chomp : Chomp) (rest : List Char) :
    readBlockHeader ⟨m, (if marked then ['2'] else []) ++ chomp.mark ++ '\n' :: rest⟩ =
      .ok ({ chomp, indent := if marked then 2 else 0 },
        ⟨m.right ((if marked then ['2'] else []) ++ chomp.mark).length, '\n' :: rest⟩) := by
  cases marked <;> cases chomp <;> rfl

theorem finishHeader_eq (rest : List Char) :
    finishHeader ⟨m, '\n' :: rest⟩ = .ok ⟨m.down 1, rest⟩ := rfl

/-- What the chomping mark keeps of the end of a text. -/
def Chomp.tail (chomp : Chomp) (lead breaks : List Char) : List Char :=
  match chomp with
  | .strip => []
  | .clip => lead
  | .keep => lead ++ breaks

/-- The end of a text is kept by its mark. -/
theorem EndsLines.chomping {text : List Char} (h : EndsLines u text lead breaks) (hne : u ≠ [])
    (s : List Char) :
    ∃ chomp : Chomp, chomping (s ++ u) = chomp.mark ∧ text ++ chomp.tail lead breaks = u := by
  cases h with
  | bare hbare =>
    refine ⟨.strip, chomping_bare ?_, List.append_nil u⟩
    rwa [endsWithBreak_append hne]
  | @broken _ _ b hu htext hbare hbreak hbs =>
    subst hu
    cases breaks with
    | nil =>
      refine ⟨.clip, ?_, rfl⟩
      rw [← List.append_assoc]
      refine chomping_clip hbreak (by simp [htext]) ?_
      rwa [endsWithBreak_append htext]
    | cons d breaks =>
      refine ⟨.keep, ?_, rfl⟩
      rw [← List.append_assoc]
      refine chomping_keep ?_ (List.cons_ne_nil _ _) (.inr (by simp))
      intro c hc
      rcases List.mem_cons.mp hc with rfl | hc
      · exact hbreak
      · exact (hbs c hc).2

theorem length_le_literalLines (indent : Nat) (afterBreak : Bool) (t : List Char) :
    t.length ≤ (literalLines indent afterBreak t).length := by
  induction t generalizing afterBreak with
  | nil => exact Nat.zero_le _
  | cons c t ih =>
    rw [literalLines]
    split
    · have := ih true
      simp only [List.length_cons]
      omega
    · have := ih false
      simp only [List.length_append, List.length_cons]
      omega

/-- The indentation of a text when its header is known. -/
def givenIndent (marked : Bool) (column : Nat) : Nat := if marked then column + 2 else 0

/-- The text behind its header. -/
theorem readBlock_header (marked : Bool) (chomp : Chomp) (column : Nat) (rest : List Char)
    {text breaks lead' breaks' : List Char} {k k' : Cursor}
    (hindents : readIndents (givenIndent marked column) 0 []
      ((m.after ((if marked then ['2'] else []) ++ chomp.mark)).down 1) rest =
        .ok (breaks, deepest, k))
    (hdeepest : marked = true ∨ deepest = column + 2)
    (hlines : readLines false (column + 2) [] breaks false (k.rest.length + 1) k =
      .ok (text, lead', breaks', k')) :
    readBlock false column ⟨m, (if marked then ['2'] else []) ++ chomp.mark ++ '\n' :: rest⟩ =
      .ok (text ++ chomp.tail lead' breaks', k') := by
  have hmark : m.right ((if marked then ['2'] else []) ++ chomp.mark).length =
      m.after ((if marked then ['2'] else []) ++ chomp.mark) := by
    rw [Mark.after_of_line]
    cases marked <;> cases chomp <;> simp [Chomp.mark, isBreak]
  have hgiven : (if (if marked then 2 else 0) = 0 then 0
      else if 0 ≤ (column : Int) then (column : Int).toNat + (if marked then 2 else 0)
      else (if marked then 2 else 0)) = givenIndent marked column := by
    cases marked <;> simp [givenIndent]
  have hindent : (if givenIndent marked column = 0 then max (max deepest ((column : Int) + 1).toNat) 1
      else givenIndent marked column) = column + 2 := by
    cases marked with
    | true => rfl
    | false =>
      rcases hdeepest with h | rfl
      · cases h
      · have hzero : givenIndent false column = 0 := rfl
        rw [hzero, if_pos rfl]
        omega
  rw [readBlock, readBlockHeader_eq]
  simp only [finishHeader_eq, hmark, hgiven, hindents, hindent, hlines]
  cases chomp <;> rfl

/-- Nothing but breaks. -/
theorem readBlock_breaks {column : Nat} (hbs : AreBreaks bs) (hk : k < column + 2)
    (hne : bs ≠ []) (hmore : more.head?.any isGap = false) :
    readBlock false column ⟨m, ['2'] ++ Chomp.keep.mark ++ '\n' :: (bs ++ (spaces k ++ more))⟩ =
      .ok (bs, ⟨((m.after (['2'] ++ Chomp.keep.mark)).down 1).after (bs ++ spaces k), more⟩) := by
  have hindents : readIndents (column + 2) 0 [] ((m.after (['2'] ++ Chomp.keep.mark)).down 1) _ = _ :=
    readIndents_eq hbs rfl (.inr (Nat.le_of_lt hk)) (endsIndent_of_less hmore)
  have hcolumn : (((m.after (['2'] ++ Chomp.keep.mark)).down 1).after (bs ++ spaces k)).column ≠
      column + 2 := by
    have h := Mark.column_after_breaks (fun b hb => (hbs b hb).2) hne
      ((m.after (['2'] ++ Chomp.keep.mark)).down 1) [] k
    rw [List.nil_append] at h
    omega
  exact readBlock_header true .keep column _ hindents (.inl rfl) (readLines_stop hcolumn _)

/-- Lines, behind breaks where the header is marked. -/
theorem readBlock_lines {column : Nat} (hbs : AreBreaks bs) (hshown : ∀ c ∈ u, isShown c = true)
    (hne : u ≠ []) (hu : u.head?.any isBreak = false) (marked : Bool)
    (hmarked : marked = false → bs = [] ∧ u.head? ≠ some ' ') (hk : k < column + 2)
    (hmore : more.head?.any isGap = false) :
    readBlock false column ⟨m, (if marked then ['2'] else []) ++ chomping (bs ++ u) ++ '\n' ::
        (bs ++ (spaces (column + 2) ++ (literalLines (column + 2) false u ++ lineEnd u ++
          (spaces k ++ more))))⟩ =
      .ok (bs ++ u, ⟨((m.after ((if marked then ['2'] else []) ++ chomping (bs ++ u))).down 1).after
        (bs ++ (spaces (column + 2) ++ (literalLines (column + 2) false u ++ lineEnd u ++
          spaces k))), more⟩) := by
  have hline : EndsIndent (column + 2) (column + 2) _ :=
    endsIndent_of_line (by omega) hshown hu hne (lineEnd u ++ (spaces k ++ more))
  rw [← List.append_assoc] at hline
  -- Without a mark the first line tells the indentation, so it may not begin with a space.
  have hstop : EndsIndent (givenIndent marked column) (column + 2)
      (literalLines (column + 2) false u ++ lineEnd u ++ (spaces k ++ more)) := by
    cases marked with
    | true => exact hline
    | false =>
      intro c hc
      obtain ⟨hbreak, htab, _⟩ := hline c hc
      refine ⟨hbreak, htab, fun hspace => absurd ?_ (hmarked rfl).2⟩
      obtain ⟨d, u, rfl⟩ := List.exists_cons_of_ne_nil hne
      have hd : isBreak d = false := hu
      rw [← hspace, ← hc]
      simp [literalLines, hd]
  generalize hstart : (m.after ((if marked then ['2'] else []) ++ chomping (bs ++ u))).down 1 = start
  have hzero : start.column = 0 := by
    rw [← hstart]
    rfl
  have hcolumn : (start.after (bs ++ spaces (column + 2))).column = column + 2 := by
    by_cases hnil : bs = []
    · rw [hnil, List.nil_append, Mark.after_spaces]
      simp [Mark.right, hzero]
    · exact Mark.column_after_breaks (fun b hb => (hbs b hb).2) hnil start []  (column + 2)
  have hindents : readIndents _ 0 [] start _ = _ :=
    readIndents_eq hbs hzero (by cases marked <;> simp [givenIndent]) hstop
  have hlength := length_le_literalLines (column + 2) false u
  obtain ⟨text, lead', breaks', hends, hread⟩ := readLines_eq hshown hne hu hcolumn hk hmore [] bs
    false ((literalLines (column + 2) false u ++ lineEnd u ++ (spaces k ++ more)).length + 1)
    (by simp only [List.length_append]; omega)
  obtain ⟨chomp, hchomp, htext⟩ := hends.chomping hne bs
  rw [hchomp] at hstart ⊢
  subst hstart
  have hblock := readBlock_header marked chomp column _ hindents
    (by cases marked <;> simp) hread
  rw [hblock]
  simp only [List.nil_append, List.append_assoc, htext, ← Mark.after_append]

/-- A text that stands line by line is read up to less indentation. -/
theorem readBlock_eq {column : Nat} (hshown : ∀ c ∈ t, isShown c = true) (hne : t ≠ [])
    (hk : k < column + 2) (hmore : more.head?.any isGap = false) :
    readBlock false column ⟨m, indentMark t ++ chomping t ++ '\n' ::
        (literalLines (column + 2) true t ++ lineEnd t ++ (spaces k ++ more))⟩ =
      .ok (t, ⟨m.after (indentMark t ++ chomping t ++ '\n' ::
        (literalLines (column + 2) true t ++ lineEnd t ++ spaces k)), more⟩) := by
  have hmark : ∀ s : List Char, m.after (indentMark t ++ chomping t ++ '\n' :: s) =
      ((m.after (indentMark t ++ chomping t)).down 1).after s := by
    intro s
    rw [Mark.after_append, Mark.after_cons_break (by decide)]
  obtain ⟨bs, u, rfl, hbs, hu⟩ := exists_breaks t
  have hbs : AreBreaks bs := fun b hb => ⟨hshown b (List.mem_append_left _ hb), hbs b hb⟩
  by_cases hnil : u = []
  · -- Nothing but breaks.
    subst hnil
    rw [List.append_nil] at hne hmark ⊢
    obtain ⟨b, rest, rfl⟩ := List.exists_cons_of_ne_nil hne
    have hindentMark : indentMark (b :: rest) = ['2'] := by
      simp [indentMark, (hbs b (by simp)).2]
    have hchomping : chomping (b :: rest) = Chomp.keep.mark :=
      chomping_keep (t := []) (fun d hd => (hbs d hd).2) hne (.inl rfl)
    obtain ⟨hlines, hend⟩ := written_allBreaks hbs hne (column + 2)
    rw [hmark, hlines, lineEnd, hend, if_pos rfl, List.append_nil, hindentMark, hchomping]
    exact readBlock_breaks hbs hk hne hmore
  · have hlines : literalLines (column + 2) true (bs ++ u) ++ lineEnd (bs ++ u) =
        bs ++ (spaces (column + 2) ++ (literalLines (column + 2) false u ++ lineEnd u)) := by
      rw [literalLines_breaks hbs, literalLines_next hu hnil, lineEnd, lineEnd,
        endsWithBreak_append hnil]
      simp
    have hblock := readBlock_lines (m := m) hbs (fun c hc => hshown c (List.mem_append_right _ hc))
      hnil hu ((bs ++ u).head?.any fun c => c = ' ' || isBreak c) ?_ hk hmore
    · rw [hmark, hlines]
      simp only [List.append_assoc] at hblock ⊢
      exact hblock
    · intro hmarked
      cases bs with
      | nil =>
        refine ⟨rfl, fun hspace => ?_⟩
        rw [List.nil_append, hspace] at hmarked
        cases hmarked
      | cons b bs =>
        simp [(hbs b (by simp)).2] at hmarked

end RunCache.Yaml
