import Mathlib.Data.List.DropRight
import RunCache.Disk.Path
import RunCache.Proofs.Text.Segments

/-! # Paths by their names

    What a path passes through is a start, which is the root or the current
    directory, and the names behind it.

    * **`IsName`**: texts that name one place in a directory.
    * **`Path.names`**: the segments of a path that lead anywhere.
    * **`names_join`**, **`names_of_parent`**: going down and up changes the
      last name only.
    * **`Path.IsRooted`**: absolute paths that never lead up. -/

namespace RunCache

open Text (cut segments joined)

/-- A text that names one place in a directory: one plain segment of a path. -/
def IsName (s : String) : Prop := s ≠ "" ∧ s ≠ "." ∧ s ≠ ".." ∧ '/' ∉ s.toList

instance : DecidablePred IsName := fun _ => instDecidableAnd

theorem IsName.not_idle {s : String} (h : IsName s) : Path.isIdle s = false := by
  simp [Path.isIdle, h.1, h.2.1]

namespace Path

/-! ## Names -/

/-- The segments of a path that lead anywhere. -/
def names (p : Path) : List String := p.body.filter (!isIdle ·)

/-- The characters of a path behind the slash it may start with. -/
def rest (p : Path) : List Char :=
  if p.isAbsolute then p.text.toList.tail else p.text.toList

theorem toList_of_isAbsolute {p : Path} (h : p.isAbsolute = true) :
    ∃ cs, p.text.toList = '/' :: cs := by
  unfold isAbsolute at h
  cases htext : p.text.toList with
  | nil => simp [htext] at h
  | cons c cs =>
    simp only [htext, List.head?_cons, Option.some.injEq, decide_eq_true_eq] at h
    exact ⟨cs, by rw [h]⟩

theorem body_eq (p : Path) : p.body = (cut p.rest).map String.ofList := by
  unfold body rest
  cases habs : p.isAbsolute with
  | true =>
    obtain ⟨cs, hcs⟩ := toList_of_isAbsolute habs
    simp [segments, hcs, Text.cut_cons_slash]
  | false => simp [segments]

theorem no_slash_of_mem_body {p : Path} {s : String} (h : s ∈ p.body) : '/' ∉ s.toList := by
  rw [body_eq] at h
  obtain ⟨cs, hcs, rfl⟩ := List.mem_map.mp h
  simpa using Text.no_slash_of_mem_cut hcs

theorem body_ne_nil (p : Path) : p.body ≠ [] := by
  rw [body_eq]
  simpa using Text.cut_ne_nil p.rest

/-- A path that is not absolute starts with a segment that is not empty. -/
theorem head_body_ne_empty {p : Path} (habs : p.isAbsolute = false) (hne : p.text ≠ "")
    {s : String} {segs : List String} (h : p.body = s :: segs) : s ≠ "" := by
  rintro rfl
  have hrest : p.rest = p.text.toList := by simp [rest, habs]
  rw [body_eq, hrest] at h
  cases htext : p.text.toList with
  | nil => exact hne (String.toList_injective (by simpa using htext))
  | cons c cs =>
    -- The path is not absolute, so its first segment holds its first character.
    have hc : c ≠ '/' := by
      rintro rfl
      simp [isAbsolute, htext] at habs
    obtain ⟨t, more, ht⟩ := List.exists_cons_of_ne_nil (Text.cut_ne_nil cs)
    rw [htext, Text.cut_cons_of_ne hc ht] at h
    have hempty : String.ofList (c :: t) = "" := (List.cons.inj h).1
    have := congrArg String.toList hempty
    simp at this

/-! ## Going down -/

variable {p : Path} {s : String}

theorem head_ne_slash (hslash : '/' ∉ s.toList) : s.toList.head? ≠ some '/' :=
  fun h => hslash (List.mem_of_mem_head? h)

theorem toList_join (hhead : s.toList.head? ≠ some '/') :
    (p.join s).text.toList =
      if p.text.toList = [] ∨ p.text.toList.getLast? = some '/' then p.text.toList ++ s.toList
      else p.text.toList ++ '/' :: s.toList := by
  have hcond : (p.text.isEmpty || p.endsWithSlash) = true ↔
      p.text.toList = [] ∨ p.text.toList.getLast? = some '/' := by
    simp [endsWithSlash]
  unfold join
  rw [if_neg hhead]
  by_cases h : (p.text.isEmpty || p.endsWithSlash) = true
  · rw [if_pos h, if_pos (hcond.mp h)]
    simp
  · rw [if_neg h, if_neg (fun h' => h (hcond.mpr h'))]
    simp

theorem isAbsolute_join_of_head (hhead : s.toList.head? ≠ some '/') :
    (p.join s).isAbsolute = p.isAbsolute := by
  unfold isAbsolute
  rw [toList_join hhead]
  cases p.text.toList with
  | nil => simp [hhead]
  | cons c cs => split <;> simp

@[simp] theorem isAbsolute_join (hslash : '/' ∉ s.toList) :
    (p.join s).isAbsolute = p.isAbsolute := isAbsolute_join_of_head (head_ne_slash hslash)

/-- Going down goes on from the text of a path. -/
theorem text_join (hslash : '/' ∉ s.toList) : ∃ more, (p.join s).text = p.text ++ more := by
  have hhead : s.toList.head? ≠ some '/' := fun h => hslash (List.mem_of_mem_head? h)
  unfold join
  rw [if_neg hhead]
  split
  · exact ⟨s, rfl⟩
  · exact ⟨"/" ++ s, by rw [String.append_assoc]⟩

theorem text_join_ne_empty (hs : IsName s) : (p.join s).text ≠ "" := by
  have hne : s.toList ≠ [] := fun h => hs.1 (String.toList_injective (by simpa using h))
  intro hempty
  have htext := congrArg String.toList hempty
  rw [toList_join (head_ne_slash hs.2.2.2)] at htext
  split at htext <;> simp [hne] at htext

theorem rest_join (hhead : s.toList.head? ≠ some '/') :
    (p.join s).rest = if p.rest = [] ∨ p.rest.getLast? = some '/' then p.rest ++ s.toList
      else p.rest ++ '/' :: s.toList := by
  unfold rest
  rw [isAbsolute_join_of_head hhead, toList_join hhead]
  cases habs : p.isAbsolute with
  | false => simp
  | true =>
    obtain ⟨cs, hcs⟩ := toList_of_isAbsolute habs
    rw [hcs]
    cases cs with
    | nil => simp
    | cons c cs =>
      simp only [List.getLast?_cons_cons, reduceCtorEq, false_or, if_true, List.tail_cons]
      split <;> rfl

/-- A path goes on with the segments of a text, the first one in the place of an empty one at its
    end. -/
theorem body_join_of_head (hhead : s.toList.head? ≠ some '/') :
    ∃ segs, (p.body = segs ++ [""] ∨ p.body = segs) ∧ (p.join s).body = segs ++ segments s := by
  rw [body_eq, body_eq, rest_join hhead]
  -- An empty path and one with a slash at its end have an empty segment for the text to replace.
  by_cases hnil : p.rest = []
  · refine ⟨[], .inl ?_, ?_⟩
    · rw [hnil]
      rfl
    · rw [if_pos (.inl hnil), hnil, List.nil_append, List.nil_append, segments]
  · by_cases hlast : p.rest.getLast? = some '/'
    · obtain ⟨cs, hcs⟩ := List.getLast?_eq_some_iff.mp hlast
      refine ⟨(cut cs).map String.ofList, .inl ?_, ?_⟩
      · rw [hcs, Text.cut_append_slash, List.map_append]
        rfl
      · rw [if_pos (.inr hlast), hcs, List.append_assoc, List.singleton_append,
          Text.cut_append_slash, List.map_append, segments]
    · refine ⟨(cut p.rest).map String.ofList, .inr rfl, ?_⟩
      rw [if_neg (by simp [hnil, hlast]), Text.cut_append_slash, List.map_append, segments]

/-- A path ends with one segment more, in the place of an empty one at its end. -/
theorem body_join (hslash : '/' ∉ s.toList) :
    ∃ segs, (p.body = segs ++ [""] ∨ p.body = segs) ∧ (p.join s).body = segs ++ [s] := by
  rw [← Text.segments_of_no_slash hslash]
  exact body_join_of_head (head_ne_slash hslash)

/-- Going down by a text of several segments, which does not start at the root. -/
theorem names_join_of_head (hhead : s.toList.head? ≠ some '/') :
    (p.join s).names = p.names ++ (segments s).filter (!isIdle ·) := by
  obtain ⟨segs, hp, hj⟩ := body_join_of_head (p := p) hhead
  have hnames : p.names = segs.filter (!isIdle ·) := by
    rcases hp with hp | hp <;> simp [names, hp, isIdle]
  rw [hnames, names, hj, List.filter_append]

@[simp] theorem names_join (hs : IsName s) : (p.join s).names = p.names ++ [s] := by
  rw [names_join_of_head (head_ne_slash hs.2.2.2), Text.segments_of_no_slash hs.2.2.2]
  simp [hs.not_idle]

/-- Names followed from a path. -/
theorem names_foldl_join {segs : List String} (hsegs : ∀ s ∈ segs, IsName s) :
    (segs.foldl join p).names = p.names ++ segs := by
  induction segs generalizing p with
  | nil => simp
  | cons s segs ih =>
    rw [List.foldl_cons, ih fun t ht => hsegs t (List.mem_cons_of_mem _ ht),
      names_join (hsegs s (by simp))]
    simp

theorem isAbsolute_foldl_join {segs : List String} (hsegs : ∀ s ∈ segs, IsName s) :
    (segs.foldl join p).isAbsolute = p.isAbsolute := by
  induction segs generalizing p with
  | nil => rfl
  | cons s segs ih =>
    rw [List.foldl_cons, ih fun t ht => hsegs t (List.mem_cons_of_mem _ ht),
      isAbsolute_join (hsegs s (by simp)).2.2.2]

theorem text_foldl_join_ne_empty {segs : List String} (hsegs : ∀ s ∈ segs, IsName s)
    (hne : segs ≠ []) : (segs.foldl join p).text ≠ "" := by
  obtain ⟨init, l, rfl⟩ : ∃ init l, segs = init ++ [l] :=
    ⟨_, _, (List.dropLast_append_getLast hne).symm⟩
  rw [List.foldl_append, List.foldl_cons, List.foldl_nil]
  exact text_join_ne_empty (hsegs l (by simp))

/-- Apart from slashes, names that are followed bring their own characters into the text and no
    others. -/
theorem mem_text_foldl_join {segs : List String} {c : Char} (hc : c ≠ '/')
    (hsegs : ∀ s ∈ segs, IsName s) :
    c ∈ (segs.foldl join p).text.toList ↔ c ∈ p.text.toList ∨ ∃ s ∈ segs, c ∈ s.toList := by
  induction segs generalizing p with
  | nil => simp
  | cons s rest ih =>
    rw [List.foldl_cons, ih fun t ht => hsegs t (List.mem_cons_of_mem s ht),
      toList_join (head_ne_slash (hsegs s (by simp)).2.2.2)]
    split <;> simp [hc, or_assoc]

/-! ## Going up -/

/-- What trimming takes away leads nowhere, and it stops at a segment that does lead somewhere or at
    the dot a path may start with. -/
theorem trimEnd_eq_append (absolute : Bool) (segs : List String) :
    ∃ idle, segs = trimEnd absolute segs ++ idle ∧ (∀ s ∈ idle, isIdle s = true) ∧
      ∀ init s, trimEnd absolute segs = init ++ [s] →
        isIdle s = false ∨ (absolute = false ∧ init = [] ∧ s = ".") := by
  -- The dot at the start is kept, so what is trimmed stands behind it.
  have htrim : ∀ segs : List String, ∃ idle, segs = segs.rdropWhile isIdle ++ idle ∧
      (∀ s ∈ idle, isIdle s = true) ∧
      ∀ init s, segs.rdropWhile isIdle = init ++ [s] → isIdle s = false := by
    intro segs
    refine ⟨segs.rtakeWhile isIdle, (List.rdropWhile_append_rtakeWhile).symm, ?_, ?_⟩
    · intro s hs
      exact List.mem_rtakeWhile_imp hs
    · intro init s h
      have hlast := List.rdropWhile_last_not isIdle segs (by rw [h]; simp)
      simpa [h] using hlast
  unfold trimEnd
  split
  · next rest =>
    obtain ⟨idle, hrest, hidle, hlast⟩ := htrim rest
    refine ⟨idle, ?_, hidle, ?_⟩
    · rw [List.cons_append]
      exact congrArg _ hrest
    · intro init s h
      cases init with
      | nil => exact .inr ⟨rfl, rfl, (List.cons.inj h).1.symm⟩
      | cons i init => exact .inl (hlast init s (List.cons.inj h).2)
  · obtain ⟨idle, hsegs, hidle, hlast⟩ := htrim segs
    exact ⟨idle, hsegs, hidle, fun init s h => .inl (hlast init s h)⟩

theorem filter_trimEnd (absolute : Bool) (segs : List String) :
    (trimEnd absolute segs).filter (!isIdle ·) = segs.filter (!isIdle ·) := by
  obtain ⟨idle, hsegs, hidle, _⟩ := trimEnd_eq_append absolute segs
  have hnone : idle.filter (!isIdle ·) = [] := by
    rw [List.filter_eq_nil_iff]
    intro s hs
    simp [hidle s hs]
  conv_rhs => rw [hsegs, List.filter_append, hnone, List.append_nil]

theorem trimEnd_isPrefix (absolute : Bool) (segs : List String) : trimEnd absolute segs <+: segs := by
  obtain ⟨idle, hsegs, _, _⟩ := trimEnd_eq_append absolute segs
  exact ⟨idle, hsegs.symm⟩

/-- The path of segments has them as its segments. -/
theorem body_ofBody {absolute : Bool} {segs : List String} (hslash : ∀ s ∈ segs, '/' ∉ s.toList)
    (hhead : absolute = false → "" ∉ segs.head?) :
    (ofBody absolute segs).isAbsolute = absolute ∧
      (ofBody absolute segs).body = if segs = [] then [""] else segs := by
  have hjoined : segments (joined segs) = if segs = [] then [""] else segs := by
    cases segs with
    | nil => rfl
    | cons s segs => rw [if_neg (by simp), Text.segments_joined (by simp) hslash]
  cases absolute with
  | true =>
    have habs : (ofBody true segs).isAbsolute = true := by simp [ofBody, isAbsolute]
    refine ⟨habs, ?_⟩
    have hrest : (ofBody true segs).rest = (joined segs).toList := by
      rw [rest, if_pos habs]
      simp [ofBody]
    rw [body_eq, hrest, ← hjoined]
    rfl
  | false =>
    have htext : (ofBody false segs).text = joined segs := by simp [ofBody]
    have habs : (ofBody false segs).isAbsolute = false := by
      cases h : (ofBody false segs).isAbsolute with
      | false => rfl
      | true =>
        -- A text that starts with a slash has an empty first segment.
        obtain ⟨cs, hcs⟩ := toList_of_isAbsolute h
        cases segs with
        | nil => simp [ofBody, joined] at hcs
        | cons s segs =>
          rw [if_neg (by simp), segments, ← htext, hcs, Text.cut_cons_slash, List.map_cons]
            at hjoined
          have hs : s = "" := (List.cons.inj hjoined).1.symm
          exact absurd (by simp [hs]) (hhead rfl)
    exact ⟨habs, by rw [body, habs, if_neg (by simp), htext, hjoined]⟩

/-- The path of segments passes through them. -/
theorem names_ofBody {absolute : Bool} {segs : List String} (hslash : ∀ s ∈ segs, '/' ∉ s.toList)
    (hhead : absolute = false → "" ∉ segs.head?) :
    (ofBody absolute segs).names = segs.filter (!isIdle ·) := by
  rw [names, (body_ofBody hslash hhead).2]
  split
  · next hnil => simp [hnil, isIdle]
  · rfl

/-- Going up takes the last name away. -/
theorem names_of_parent {q : Path} (h : p.parent? = some q) :
    q.isAbsolute = p.isAbsolute ∧ q.names = p.names.dropLast := by
  unfold parent? at h
  split at h
  · cases h
  · next s segs htrim =>
    obtain rfl := Option.some.inj h
    obtain ⟨idle, _, _, hlast⟩ := trimEnd_eq_append p.isAbsolute p.body
    obtain ⟨init, l, hinit⟩ : ∃ init l, s :: segs = init ++ [l] :=
      ⟨_, _, (List.dropLast_append_getLast (by simp)).symm⟩
    -- What is left is a beginning of the segments, so none of them holds a slash.
    have hpre : trimEnd p.isAbsolute init <+: p.body := by
      refine (trimEnd_isPrefix _ init).trans (.trans ?_ (trimEnd_isPrefix p.isAbsolute p.body))
      rw [htrim, hinit]
      exact List.prefix_append init [l]
    have hslash : ∀ s ∈ trimEnd p.isAbsolute init, '/' ∉ s.toList :=
      fun s hs => no_slash_of_mem_body (hpre.subset hs)
    have hhead : p.isAbsolute = false → "" ∉ (trimEnd p.isAbsolute init).head? := by
      intro habs hmem
      obtain ⟨more, hmore⟩ := hpre
      obtain ⟨tl, htl⟩ := List.head?_eq_some_iff.mp hmem
      rw [htl, List.cons_append] at hmore
      have hne : p.text ≠ "" := by
        intro hempty
        have hbody : p.body = [""] := by simp [body_eq, rest, hempty, cut]
        simp [hbody, habs, trimEnd, isIdle] at htrim
      exact head_body_ne_empty habs hne hmore.symm rfl
    rw [hinit, List.dropLast_concat]
    refine ⟨(body_ofBody hslash hhead).1, ?_⟩
    have hp : p.names = (init ++ [l]).filter (!isIdle ·) := by
      rw [names, ← filter_trimEnd p.isAbsolute, htrim, hinit]
    rw [names_ofBody hslash hhead, filter_trimEnd, hp, List.filter_append]
    -- The segment that goes is a name, or the dot of a path that is nothing else.
    rcases hlast init l (htrim.trans hinit) with hl | ⟨_, rfl, rfl⟩
    · simp [hl]
    · simp [isIdle]

theorem names_of_parent_none (h : p.parent? = none) : p.names = [] := by
  unfold parent? at h
  split at h
  · next htrim =>
    rw [names, ← filter_trimEnd p.isAbsolute, htrim]
    rfl
  · cases h

/-- Paths that end with a name, and the root. -/
def IsTrimmed (p : Path) : Prop :=
  p.body = [""] ∨ ∃ init l, p.body = init ++ [l] ∧ isIdle l = false

theorem isTrimmed_join (hs : IsName s) : (p.join s).IsTrimmed := by
  obtain ⟨segs, _, hj⟩ := body_join (p := p) hs.2.2.2
  exact .inr ⟨segs, s, hj, hs.not_idle⟩

theorem isTrimmed_foldl_join {segs : List String} (hsegs : ∀ s ∈ segs, IsName s) (hne : segs ≠ []) :
    (segs.foldl join p).IsTrimmed := by
  obtain ⟨init, l, rfl⟩ : ∃ init l, segs = init ++ [l] :=
    ⟨_, _, (List.dropLast_append_getLast hne).symm⟩
  rw [List.foldl_append, List.foldl_cons, List.foldl_nil]
  exact isTrimmed_join (hsegs l (by simp))

/-- What is above an absolute path ends with a name or is the root. -/
theorem isTrimmed_of_parent {q : Path} (h : p.parent? = some q) (habs : p.isAbsolute = true) :
    q.IsTrimmed := by
  unfold parent? at h
  split at h
  · cases h
  · next s segs htrim =>
    obtain rfl := Option.some.inj h
    rw [habs] at htrim ⊢
    have hsub : ∀ t ∈ trimEnd true (s :: segs).dropLast, '/' ∉ t.toList := by
      intro t ht
      have hmem : t ∈ trimEnd true p.body := by
        rw [htrim]
        exact List.dropLast_subset _ ((trimEnd_isPrefix _ _).subset ht)
      exact no_slash_of_mem_body ((trimEnd_isPrefix _ p.body).subset hmem)
    have hbody : (ofBody true (trimEnd true (s :: segs).dropLast)).body =
        if trimEnd true (s :: segs).dropLast = [] then [""]
        else trimEnd true (s :: segs).dropLast := (body_ofBody hsub (by simp)).2
    obtain ⟨_, _, _, hlast⟩ := trimEnd_eq_append true (s :: segs).dropLast
    -- Nothing is left of the root; everything else ends with a name.
    rcases List.eq_nil_or_concat (trimEnd true (s :: segs).dropLast) with hnil | ⟨init, l, hl⟩
    · exact .inl (by rw [hbody, if_pos hnil])
    · rw [List.concat_eq_append] at hl
      refine .inr ⟨init, l, by rw [hbody, if_neg (by simp [hl]), hl], ?_⟩
      rcases hlast init l hl with hidle | ⟨habs', _, _⟩
      · exact hidle
      · cases habs'

theorem getLast_body_of_endsWithSlash (h : p.endsWithSlash = true) : p.body.getLast? = some "" := by
  simp only [endsWithSlash, decide_eq_true_eq] at h
  obtain ⟨cs, hcs⟩ := List.getLast?_eq_some_iff.mp h
  have hcut : cut p.text.toList = cut cs ++ [[]] := by
    rw [hcs, Text.cut_append_slash]
    rfl
  unfold body
  split
  · obtain ⟨t, more, ht⟩ := List.exists_cons_of_ne_nil (Text.cut_ne_nil cs)
    simp [segments, hcut, ht]
  · simp [segments, hcut]

theorem IsTrimmed.endsWithSlash (h : p.IsTrimmed) (hne : p.names ≠ []) :
    p.endsWithSlash = false := by
  cases hslash : p.endsWithSlash with
  | false => rfl
  | true =>
    have hlast := getLast_body_of_endsWithSlash hslash
    rcases h with hroot | ⟨init, l, hbody, hl⟩
    · simp [names, hroot, isIdle] at hne
    · rw [hbody, List.getLast?_concat, Option.some.injEq] at hlast
      simp [hlast, isIdle] at hl

/-! ## The paths above a path -/

theorem mem_ancestorsWithin {n : Nat} {q : Path} (h : q ∈ ancestorsWithin n p) :
    q.isAbsolute = p.isAbsolute ∧ q.names <+: p.names ∧
      (q = p ∨ (p.isAbsolute = true → q.IsTrimmed)) := by
  induction n generalizing p with
  | zero =>
    obtain rfl := List.mem_singleton.mp h
    exact ⟨rfl, List.prefix_rfl, .inl rfl⟩
  | succ n ih =>
    unfold ancestorsWithin at h
    cases hp : p.parent? with
    | none =>
      rw [hp] at h
      obtain rfl := List.mem_singleton.mp h
      exact ⟨rfl, List.prefix_rfl, .inl rfl⟩
    | some p' =>
      rw [hp] at h
      obtain ⟨habs, hnames⟩ := names_of_parent hp
      rcases List.mem_cons.mp h with rfl | h
      · exact ⟨rfl, List.prefix_rfl, .inl rfl⟩
      -- Every parent is trimmed; only the path itself may not be.
      · obtain ⟨habs', hpre, htrim⟩ := ih h
        refine ⟨habs'.trans habs, ?_, .inr ?_⟩
        · exact hpre.trans (hnames ▸ List.dropLast_prefix p.names)
        · rcases htrim with rfl | htrim
          · exact isTrimmed_of_parent hp
          · exact fun hp' => htrim (habs.trans hp')

/-- The paths above a path grow shorter. -/
theorem ancestorsWithin_pairwise (n : Nat) (p : Path) :
    (ancestorsWithin n p).Pairwise fun a b => b.names <+: a.names := by
  induction n generalizing p with
  | zero => simp [ancestorsWithin]
  | succ n ih =>
    unfold ancestorsWithin
    cases hp : p.parent? with
    | none => simp
    | some p' =>
      refine List.pairwise_cons.mpr ⟨fun q hq => ?_, ih p'⟩
      obtain ⟨_, hpre, _⟩ := mem_ancestorsWithin hq
      exact hpre.trans ((names_of_parent hp).2 ▸ List.dropLast_prefix p.names)

/-- A path is the first of those above it. -/
theorem ancestors_eq_cons (p : Path) : p.ancestors = p :: p.ancestors.tail := by
  unfold ancestors
  cases p.parts.length with
  | zero => rfl
  | succ n =>
    unfold ancestorsWithin
    cases p.parent? <;> rfl

/-! ## Parts -/

/-- What a path passes through before its names. -/
def lead (p : Path) : List String :=
  if p.isAbsolute then [rootPart] else if p.body.head? = some "." then ["."] else []

theorem parts_eq (p : Path) : p.parts = p.lead ++ p.names := by
  unfold parts lead names
  split
  · rfl
  · split
    · next rest hbody => simp [hbody, isIdle]
    · next hbody =>
      rw [if_neg, List.nil_append]
      intro hhead
      obtain ⟨more, hmore⟩ := List.head?_eq_some_iff.mp hhead
      exact hbody more hmore

/-- A path keeps its lead where it goes on with a text that does not start with a dot. -/
theorem lead_join_of_head (hhead : s.toList.head? ≠ some '/')
    (hdot : (segments s).head? ≠ some ".") : (p.join s).lead = p.lead := by
  obtain ⟨segs, hp, hj⟩ := body_join_of_head (p := p) hhead
  unfold lead
  rw [isAbsolute_join_of_head hhead, hj]
  cases segs with
  | nil =>
    rcases hp with hp | hp
    · simp [hp, hdot]
    · exact absurd hp (body_ne_nil p)
  | cons t segs => rcases hp with hp | hp <;> simp [hp]

theorem lead_join (hs : IsName s) : (p.join s).lead = p.lead := by
  refine lead_join_of_head (head_ne_slash hs.2.2.2) ?_
  rw [Text.segments_of_no_slash hs.2.2.2]
  simpa using hs.2.1

theorem parts_of_isAbsolute (h : p.isAbsolute = true) : p.parts = rootPart :: p.names := by
  rw [parts_eq, lead, if_pos h, List.singleton_append]

theorem parts_join (hs : IsName s) : (p.join s).parts = p.parts ++ [s] := by
  rw [parts_eq, parts_eq, lead_join hs, names_join hs, List.append_assoc]

theorem parts_foldl_join {segs : List String} (hsegs : ∀ s ∈ segs, IsName s) :
    (segs.foldl join p).parts = p.parts ++ segs := by
  induction segs generalizing p with
  | nil => simp
  | cons s segs ih =>
    rw [List.foldl_cons, ih fun t ht => hsegs t (List.mem_cons_of_mem _ ht),
      parts_join (hsegs s (by simp))]
    simp

/-- A path whose parts go on from those of another one lies below it. -/
theorem isBelow_of_parts {q : Path} {rest : List String} (h : p.parts = q.parts ++ rest) :
    p.isBelow q = true := by
  rw [isBelow, h, List.isPrefixOf_iff_prefix]
  exact List.prefix_append _ _

/-- The last name of a path is that of a file. -/
theorem fileName_of_names {init : List String} {t : String} (hp : p.names = init ++ [t])
    (ht : IsName t) : p.fileName? = some t := by
  have hparts := parts_eq p
  have hroot : t ≠ rootPart := by
    rintro rfl
    exact ht.2.2.2 (by decide)
  simp [fileName?, hparts, hp, hroot, ht.2.1, ht.2.2.1]

/-- Another last name in the same directory. -/
theorem names_withFileName {init : List String} {t : String} (hp : p.names = init ++ [t])
    (ht : IsName t) (hs : IsName s) :
    (p.withFileName s).isAbsolute = p.isAbsolute ∧ (p.withFileName s).names = init ++ [s] := by
  have hfile := fileName_of_names hp ht
  obtain ⟨q, hq⟩ : ∃ q, p.parent? = some q := by
    cases h : p.parent? with
    | some q => exact ⟨q, rfl⟩
    | none => simp [names_of_parent_none h] at hp
  obtain ⟨habs, hnames⟩ := names_of_parent hq
  simp only [withFileName, hfile, hq]
  rw [isAbsolute_join hs.2.2.2, names_join hs, habs, hnames, hp, List.dropLast_concat]
  exact ⟨rfl, rfl⟩

/-! ## Rooted paths -/

/-- What a path that never leads up passes through are names. -/
theorem isName_of_mem_names (hup : ".." ∉ p.names) (hs : s ∈ p.names) : IsName s := by
  obtain ⟨hbody, hidle⟩ := List.mem_filter.mp hs
  simp only [isIdle, Bool.not_eq_true', Bool.or_eq_false_iff, decide_eq_false_iff_not] at hidle
  exact ⟨hidle.1, hidle.2, fun h => hup (h ▸ hs), no_slash_of_mem_body hbody⟩

/-- An absolute path that never leads up: one of plain components. -/
structure IsRooted (p : Path) : Prop where
  absolute : p.isAbsolute = true
  noUp : ".." ∉ p.names

namespace IsRooted

theorem text_ne_empty (h : p.IsRooted) : p.text ≠ "" := by
  intro hempty
  have := h.absolute
  simp [isAbsolute, hempty] at this

theorem of_above {q : Path} (h : p.IsRooted) (habs : q.isAbsolute = p.isAbsolute)
    (hnames : q.names <+: p.names) : q.IsRooted :=
  ⟨habs.trans h.absolute, fun hup => h.noUp (hnames.subset hup)⟩

theorem of_mem_ancestors {q : Path} (h : p.IsRooted) (hq : q ∈ p.ancestors) : q.IsRooted :=
  h.of_above (mem_ancestorsWithin hq).1 (mem_ancestorsWithin hq).2.1

/-- What is above a trimmed path is trimmed, too. -/
theorem above {q : Path} (h : p.IsRooted) (htrim : p.IsTrimmed) (hq : q ∈ p.ancestors) :
    q.IsRooted ∧ q.IsTrimmed := by
  refine ⟨h.of_mem_ancestors hq, ?_⟩
  rcases (mem_ancestorsWithin hq).2.2 with rfl | htrim'
  · exact htrim
  · exact htrim' h.absolute

/-- The path above a rooted one is rooted and trimmed, and its names are a part of the other's. -/
theorem of_parent {q : Path} (h : p.IsRooted) (hq : p.parent? = some q) :
    q.IsRooted ∧ q.IsTrimmed ∧ q.names <+: p.names := by
  obtain ⟨habs, hnames⟩ := names_of_parent hq
  have hpre : q.names <+: p.names := hnames ▸ List.dropLast_prefix p.names
  exact ⟨h.of_above habs hpre, isTrimmed_of_parent hq h.absolute, hpre⟩

/-- Above a path with a name stands a path without it. -/
theorem exists_parent {init : List String} (h : p.IsRooted) (hnames : p.names = init ++ [s]) :
    ∃ q, p.parent? = some q ∧ q.IsRooted ∧ q.IsTrimmed ∧ q.names = init := by
  cases hq : p.parent? with
  | none => simp [names_of_parent_none hq] at hnames
  | some q =>
    obtain ⟨hrooted, htrim, _⟩ := h.of_parent hq
    refine ⟨q, rfl, hrooted, htrim, ?_⟩
    rw [(names_of_parent hq).2, hnames, List.dropLast_concat]

/-- Every beginning of the names of a path leads to one of those above it. -/
theorem exists_mem_ancestors {names : List String} (h : p.IsRooted) (hpre : names <+: p.names) :
    ∃ q ∈ p.ancestors, q.names = names := by
  have hlength : p.names.length ≤ p.parts.length := by simp [parts_eq]
  unfold ancestors
  generalize p.parts.length = n at hlength
  induction n generalizing p with
  | zero =>
    have hnil : p.names = [] := List.length_eq_zero_iff.mp (Nat.le_zero.mp hlength)
    rw [hnil, List.prefix_nil] at hpre
    exact ⟨p, List.mem_singleton_self p, hnil.trans hpre.symm⟩
  | succ n ih =>
    rcases List.eq_nil_or_concat p.names with hnil | ⟨init, t, hconcat⟩
    · obtain rfl := List.prefix_nil.mp (hnil ▸ hpre)
      refine ⟨p, ?_, hnil⟩
      unfold ancestorsWithin
      cases p.parent? <;> simp
    · rw [List.concat_eq_append] at hconcat
      obtain ⟨q, hq, hrooted, _, hnames⟩ := h.exists_parent hconcat
      simp only [ancestorsWithin, hq]
      -- All names lead to the path itself, fewer of them to one above its parent.
      rw [hconcat, List.prefix_concat_iff] at hpre
      rcases hpre with rfl | hpre
      · exact ⟨p, List.mem_cons_self, hconcat⟩
      · obtain ⟨r, hr, hrnames⟩ := ih hrooted (hnames ▸ hpre) (by
          rw [hconcat, List.length_append, List.length_singleton] at hlength
          rw [hnames]
          omega)
        exact ⟨r, List.mem_cons_of_mem p hr, hrnames⟩

theorem join (h : p.IsRooted) (hs : IsName s) : (p.join s).IsRooted := by
  refine ⟨(isAbsolute_join hs.2.2.2).trans h.absolute, ?_⟩
  rw [names_join hs]
  simpa [h.noUp] using fun heq => hs.2.2.1 heq.symm

theorem foldl_join (h : p.IsRooted) {segs : List String} (hsegs : ∀ s ∈ segs, IsName s) :
    (segs.foldl Path.join p).IsRooted := by
  induction segs generalizing p with
  | nil => exact h
  | cons s segs ih =>
    exact ih (h.join (hsegs s (by simp))) fun t ht => hsegs t (List.mem_cons_of_mem _ ht)

theorem isName_of_mem (h : p.IsRooted) (hs : s ∈ p.names) : IsName s :=
  isName_of_mem_names h.noUp hs

theorem withFileName (h : p.IsRooted) (hs : IsName s) :
    (p.withFileName s).IsRooted ∧ (p.withFileName s).names = p.names.dropLast ++ [s] := by
  suffices hp : (p.withFileName s).isAbsolute = p.isAbsolute ∧
      (p.withFileName s).names = p.names.dropLast ++ [s] by
    refine ⟨⟨hp.1.trans h.absolute, ?_⟩, hp.2⟩
    rw [hp.2, List.mem_append, List.mem_singleton]
    rintro (hup | hup)
    · exact h.noUp (List.dropLast_subset _ hup)
    · exact hs.2.2.1 hup.symm
  rcases List.eq_nil_or_concat p.names with hnil | ⟨init, t, ht⟩
  · -- The root has no name of its own, so the file lies in the root itself.
    have hfile : p.fileName? = none := by simp [fileName?, parts_of_isAbsolute h.absolute, hnil]
    simp only [Path.withFileName, hfile]
    exact ⟨isAbsolute_join hs.2.2.2, by rw [names_join hs, hnil]; rfl⟩
  · rw [List.concat_eq_append] at ht
    rw [ht, List.dropLast_concat]
    exact names_withFileName ht (h.isName_of_mem (by simp [ht])) hs

/-- One rooted path lies below another when its names go on from there. -/
theorem isBelow_iff {q : Path} (hp : p.IsRooted) (hq : q.IsRooted) :
    p.isBelow q = true ↔ q.names <+: p.names := by
  rw [isBelow, parts_of_isAbsolute hp.absolute, parts_of_isAbsolute hq.absolute,
    List.isPrefixOf_iff_prefix, List.cons_prefix_cons]
  simp

end IsRooted

end Path

end RunCache
