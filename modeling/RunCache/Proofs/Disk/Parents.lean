import RunCache.Proofs.Disk.Path

/-! # Texts and parents of paths

    A path that goes on by names has the path it goes on from as its
    parent, up to segments that lead nowhere, and its text goes on by the
    names with slashes between them.

    * **`Path.trimmed`**: a path without the segments at its end that lead
      nowhere.
    * **`Path.parent_join`**, **`Path.ancestorsWithin_concat`**: going up.
    * **`Path.text_foldl_join`**, **`Path.join_joined`**: texts. -/

namespace RunCache

namespace Path

open Text (cut segments joined)

variable {p : Path} {s : String}

/-! ## Parents -/

/-- The segments of a path give it back. -/
theorem ofBody_body (p : Path) : ofBody p.isAbsolute p.body = p := by
  have hself : joined (segments p.text) = p.text := Text.joined_segments p.text
  unfold ofBody body
  cases habs : p.isAbsolute with
  | false => simp [hself]
  | true =>
    obtain ⟨cs, hcs⟩ := toList_of_isAbsolute habs
    have hsegs : segments p.text = "" :: (cut cs).map String.ofList := by
      simp [segments, hcs, Text.cut_cons_slash]
    have hne : (cut cs).map String.ofList ≠ [] := by simpa using Text.cut_ne_nil cs
    rw [hsegs, joined, String.intercalate_cons_of_ne_nil hne] at hself
    simp only [if_true, hsegs, List.tail_cons]
    rw [joined]
    exact congrArg Path.mk (by simpa using hself)

/-- The path without segments at its end that lead nowhere. -/
def trimmed (p : Path) : Path := ofBody p.isAbsolute (trimEnd p.isAbsolute p.body)

/-- Trimming takes nothing away behind a segment that leads somewhere. -/
theorem trimEnd_concat (absolute : Bool) (init : List String) (hs : isIdle s = false) :
    trimEnd absolute (init ++ [s]) = init ++ [s] := by
  have hkeep : ∀ segs : List String, ((segs ++ [s]).reverse.dropWhile isIdle).reverse =
      segs ++ [s] := by
    intro segs
    simp [hs]
  unfold trimEnd
  split
  · next rest heq =>
    cases init with
    | nil =>
      obtain ⟨hdot, _⟩ := List.cons.inj heq
      rw [hdot] at hs
      cases hs
    | cons t init =>
      obtain ⟨rfl, hrest⟩ := List.cons.inj heq
      have hrest : rest = init ++ [s] := hrest.symm
      rw [hrest, hkeep, List.cons_append]
  · exact hkeep init

/-- An empty segment at the end is trimmed. -/
theorem trimEnd_concat_empty (absolute : Bool) (init : List String) :
    trimEnd absolute (init ++ [""]) = trimEnd absolute init := by
  have hdrop : ∀ segs : List String, ((segs ++ [""]).reverse.dropWhile isIdle).reverse =
      (segs.reverse.dropWhile isIdle).reverse := by
    intro segs
    simp [isIdle]
  cases absolute with
  | true => exact hdrop init
  | false =>
    cases init with
    | nil => rfl
    | cons t init =>
      by_cases hdot : t = "."
      · subst hdot
        exact congrArg ("." :: ·) (hdrop init)
      · have hplain : ∀ segs : List String, trimEnd false (t :: segs) =
            ((t :: segs).reverse.dropWhile isIdle).reverse := by
          intro segs
          unfold trimEnd
          split
          · next heq => exact absurd (List.cons.inj heq).1 hdot
          · rfl
        rw [List.cons_append, hplain, hplain, ← List.cons_append, hdrop]

theorem joined_cons_ne_empty {s : String} (hs : s ≠ "") (segs : List String) :
    joined (s :: segs) ≠ "" := by
  cases segs with
  | nil => simpa [joined] using hs
  | cons t segs => simp [joined, String.intercalate_cons_cons, hs]

/-- A path that is not absolute still starts with a segment once it is trimmed. -/
theorem exists_trimEnd_cons (habs : p.isAbsolute = false) (hne : p.text ≠ "") :
    ∃ s segs, trimEnd false p.body = s :: segs ∧ s ≠ "" := by
  obtain ⟨idle, hbody, hidle, _⟩ := trimEnd_eq_append false p.body
  obtain ⟨s, segs, hsegs⟩ := List.exists_cons_of_ne_nil (body_ne_nil p)
  have hs := head_body_ne_empty habs hne hsegs
  cases htrim : trimEnd false p.body with
  | nil =>
    -- A first segment that leads nowhere is a dot, which stays.
    rw [htrim, List.nil_append, hsegs] at hbody
    have hdot := hidle s (by simp [← hbody])
    simp only [isIdle, Bool.or_eq_true, decide_eq_true_eq, hs, false_or] at hdot
    rw [hsegs, hdot] at htrim
    cases htrim
  | cons t more =>
    rw [htrim, hsegs, List.cons_append] at hbody
    exact ⟨t, more, rfl, (List.cons.inj hbody).1 ▸ hs⟩

theorem text_trimmed_ne_empty (hne : p.text ≠ "") : p.trimmed.text ≠ "" := by
  cases habs : p.isAbsolute with
  | true => simp [trimmed, ofBody, habs]
  | false =>
    obtain ⟨s, segs, hcons, hs⟩ := exists_trimEnd_cons habs hne
    simpa [trimmed, ofBody, habs, hcons] using joined_cons_ne_empty hs segs

/-- A path that ends with a name is trimmed. -/
theorem trimmed_join (hs : IsName s) : (p.join s).trimmed = p.join s := by
  obtain ⟨segs, _, hj⟩ := body_join (p := p) hs.2.2.2
  rw [trimmed, hj, trimEnd_concat _ _ hs.not_idle, ← hj, ofBody_body]

/-- Above a path that goes on by a name stands the path it goes on from. -/
theorem parent_join (hs : IsName s) : (p.join s).parent? = some p.trimmed := by
  obtain ⟨segs, hp, hj⟩ := body_join (p := p) hs.2.2.2
  have htrim : trimEnd p.isAbsolute segs = trimEnd p.isAbsolute p.body := by
    rcases hp with hp | hp
    · rw [hp, trimEnd_concat_empty]
    · rw [hp]
  unfold parent?
  rw [hj, trimEnd_concat _ _ hs.not_idle, isAbsolute_join hs.2.2.2]
  obtain ⟨t, more, ht⟩ : ∃ t more, segs ++ [s] = t :: more :=
    List.exists_cons_of_ne_nil (by simp)
  rw [ht]
  simp only
  rw [← ht, List.dropLast_concat, htrim, trimmed]

/-- Of segments and a part of them at the start, the path of the part is where the other path
    starts. -/
theorem text_ofBody_of_isPrefix {l m : List String} (h : l <+: m) (absolute : Bool) :
    ∃ more, (ofBody absolute m).text = (ofBody absolute l).text ++ more := by
  obtain ⟨rest, rfl⟩ := h
  by_cases hl : l = []
  · exact ⟨joined rest, by simp [ofBody, joined, hl]⟩
  · by_cases hrest : rest = []
    · exact ⟨"", by simp [hrest]⟩
    · refine ⟨"/" ++ joined rest, ?_⟩
      simp only [ofBody, joined, String.intercalate_append_of_ne_nil hl hrest, String.append_assoc]

/-- A path starts with its trimmed form, and with what is above it. -/
theorem text_trimmed (p : Path) : ∃ more, p.text = p.trimmed.text ++ more := by
  obtain ⟨more, hmore⟩ :=
    text_ofBody_of_isPrefix (trimEnd_isPrefix p.isAbsolute p.body) p.isAbsolute
  rw [ofBody_body] at hmore
  exact ⟨more, hmore⟩

theorem text_of_parent {q : Path} (h : p.parent? = some q) : ∃ more, p.text = q.text ++ more := by
  unfold parent? at h
  split at h
  · cases h
  · next s segs htrim =>
    obtain rfl := Option.some.inj h
    have hpre : trimEnd p.isAbsolute (s :: segs).dropLast <+: p.body := by
      apply ((trimEnd_isPrefix _ _).trans (List.dropLast_prefix _)).trans
      rw [← htrim]
      exact trimEnd_isPrefix p.isAbsolute p.body
    obtain ⟨more, hmore⟩ := text_ofBody_of_isPrefix hpre p.isAbsolute
    rw [ofBody_body] at hmore
    exact ⟨more, hmore⟩

theorem ancestorsWithin_eq_cons (n : Nat) (p : Path) :
    ∃ rest, ancestorsWithin n p = p :: rest := by
  cases n with
  | zero => exact ⟨[], rfl⟩
  | succ n =>
    unfold ancestorsWithin
    cases p.parent? <;> exact ⟨_, rfl⟩

/-- Above a path that goes on by names stand the paths of fewer names. -/
theorem ancestorsWithin_concat {init : List String} (hs : IsName s) (n : Nat) :
    ancestorsWithin (n + 1) ((init ++ [s]).foldl join p).trimmed =
      (init ++ [s]).foldl join p :: ancestorsWithin n (init.foldl join p).trimmed := by
  rw [List.foldl_append, List.foldl_cons, List.foldl_nil, trimmed_join hs, ancestorsWithin,
    parent_join hs]

/-- A path that goes on by names has at least as many parts. -/
theorem length_le_parts_trimmed {segs : List String} (hsegs : ∀ s ∈ segs, IsName s) :
    segs.length ≤ (segs.foldl join p).trimmed.parts.length := by
  rcases List.eq_nil_or_concat segs with rfl | ⟨init, s, rfl⟩
  · exact Nat.zero_le _
  · rw [List.concat_eq_append] at hsegs ⊢
    have htrim : ((init ++ [s]).foldl join p).trimmed = (init ++ [s]).foldl join p := by
      rw [List.foldl_append, List.foldl_cons, List.foldl_nil, trimmed_join (hsegs s (by simp))]
    rw [htrim, parts_foldl_join hsegs]
    simp

/-- Another last name behind names. -/
theorem withFileName_concat {init : List String} {t : String} (hnames : ∀ s ∈ init ++ [t], IsName s)
    (hne : init ≠ []) (s : String) :
    ((init ++ [t]).foldl join p).withFileName s = (init ++ [s]).foldl join p := by
  have ht := hnames t (by simp)
  have hfile : ((init ++ [t]).foldl join p).fileName? = some t :=
    @fileName_of_names _ (p.names ++ init) _
      (by rw [names_foldl_join hnames, List.append_assoc]) ht
  have hparent : ((init ++ [t]).foldl join p).parent? = some (init.foldl join p) := by
    obtain ⟨more, u, rfl⟩ : ∃ more u, init = more ++ [u] :=
      ⟨_, _, (List.dropLast_append_getLast hne).symm⟩
    rw [List.foldl_append, List.foldl_cons, List.foldl_nil, parent_join ht, List.foldl_append,
      List.foldl_cons, List.foldl_nil, trimmed_join (hnames u (by simp))]
  simp only [withFileName, hfile, hparent]
  rw [List.foldl_append, List.foldl_cons, List.foldl_nil]

/-! ## Texts -/

/-- Going down puts a text behind the path with a slash at its end. -/
theorem text_join_eq {t : String} (hhead : t.toList.head? ≠ some '/') :
    (p.join t).text = (p.join "").text ++ t := by
  have hempty : ("" : String).toList.head? ≠ some '/' := by simp
  unfold join
  rw [if_neg hhead, if_neg hempty]
  split
  · simp
  · simp [String.append_assoc]

/-- A path that ends with a name does not end with a slash. -/
theorem endsWithSlash_join (hs : IsName s) : (p.join s).endsWithSlash = false := by
  obtain ⟨segs, _, hj⟩ := body_join (p := p) hs.2.2.2
  cases hslash : (p.join s).endsWithSlash with
  | false => rfl
  | true =>
    have hlast := getLast_body_of_endsWithSlash hslash
    rw [hj, List.getLast?_concat] at hlast
    exact absurd (Option.some.inj hlast) hs.1

theorem endsWithSlash_foldl_join {segs : List String} (hsegs : ∀ s ∈ segs, IsName s)
    (hne : segs ≠ []) : (segs.foldl join p).endsWithSlash = false := by
  obtain ⟨init, l, rfl⟩ : ∃ init l, segs = init ++ [l] :=
    ⟨_, _, (List.dropLast_append_getLast hne).symm⟩
  rw [List.foldl_append, List.foldl_cons, List.foldl_nil]
  exact endsWithSlash_join (hsegs l (by simp))

/-- Names followed from a path stand in its text behind a slash. -/
theorem text_foldl_join {segs : List String} (hsegs : ∀ s ∈ segs, IsName s) (hne : segs ≠ []) :
    (segs.foldl join p).text = (p.join "").text ++ joined segs := by
  induction segs generalizing p with
  | nil => exact absurd rfl hne
  | cons s rest ih =>
    have hs := hsegs s (by simp)
    have htext := text_join_eq (p := p) (head_ne_slash hs.2.2.2)
    rw [List.foldl_cons]
    by_cases hrest : rest = []
    · rw [hrest, List.foldl_nil, htext]
      simp [joined]
    · -- A path that ends with a name gets a slash at its end.
      have hslash : ((p.join s).join "").text = (p.join s).text ++ "/" := by
        have hplain : ((p.join s).text.isEmpty || (p.join s).endsWithSlash) = false := by
          simpa [endsWithSlash_join hs] using text_join_ne_empty hs
        rw [join, if_neg (by simp), if_neg (by simp [hplain])]
        simp
      rw [ih (fun t ht => hsegs t (List.mem_cons_of_mem s ht)) hrest, hslash, htext, joined, joined,
        String.intercalate_cons_of_ne_nil hrest]
      simp [String.append_assoc]

theorem head_joined_ne_slash {segs : List String} (hsegs : ∀ s ∈ segs, IsName s) (hne : segs ≠ []) :
    (joined segs).toList.head? ≠ some '/' := by
  intro hslash
  obtain ⟨cs, hcs⟩ := List.head?_eq_some_iff.mp hslash
  -- A text that starts with a slash has an empty segment before it.
  have hcut := Text.segments_joined hne fun s hs => (hsegs s hs).2.2.2
  rw [segments, hcs, Text.cut_cons_slash, List.map_cons] at hcut
  exact (hsegs "" (by rw [← hcut]; simp)).1 rfl

/-- Following a text of several names is following the names. -/
theorem join_joined {segs : List String} (hsegs : ∀ s ∈ segs, IsName s) (hne : segs ≠ []) :
    p.join (joined segs) = segs.foldl join p := by
  have htext := (text_join_eq (p := p) (head_joined_ne_slash hsegs hne)).trans
    (text_foldl_join hsegs hne).symm
  exact congrArg Path.mk htext

end Path

end RunCache
