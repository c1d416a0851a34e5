import RunCache.Text.Segments

/-! # Cutting and joining

    Segments are what lies between slashes: none of them holds one, joining
    them gives the text back, and joined texts are cut apart again. -/

namespace RunCache.Text

/-! ## Characters -/

theorem cut_ne_nil (cs : List Char) : cut cs ≠ [] := by
  cases cs with
  | nil => simp [cut]
  | cons c cs =>
    unfold cut
    split
    · simp
    · split <;> simp

theorem cut_cons_slash (cs : List Char) : cut ('/' :: cs) = [] :: cut cs := by
  simp [cut]

theorem cut_cons_of_ne {c : Char} (hc : c ≠ '/') {cs s : List Char} {rest : List (List Char)}
    (h : cut cs = s :: rest) : cut (c :: cs) = (c :: s) :: rest := by
  simp [cut, hc, h]

/-- A slash cuts a text in two. -/
theorem cut_append_slash (a b : List Char) : cut (a ++ '/' :: b) = cut a ++ cut b := by
  induction a with
  | nil => simp [cut]
  | cons c a ih =>
    by_cases hc : c = '/'
    · subst hc
      rw [List.cons_append, cut_cons_slash, cut_cons_slash, ih, List.cons_append]
    · obtain ⟨s, rest, hs⟩ := List.exists_cons_of_ne_nil (cut_ne_nil a)
      rw [hs] at ih
      rw [List.cons_append, cut_cons_of_ne hc ih, cut_cons_of_ne hc hs]
      rfl

theorem cut_of_no_slash {s : List Char} (h : '/' ∉ s) : cut s = [s] := by
  induction s with
  | nil => rfl
  | cons c s ih =>
    have hc : c ≠ '/' := fun hc => h (by simp [hc])
    exact cut_cons_of_ne hc (ih fun hs => h (List.mem_cons_of_mem _ hs))

theorem no_slash_of_mem_cut {cs s : List Char} (h : s ∈ cut cs) : '/' ∉ s := by
  induction cs generalizing s with
  | nil => simp_all [cut]
  | cons c cs ih =>
    by_cases hc : c = '/'
    · subst hc
      rw [cut_cons_slash] at h
      rcases List.mem_cons.mp h with rfl | h
      · simp
      · exact ih h
    · obtain ⟨t, rest, ht⟩ := List.exists_cons_of_ne_nil (cut_ne_nil cs)
      rw [cut_cons_of_ne hc ht] at h
      rw [ht] at ih
      rcases List.mem_cons.mp h with rfl | h
      · have := ih (List.mem_cons_self (a := t) (l := rest))
        simp [Ne.symm hc, this]
      · exact ih (List.mem_cons_of_mem _ h)

/-- Joining what has been cut gives it back. -/
theorem intercalate_cut (cs : List Char) : List.intercalate ['/'] (cut cs) = cs := by
  induction cs with
  | nil => rfl
  | cons c cs ih =>
    obtain ⟨t, rest, ht⟩ := List.exists_cons_of_ne_nil (cut_ne_nil cs)
    by_cases hc : c = '/'
    · subst hc
      rw [cut_cons_slash, ht, List.intercalate_cons_cons, ← ht, ih]
      rfl
    · rw [cut_cons_of_ne hc ht]
      rw [ht] at ih
      cases rest with
      | nil => simpa using ih
      | cons u rest =>
        rw [List.intercalate_cons_cons] at ih ⊢
        simp [ih]

theorem cut_intercalate {segs : List (List Char)} (hne : segs ≠ [])
    (h : ∀ s ∈ segs, '/' ∉ s) : cut (List.intercalate ['/'] segs) = segs := by
  induction segs with
  | nil => exact absurd rfl hne
  | cons s segs ih =>
    have hs := cut_of_no_slash (h s (by simp))
    cases segs with
    | nil => simpa using hs
    | cons t segs =>
      have hrest := ih (by simp) fun u hu => h u (List.mem_cons_of_mem _ hu)
      rw [List.intercalate_cons_cons, List.append_assoc, List.singleton_append, cut_append_slash,
        hs, hrest]
      rfl

/-! ## Texts -/

theorem segments_ne_nil (s : String) : segments s ≠ [] := by
  simpa [segments] using cut_ne_nil s.toList

theorem segments_append_slash (a b : String) :
    segments (a ++ "/" ++ b) = segments a ++ segments b := by
  have htext : (a ++ "/" ++ b).toList = a.toList ++ '/' :: b.toList := by simp
  simp only [segments, htext, cut_append_slash, List.map_append]

theorem segments_of_no_slash {s : String} (h : '/' ∉ s.toList) : segments s = [s] := by
  simp [segments, cut_of_no_slash h]

theorem no_slash_of_mem_segments {s t : String} (h : t ∈ segments s) : '/' ∉ t.toList := by
  obtain ⟨cs, hcs, rfl⟩ := List.mem_map.mp h
  simpa using no_slash_of_mem_cut hcs

/-- Joining the segments of a text gives it back. -/
@[simp] theorem joined_segments (s : String) : joined (segments s) = s := by
  apply String.toList_injective
  have hmap : ((cut s.toList).map String.ofList).map String.toList = cut s.toList := by
    simp [Function.comp_def]
  rw [joined, String.toList_intercalate, segments, hmap]
  exact intercalate_cut s.toList

/-- Joined segments are cut apart again. -/
theorem segments_joined {segs : List String} (hne : segs ≠ [])
    (h : ∀ s ∈ segs, '/' ∉ s.toList) : segments (joined segs) = segs := by
  have hcut : cut (List.intercalate ['/'] (segs.map String.toList)) = segs.map String.toList := by
    refine cut_intercalate (by simpa using hne) fun cs hcs => ?_
    obtain ⟨s, hs, rfl⟩ := List.mem_map.mp hcs
    exact h s hs
  have hslash : "/".toList = ['/'] := rfl
  rw [segments, joined, String.toList_intercalate, hslash, hcut]
  simp [Function.comp_def]

/-- What is put behind a text and holds no slash is put behind its last segment. -/
theorem segments_append_of_no_slash (s : String) {t : String} (ht : '/' ∉ t.toList) :
    ∃ init last, segments s = init ++ [last] ∧ segments (s ++ t) = init ++ [last ++ t] := by
  obtain ⟨init, last, hsegs⟩ : ∃ init last, segments s = init ++ [last] :=
    ⟨_, _, (List.dropLast_concat_getLast (segments_ne_nil s)).symm⟩
  refine ⟨init, last, hsegs, ?_⟩
  have hslash : ∀ x ∈ init ++ [last], '/' ∉ x.toList :=
    fun x hx => no_slash_of_mem_segments (hsegs ▸ hx)
  have hlast : segments (last ++ t) = [last ++ t] := by
    refine segments_of_no_slash ?_
    simpa [ht] using hslash last (by simp)
  have hs : s = joined (init ++ [last]) := by rw [← hsegs, joined_segments]
  -- A single segment is the whole text; else a slash stands before the last one.
  by_cases hnil : init = []
  · have hone : s = last := by simpa [hnil, joined, String.intercalate_singleton] using hs
    rw [hnil, hone, hlast, List.nil_append]
  · have htwo : s = joined init ++ "/" ++ last := by
      rw [hs, joined, String.intercalate_append_of_ne_nil hnil (by simp),
        String.intercalate_singleton, ← joined]
    have happ : s ++ t = joined init ++ "/" ++ (last ++ t) := by
      rw [htwo, String.append_assoc]
    rw [happ, segments_append_slash, hlast,
      segments_joined hnil fun x hx => hslash x (List.mem_append_left _ hx)]

/-- The first segment of a text that is put behind another one goes on from the last segment of
    that. -/
theorem segments_append (s t : String) : ∃ init last first more, segments s = init ++ [last] ∧
    segments t = first :: more ∧ segments (s ++ t) = init ++ (last ++ first) :: more := by
  obtain ⟨first, more, ht⟩ := List.exists_cons_of_ne_nil (segments_ne_nil t)
  have hslash : ∀ x ∈ first :: more, '/' ∉ x.toList :=
    fun x hx => no_slash_of_mem_segments (ht ▸ hx)
  obtain ⟨init, last, hs, happ⟩ := segments_append_of_no_slash s (hslash first (by simp))
  refine ⟨init, last, first, more, hs, ht, ?_⟩
  have htext : t = joined (first :: more) := by rw [← ht, joined_segments]
  by_cases hmore : more = []
  · have hone : t = first := by simpa [hmore, joined, String.intercalate_singleton] using htext
    rw [hone, happ, hmore]
  · have hcut : s ++ t = s ++ first ++ "/" ++ joined more := by
      rw [htext, joined, String.intercalate_cons_of_ne_nil hmore, joined]
      simp only [String.append_assoc]
    rw [hcut, segments_append_slash, happ,
      segments_joined hmore fun x hx => hslash x (List.mem_cons_of_mem _ hx), List.append_assoc,
      List.singleton_append]

/-- A text that does not start with a slash starts with a segment that is not empty, if there is
    more than one. -/
theorem head_segments_ne_empty {s first : String} {more : List String}
    (h : segments s = first :: more) (hmore : more ≠ []) (hhead : s.toList.head? ≠ some '/') :
    first ≠ "" := by
  rintro rfl
  have hs : s = "" ++ "/" ++ joined more := by
    rw [← joined_segments s, h, joined, String.intercalate_cons_of_ne_nil hmore, joined]
  rw [hs] at hhead
  simp at hhead

end RunCache.Text
