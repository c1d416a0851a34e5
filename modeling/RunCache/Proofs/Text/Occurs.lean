import RunCache.Text.Segments

/-! # Parts of texts

    A part of a text stays one in every longer text, so what a list of
    texts is put together from can be found in the whole.

    * **`Text.holds_iff`**: a text holds exactly its parts.
    * **`Text.holds_append`**: what stands between two texts.
    * **`Text.holds_intercalate`**: each of the texts that are put
      together with a separator. -/

namespace RunCache.Text

theorem occurs_iff {pattern cs : List Char} : occurs pattern cs = true ↔ pattern <:+: cs := by
  induction cs with
  | nil =>
    show pattern.isEmpty = true ↔ _
    rw [List.isEmpty_iff, List.infix_nil]
  | cons c cs ih =>
    show (pattern.isPrefixOf (c :: cs) || occurs pattern cs) = true ↔ _
    rw [Bool.or_eq_true, List.isPrefixOf_iff_prefix, ih, List.infix_cons_iff]

theorem holds_iff {s part : String} : holds s part = true ↔ part.toList <:+: s.toList :=
  occurs_iff

theorem startsWith_append (start rest : String) : startsWith (start ++ rest) start = true := by
  rw [startsWith, List.isPrefixOf_iff_prefix, String.toList_append]
  exact List.prefix_append _ _

theorem holds_append {s part : String} (h : holds s part = true) (before behind : String) :
    holds (before ++ s ++ behind) part = true := by
  rw [holds_iff] at h ⊢
  rw [String.toList_append, String.toList_append]
  exact h.trans (List.infix_append _ _ _)

/-- Of lists put together with a separator, each one is a part of the whole. -/
theorem infix_intercalate {sep part : List Char} {parts : List (List Char)} (h : part ∈ parts) :
    part <:+: List.intercalate sep parts := by
  induction parts with
  | nil => cases h
  | cons first rest ih =>
    cases rest with
    | nil =>
      have hfirst : part = first := List.mem_singleton.mp h
      simp [hfirst]
    | cons next more =>
      rw [List.intercalate_cons_cons]
      -- The part is the first one, or it stands behind the first separator.
      rcases List.mem_cons.mp h with rfl | h
      · rw [List.append_assoc]
        exact (List.prefix_append _ _).isInfix
      · exact (ih h).trans (List.suffix_append _ _).isInfix

theorem holds_intercalate {sep part : String} {parts : List String} (h : part ∈ parts) :
    holds (sep.intercalate parts) part = true := by
  rw [holds_iff, String.toList_intercalate]
  exact infix_intercalate (List.mem_map_of_mem h)

end RunCache.Text
