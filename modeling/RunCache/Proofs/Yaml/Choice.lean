import RunCache.Proofs.Yaml.Bare
import RunCache.Proofs.Yaml.Lines

/-! # What a style is chosen for

    Every style is chosen for texts that it can hold.

    * **`ofText_plain`**, **`ofText_single`**, **`ofText_literal`**: what
      the choice says of the text.
    * **`written_allowed`**: a stream may hold a written text. -/

namespace RunCache.Yaml

variable {cs : List Char} {s : String} {c : Char}

/-! ## What the properties say -/

theorem pair_of_hasPair {p : Char → Char → Bool} (h : hasPair p cs = false) (i : Nat)
    (hi : i + 1 < cs.length) : p cs[i] cs[i + 1] = false :=
  List.isChain_iff_getElem.mp (isChain_of_hasPair h) i hi

theorem shown_of_needsEscapes (h : needsEscapes cs = false) : ∀ c ∈ cs, isShown c = true := by
  simp only [needsEscapes, Bool.or_eq_false_iff, Bool.not_eq_false', List.all_eq_true] at h
  exact h.1

theorem fitsPlain_of_allows (h : allowsPlain cs = true) (hne : cs ≠ []) : FitsPlain cs := by
  simp only [allowsPlain, Bool.not_eq_true', Bool.or_eq_false_iff] at h
  obtain ⟨⟨⟨⟨⟨hescapes, hbreaks⟩, hpadded⟩, _⟩, hmarked⟩, hmark⟩ := h
  simp only [holdsMark, Bool.or_eq_false_iff, decide_eq_false_iff_not] at hmark
  obtain ⟨⟨hcolon, hlast⟩, hhash⟩ := hmark
  simp only [isPaddedText, Bool.or_eq_false_iff] at hpadded
  have hedge : ∀ {o : Option Char}, o.any (fun c => c = ' ' || isBreak c) = false → o ≠ some ' ' := by
    rintro _ h rfl
    simp at h
  refine ⟨hne, shown_of_needsEscapes hescapes, ?_, ?_, ⟨hedge hpadded.1, ?_⟩,
    hedge hpadded.2, hlast⟩
  · simpa using hbreaks
  · -- No colon before a space and no hash behind one: such a pair would end the text.
    refine List.isChain_iff_getElem.mpr fun i hi => ⟨?_, ?_⟩
    · intro h₁ h₂
      have hpair := pair_of_hasPair hcolon i hi
      rw [h₁, h₂] at hpair
      revert hpair
      decide
    · intro h₁ h₂
      have hpair := pair_of_hasPair hhash i hi
      rw [h₁, h₂] at hpair
      revert hpair
      decide
  · intro hhead
    cases cs with
    | nil => cases hhead
    | cons d cs =>
      obtain rfl : d = '#' := Option.some.inj hhead
      revert hmarked
      simp [startsMarked, isIndicator]

theorem fitsSingle_of_allows (h : allowsSingle cs = true) (hfeed : '\n' ∉ cs) : FitsSingle cs := by
  simp only [allowsSingle, Bool.not_eq_true', Bool.or_eq_false_iff] at h
  have hspace : hasPair (fun c d => c = ' ' && isBreak d) cs = false := by
    have h := h.1
    simp only [needsEscapes, Bool.or_eq_false_iff] at h
    exact h.2
  refine ⟨shown_of_needsEscapes h.1, hfeed, List.isChain_iff_getElem.mpr fun i hi => ⟨?_, ?_⟩⟩
  · intro hc
    have hpair := pair_of_hasPair hspace i hi
    simpa [hc] using hpair
  · intro hc hd
    have hpair := pair_of_hasPair h.2 i hi
    simp [hc, hd] at hpair

/-! ## What the choice says -/

theorem ofText_plain (h : Style.ofText s = .plain) :
    FitsPlain s.toList ∧ allowsPlain s.toList = true ∧ readsAsText s = true := by
  unfold Style.ofText at h
  simp only at h
  split at h
  · split at h <;> cases h
  · split at h
    · next hplain =>
      rw [Bool.and_eq_true] at hplain
      refine ⟨fitsPlain_of_allows hplain.2 ?_, hplain.2, hplain.1⟩
      intro hnil
      have hreads := hplain.1
      rw [String.toList_eq_nil_iff.mp hnil] at hreads
      exact absurd hreads (by decide)
    · split at h <;> cases h

theorem ofText_single (h : Style.ofText s = .single) : FitsSingle s.toList := by
  unfold Style.ofText at h
  simp only at h
  split at h
  · split at h <;> cases h
  · next hfeed =>
    split at h
    · cases h
    · split at h
      · next hsingle => exact fitsSingle_of_allows hsingle (by simpa using hfeed)
      · cases h

theorem ofText_literal (h : Style.ofText s = .literal) :
    (∀ c ∈ s.toList, isShown c = true) ∧ '\n' ∈ s.toList := by
  unfold Style.ofText at h
  simp only at h
  split at h
  · next hfeed =>
    split at h
    · next hliteral =>
      simp only [allowsLiteral, Bool.not_eq_true', Bool.or_eq_false_iff] at hliteral
      exact ⟨shown_of_needsEscapes hliteral.1, by simpa using hfeed⟩
    · cases h
  · split at h
    · cases h
    · split at h <;> cases h

/-! ## Allowed characters -/

theorem isAllowed_of_isShown (h : isShown c = true) : isAllowed c = true := by
  simp only [isShown, isAllowed, Bool.or_eq_true, Bool.and_eq_true, decide_eq_true_eq] at h ⊢
  omega

theorem allowed_doubleQuoted (c : Char) : ∀ d ∈ doubleQuoted c, isAllowed d = true := by
  intro d hd
  unfold doubleQuoted at hd
  split at hd
  · obtain ⟨e, he, _, hshown, _⟩ := escaped_eq c
    rw [he] at hd
    rcases List.mem_cons.mp hd with rfl | hd
    · decide
    · exact isAllowed_of_isShown (hshown d hd).1
  · next h =>
    simp only [Bool.or_eq_true, Bool.not_eq_true', not_or, Bool.not_eq_false] at h
    rw [List.mem_singleton.mp hd]
    exact isAllowed_of_isShown h.1.1.1

theorem mem_singleQuoted {indent : Nat} {afterBreak : Bool}
    (h : c ∈ singleQuoted indent afterBreak cs) : c = ' ' ∨ c = '\'' ∨ c ∈ cs := by
  induction cs generalizing afterBreak with
  | nil =>
    rw [singleQuoted] at h
    split at h
    · exact .inl (List.eq_of_mem_replicate h)
    · cases h
  | cons d cs ih =>
    rw [singleQuoted] at h
    split at h
    · rcases List.mem_cons.mp h with rfl | h
      · exact .inr (.inr (by simp))
      · exact (ih h).imp_right fun h => h.imp_right (List.mem_cons_of_mem d)
    · rw [List.append_assoc] at h
      rcases List.mem_append.mp h with h | h
      · split at h
        · exact .inl (List.eq_of_mem_replicate h)
        · cases h
      · rcases List.mem_append.mp h with h | h
        · split at h
          · exact .inr (.inl (by simpa using h))
          · exact .inr (.inr (by simp [List.mem_singleton.mp h]))
        · exact (ih h).imp_right fun h => h.imp_right (List.mem_cons_of_mem d)

theorem mem_literalLines {indent : Nat} {afterBreak : Bool}
    (h : c ∈ literalLines indent afterBreak cs) : c = ' ' ∨ c ∈ cs := by
  induction cs generalizing afterBreak with
  | nil => cases h
  | cons d cs ih =>
    rw [literalLines] at h
    split at h
    · rcases List.mem_cons.mp h with rfl | h
      · exact .inr (by simp)
      · exact (ih h).imp_right (List.mem_cons_of_mem d)
    · rcases List.mem_append.mp h with h | h
      · split at h
        · exact .inl (List.eq_of_mem_replicate h)
        · cases h
      · rcases List.mem_cons.mp h with rfl | h
        · exact .inr (by simp)
        · exact (ih h).imp_right (List.mem_cons_of_mem d)

theorem mem_literalHeader (h : c ∈ literalHeader cs) : c ∈ ['|', '2', '+', '-'] := by
  have hchomping : ∀ c ∈ chomping cs, c ∈ ['|', '2', '+', '-'] := by
    intro c hc
    unfold chomping at hc
    split at hc
    · simp_all
    · split at hc <;> simp_all
    · split at hc
      · simp_all
      · split at hc <;> simp_all
  rw [literalHeader_eq] at h
  rcases List.mem_cons.mp h with rfl | h
  · simp
  · rcases List.mem_append.mp h with h | h
    · unfold indentMark at h
      split at h
      · simp [List.mem_singleton.mp h]
      · cases h
    · exact hchomping c h

/-- A stream may hold a written text. -/
theorem written_allowed (s : String) (indent : Nat) :
    ∀ c ∈ (Style.ofText s).write indent s.toList, isAllowed c = true := by
  intro c hc
  -- Only text between double quotes may hold what cannot be shown, and there it is escaped.
  cases hstyle : Style.ofText s with
  | plain =>
    rw [hstyle] at hc
    exact isAllowed_of_isShown ((ofText_plain hstyle).1.shown c hc)
  | single =>
    simp only [hstyle, Style.write, List.cons_append, List.mem_cons, List.mem_append,
      List.not_mem_nil, or_false] at hc
    rcases hc with rfl | hc | rfl
    · decide
    · rcases mem_singleQuoted hc with rfl | rfl | hc
      · decide
      · decide
      · exact isAllowed_of_isShown ((ofText_single hstyle).shown c hc)
    · decide
  | double =>
    simp only [hstyle, Style.write, List.cons_append, List.mem_cons, List.mem_append,
      List.not_mem_nil, or_false] at hc
    rcases hc with rfl | hc | rfl
    · decide
    · obtain ⟨d, _, hd⟩ := List.mem_flatMap.mp hc
      exact allowed_doubleQuoted d c hd
    · decide
  | literal =>
    simp only [hstyle, Style.write, List.mem_cons, List.mem_append] at hc
    rcases hc with hc | rfl | hc
    · have hheader : ∀ c ∈ ['|', '2', '+', '-'], isAllowed c = true :=
        List.all_eq_true.mp (by decide)
      exact hheader c (mem_literalHeader hc)
    · decide
    · rcases mem_literalLines hc with rfl | hc
      · decide
      · exact isAllowed_of_isShown ((ofText_literal hstyle).1 c hc)

end RunCache.Yaml
