import RunCache.Proofs.Yaml.Plain
import RunCache.Proofs.Yaml.Tree

/-! # Nodes are read as values

    The node that a value is written for is read as the value, as long as
    the value fits in the depth that may be read.  Conversely whatever is
    read fits in that depth.

    * **`value_valueNode`**: a written value is read back.
    * **`fits_value`**: what is read fits. -/

namespace RunCache.Yaml

variable {d : Document} {depth budget budget' : Nat} {v : Value} {n : Node} {s : String}
  {keys : Document.Keys}

/-! ## Lists of nodes -/

theorem itemNodes_eq_map (xs : List Value) : itemNodes xs = xs.map valueNode := by
  induction xs with
  | nil => rfl
  | cons x xs ih => rw [itemNodes, ih, List.map_cons]

/-! ## Written values -/

/-- A written text stands for itself, between quotes or not. -/
theorem scalarValue_text (s : String) : scalarValue {} (isBare s) s = .ok (.text s) := by
  cases h : isBare s with
  | true => exact plainValue_text h
  | false => rfl

theorem text_scalar (d : Document) (plain : Bool) (s : String) (budget : Nat) :
    d.text (.scalar {} plain s) budget = .ok (s, budget) := rfl

/-- A text that is written bare is no word for null. -/
theorem text?_scalar (d : Document) (s : String) (budget : Nat) :
    d.text? (.scalar {} (isBare s) s) budget = .ok (some s, budget) := by
  cases h : isBare s with
  | false => rfl
  | true =>
    obtain ⟨_, _, hreads⟩ := ofText_plain (of_decide_eq_true h)
    have hnull : (s.isEmpty || isNullWord s) = false := by
      by_contra hnull
      rw [Bool.not_eq_false] at hnull
      simp [readsAsText, Plain.ofText, hnull] at hreads
    simp [Document.text?, Document.follow, hnull]

theorem key_scalar (d : Document) (keys : Document.Keys) (s : String) (budget : Nat) :
    d.key keys (.scalar {} (isBare s) s) budget = .ok (s, budget) := by
  cases keys with
  | verbatim => rfl
  | resolved => simp [Document.key, Document.follow, scalarValue_text]

theorem readAll_nodes {read : Node → Reading Value} {xs : List Value}
    (h : ∀ x ∈ xs, ∀ budget, read (valueNode x) budget = .ok (x, budget)) (budget : Nat) :
    Document.readAll read (xs.map valueNode) budget = .ok (xs, budget) := by
  induction xs with
  | nil => rfl
  | cons x xs ih =>
    have hx := h x (by simp)
    have hxs := ih fun y hy => h y (List.mem_cons_of_mem _ hy)
    simp only [List.map_cons, Document.readAll, hx, hxs]

theorem readEntries_nodes {α : Type} {readKey : Node → Reading String} {read : Node → Reading α}
    (write : α → Value) {es : List (String × α)}
    (hkey : ∀ s budget, readKey (.scalar {} (isBare s) s) budget = .ok (s, budget))
    (h : ∀ e ∈ es, ∀ budget, read (valueNode (write e.2)) budget = .ok (e.2, budget))
    (budget : Nat) :
    Document.readEntries readKey read (entryNodes (es.map fun e => (e.1, write e.2))) budget =
      .ok (es, budget) := by
  induction es with
  | nil => rfl
  | cons e es ih =>
    have he := h e (by simp)
    have hes := ih fun e' he' => h e' (List.mem_cons_of_mem _ he')
    simp only [List.map_cons, entryNodes, Document.readEntries, hkey, he, hes]

/-- The node of a value is read as the value. -/
theorem value_valueNode (h : v.Fits depth) (d : Document) (keys : Document.Keys) (budget : Nat) :
    d.value keys depth (valueNode v) budget = .ok (v, budget) := by
  induction h generalizing budget with
  | null =>
    simp only [Document.value, valueNode, Document.follow]
    rfl
  | bool b =>
    simp only [Document.value, valueNode, Document.follow]
    cases b <;> rfl
  | number hn =>
    have hplain := plainValue_number hn
    simp only [Document.value, valueNode, Document.follow, scalarValue, hplain]
    rfl
  | text s =>
    simp only [Document.value, valueNode, Document.follow, scalarValue_text]
    rfl
  | list _ ih =>
    have hitems := readAll_nodes (fun x hx budget => ih x hx budget) budget
    simp only [Document.value, valueNode, Document.follow, itemNodes_eq_map, hitems]
    rfl
  | @dict depth fields hsorted _ ih =>
    have hfields := readEntries_nodes id (key_scalar d keys)
      (fun e he budget => ih e he budget) budget
    have hmap : (fields.map fun e => (e.1, id e.2)) = fields := List.map_id fields
    rw [hmap] at hfields
    simp only [Document.value, valueNode, Document.follow, hfields, Fields.ofList_of_sorted hsorted]
    rfl

/-! ## Bounds of what is read -/

theorem inRange_integer {cs : List Char} {i : Int} (h : integer? cs = some (.fits i)) :
    (Number.int i).InRange := by
  have hpos : 0 < twoTo 64 := by decide
  unfold integer? at h
  split at h
  · split at h
    · next hlt =>
      obtain rfl : ((_ : Nat) : Int) = i := by simpa using h
      exact ⟨by omega, by omega⟩
    · split at h <;> cases h
  · split at h
    · split at h
      · next hle =>
        obtain rfl : -((_ : Nat) : Int) = i := by simpa using h
        exact ⟨by omega, by omega⟩
      · split at h <;> cases h
    · cases h

theorem fits_integer {cs : List Char} {i : IntegerReading} (h : integer? cs = some i)
    (hv : i.value = .ok v) : v.Fits depth := by
  cases i with
  | fits i =>
    cases hv
    exact .number (inRange_integer h)
  | tooLarge => cases hv

theorem integer_of_plain {i : IntegerReading} (h : Plain.ofText s = .integer i) :
    integer? s.toList = some i := by
  unfold Plain.ofText at h
  split at h
  · cases h
  · split at h
    · cases h
    · split at h
      · next hi =>
        cases h
        exact hi
      · split at h
        · cases h
        · split at h
          · cases h
          · split at h <;> cases h

theorem fits_plainValue (h : plainValue s = .ok v) : v.Fits depth := by
  unfold plainValue at h
  split at h
  · cases h
    exact .null
  · cases h
    exact .bool _
  · next i hi =>
    exact fits_integer (integer_of_plain hi) h
  · cases h
    exact .null
  · cases h
    exact .number trivial
  · cases h
    exact .text s

theorem fits_scalarValue {props : Properties} {plain : Bool} (h : scalarValue props plain s = .ok v) :
    v.Fits depth := by
  -- No scalar has a value inside it, whatever it is tagged as.
  unfold scalarValue at h
  split at h
  · split at h
    · exact fits_plainValue h
    · cases h
      exact .text s
  · split at h
    · cases h
    · split at h
      · split at h
        · cases h
          exact .bool _
        · cases h
      · split at h
        · split at h
          · next hi => exact fits_integer hi h
          · cases h
        · split at h
          · split at h
            · cases h
              exact .null
            · split at h
              · cases h
                exact .number trivial
              · cases h
          · split at h
            · split at h
              · cases h
                exact .null
              · cases h
            · cases h
              exact .text s

theorem fits_readAll {read : Node → Reading Value}
    (hread : ∀ {n budget v budget'}, read n budget = .ok (v, budget') → v.Fits depth)
    {ns : List Node} {vs : List Value} (h : Document.readAll read ns budget = .ok (vs, budget')) :
    ∀ v ∈ vs, v.Fits depth := by
  induction ns generalizing budget vs with
  | nil =>
    cases h
    exact nofun
  | cons n ns ih =>
    simp only [Document.readAll] at h
    split at h
    · cases h
    · next hn =>
      split at h
      · cases h
      · next hns =>
        cases h
        exact List.forall_mem_cons.mpr ⟨hread hn, ih hns⟩

theorem fits_readEntries {α : Type} {readKey : Node → Reading α} {read : Node → Reading Value}
    (hread : ∀ {n budget v budget'}, read n budget = .ok (v, budget') → v.Fits depth)
    {ns : List (Node × Node)} {es : List (α × Value)}
    (h : Document.readEntries readKey read ns budget = .ok (es, budget')) :
    ∀ e ∈ es, e.2.Fits depth := by
  induction ns generalizing budget es with
  | nil =>
    cases h
    exact nofun
  | cons n ns ih =>
    simp only [Document.readEntries] at h
    split at h
    · cases h
    · split at h
      · cases h
      · next hn =>
        split at h
        · cases h
        · next hns =>
          cases h
          exact List.forall_mem_cons.mpr ⟨hread hn, ih hns⟩

/-- What is read from a node fits in the depth that may be read. -/
theorem fits_value (h : d.value keys depth n budget = .ok (v, budget')) : v.Fits depth := by
  induction depth using Nat.strong_induction_on generalizing n v budget budget' with
  | _ depth ih =>
    rw [Document.value.eq_def] at h
    dsimp only at h
    split at h
    · cases h
    · -- A scalar.
      obtain ⟨w, hw, heq⟩ := of_map_ok h
      cases heq
      exact fits_scalarValue hw
    · -- A list.
      split at h
      · cases h
      · split at h
        · cases h
        · split at h
          · cases h
          · next hitems =>
            cases h
            exact .list (fits_readAll (ih _ (Nat.lt_succ_self _)) hitems)
    · -- A mapping.
      split at h
      · cases h
      · split at h
        · cases h
        · split at h
          · cases h
          · next hfields =>
            cases h
            exact .ofList (fits_readEntries (ih _ (Nat.lt_succ_self _)) hfields)
    · cases h

end RunCache.Yaml
