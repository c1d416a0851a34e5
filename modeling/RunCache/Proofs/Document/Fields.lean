import Mathlib.Data.String.Basic
import RunCache.Document.Value

/-! # Mappings in key order

    * **`Fields.get_insert`**: an entry that is added is found, and changes
      no other one.
    * **`Fields.Sorted.ext`**: a mapping in key order is known by what is
      found in it.
    * **`Fields.ofList_of_sorted`**: collecting entries that are in key
      order changes nothing.
    * **`Fields.get_ofList_append`**, **`Fields.Sorted.get_filter`**: what
      is found among collected entries and among those that are left. -/

namespace RunCache

namespace Fields

variable {α : Type} {fields fields' : Fields α} {key k : String} {value v : α}

/-! ## Finding entries -/

@[simp] theorem get_nil (key : String) : get? ([] : Fields α) key = none := rfl

theorem get_cons (k : String) (v : α) (rest : Fields α) (key : String) :
    get? ((k, v) :: rest) key = if k = key then some v else get? rest key := by
  by_cases h : k = key <;> simp [get?, h]

theorem get_insert (fields : Fields α) (key : String) (value : α) (k : String) :
    (fields.insert key value).get? k = if key = k then some value else fields.get? k := by
  induction fields with
  | nil => rw [insert, get_cons]
  | cons e rest ih =>
    obtain ⟨k', v⟩ := e
    unfold insert
    split
    · rw [get_cons]
    · split
      · next heq =>
        rw [get_cons, get_cons, ← heq]
        split <;> rfl
      · next hne =>
        rw [get_cons, ih, get_cons]
        -- The entry stands further down, so its key differs from the first one.
        by_cases hk : k' = k
        · have hkey : key ≠ k := fun h => hne (h.trans hk.symm)
          rw [if_pos hk, if_neg hkey, if_pos hk]
        · rw [if_neg hk, if_neg hk]

theorem mem_of_get (h : fields.get? key = some value) : (key, value) ∈ fields := by
  unfold get? at h
  obtain ⟨e, hfind, rfl⟩ := Option.map_eq_some_iff.mp h
  have hkey : e.1 = key := by simpa using List.find?_some hfind
  rw [← hkey]
  exact List.mem_of_find?_eq_some hfind

/-- The key of an entry has a value, if not that of this entry. -/
theorem isSome_get_of_mem {e : String × α} (h : e ∈ fields) : (fields.get? e.1).isSome := by
  simp only [get?, Option.isSome_map, List.find?_isSome, decide_eq_true_eq]
  exact ⟨e, h, rfl⟩

/-! ## Key order -/

/-- The keys stand in increasing order. -/
def Sorted (fields : Fields α) : Prop := fields.Pairwise fun a b => a.1 < b.1

theorem sorted_nil : Sorted ([] : Fields α) := List.Pairwise.nil

theorem mem_insert {e : String × α} (h : e ∈ fields.insert key value) :
    e = (key, value) ∨ e ∈ fields := by
  induction fields with
  | nil => exact .inl (List.mem_singleton.mp h)
  | cons e' rest ih =>
    obtain ⟨k', v⟩ := e'
    unfold insert at h
    split at h
    · exact List.mem_cons.mp h
    · split at h
      · rcases List.mem_cons.mp h with rfl | h
        · exact .inl rfl
        · exact .inr (List.mem_cons_of_mem _ h)
      · rcases List.mem_cons.mp h with rfl | h
        · exact .inr (by simp)
        · exact (ih h).imp id (List.mem_cons_of_mem _)

theorem Sorted.insert (h : Sorted fields) (key : String) (value : α) :
    Sorted (fields.insert key value) := by
  induction fields with
  | nil => exact List.pairwise_singleton _ _
  | cons e rest ih =>
    obtain ⟨k', v⟩ := e
    obtain ⟨hhead, hrest⟩ := List.pairwise_cons.mp h
    unfold Fields.insert
    split
    · next hlt =>
      refine List.pairwise_cons.mpr ⟨fun e he => ?_, h⟩
      rcases List.mem_cons.mp he with rfl | he
      · exact hlt
      · exact lt_trans hlt (hhead e he)
    · next hnot =>
      split
      · next heq =>
        subst heq
        exact List.pairwise_cons.mpr ⟨hhead, hrest⟩
      · next hne =>
        refine List.pairwise_cons.mpr ⟨fun e he => ?_, ih hrest⟩
        -- What stands behind is old, or the new entry, whose key comes after the first one.
        rcases mem_insert he with rfl | he
        · exact lt_of_le_of_ne (not_lt.mp hnot) (Ne.symm hne)
        · exact hhead e he

theorem get_of_lt (hlt : ∀ e ∈ fields, k < e.1) : fields.get? k = none := by
  cases hget : fields.get? k with
  | none => rfl
  | some v => exact absurd (hlt _ (mem_of_get hget)) (lt_irrefl k)

/-- No key that is found comes before the first one. -/
theorem Sorted.le_of_get {rest : Fields α} (h : Sorted ((key, value) :: rest))
    (hget : get? ((key, value) :: rest) k = some v) : key ≤ k := by
  by_contra hnot
  have hlt := not_le.mp hnot
  have hnone : get? ((key, value) :: rest) k = none := get_of_lt fun e he => by
    rcases List.mem_cons.mp he with rfl | he
    · exact hlt
    · exact lt_trans hlt ((List.pairwise_cons.mp h).1 e he)
  rw [hnone] at hget
  cases hget

/-- In key order each entry is found under its key. -/
theorem Sorted.get_of_mem (h : Sorted fields) (hmem : (key, value) ∈ fields) :
    fields.get? key = some value := by
  induction fields with
  | nil => cases hmem
  | cons e rest ih =>
    obtain ⟨k', v⟩ := e
    obtain ⟨hhead, hrest⟩ := List.pairwise_cons.mp h
    rw [get_cons]
    rcases List.mem_cons.mp hmem with heq | hmem
    · obtain ⟨rfl, rfl⟩ := Prod.mk.inj heq
      rw [if_pos rfl]
    · have hlt : k' < key := hhead _ hmem
      rw [if_neg hlt.ne, ih hrest hmem]

/-- Mappings in key order in which the same is found under every key are the same. -/
theorem Sorted.ext (h : Sorted fields) (h' : Sorted fields')
    (hget : ∀ k, fields.get? k = fields'.get? k) : fields = fields' := by
  have hself : ∀ (k : String) (v : α) (rest : Fields α), get? ((k, v) :: rest) k = some v :=
    fun k v rest => by rw [get_cons, if_pos rfl]
  induction fields generalizing fields' with
  | nil =>
    cases fields' with
    | nil => rfl
    | cons e rest =>
      obtain ⟨k, v⟩ := e
      have hsome := hget k
      rw [hself] at hsome
      cases hsome
  | cons e rest ih =>
    obtain ⟨k, v⟩ := e
    cases fields' with
    | nil =>
      have hsome := hget k
      rw [hself] at hsome
      cases hsome
    | cons e' rest' =>
      obtain ⟨k', v'⟩ := e'
      -- Each first key is found in the other mapping, so neither comes before the other.
      have hkey : k = k' :=
        le_antisymm (h.le_of_get ((hget k').trans (hself k' v' rest')))
          (h'.le_of_get ((hget k).symm.trans (hself k v rest)))
      subst hkey
      obtain ⟨hhead, hrest⟩ := List.pairwise_cons.mp h
      obtain ⟨hhead', hrest'⟩ := List.pairwise_cons.mp h'
      have hv := hget k
      rw [hself, hself] at hv
      obtain rfl := Option.some.inj hv
      refine congrArg _ (ih hrest hrest' fun l => ?_)
      by_cases hl : k = l
      · subst hl
        rw [get_of_lt hhead, get_of_lt hhead']
      · simpa [get_cons, hl] using hget l

/-! ## Collected entries -/

/-- An entry behind all others is added at the end. -/
theorem insert_last (hlt : ∀ e ∈ fields, e.1 < key) (value : α) :
    fields.insert key value = fields ++ [(key, value)] := by
  induction fields with
  | nil => rfl
  | cons e rest ih =>
    obtain ⟨k', v⟩ := e
    have hfirst : k' < key := hlt (k', v) (by simp)
    have hrest := ih fun e he => hlt e (List.mem_cons_of_mem _ he)
    rw [insert, if_neg (not_lt.mpr hfirst.le), if_neg hfirst.ne', hrest, List.cons_append]

theorem foldl_insert {entries : List (String × α)} (h : Sorted (fields ++ entries)) :
    entries.foldl (fun fields e => fields.insert e.1 e.2) fields = fields ++ entries := by
  induction entries generalizing fields with
  | nil => exact (List.append_nil fields).symm
  | cons e entries ih =>
    have hlt : ∀ e' ∈ fields, e'.1 < e.1 := fun e' he' =>
      (List.pairwise_append.mp h).2.2 e' he' e (by simp)
    rw [List.foldl_cons, insert_last hlt, ih (by simpa using h), List.append_assoc,
      List.singleton_append]

theorem ofList_of_sorted (h : Sorted fields) : ofList fields = fields := foldl_insert h

theorem sorted_foldl_insert (h : Sorted fields) (entries : List (String × α)) :
    Sorted (entries.foldl (fun fields e => fields.insert e.1 e.2) fields) := by
  induction entries generalizing fields with
  | nil => exact h
  | cons e entries ih => exact ih (h.insert e.1 e.2)

theorem sorted_ofList (entries : List (String × α)) : Sorted (ofList entries) :=
  sorted_foldl_insert sorted_nil entries

theorem mem_foldl_insert {entries : List (String × α)} {e : String × α}
    (h : e ∈ entries.foldl (fun fields e => fields.insert e.1 e.2) fields) :
    e ∈ fields ∨ e ∈ entries := by
  induction entries generalizing fields with
  | nil => exact .inl h
  | cons e' entries ih =>
    rcases ih h with h | h
    · rcases mem_insert h with rfl | h
      · exact .inr (by simp)
      · exact .inl h
    · exact .inr (List.mem_cons_of_mem _ h)

theorem get_foldl_insert (entries : List (String × α)) (fields : Fields α) (k : String) :
    (entries.foldl (fun fields e => fields.insert e.1 e.2) fields).get? k =
      ((ofList entries).get? k).or (fields.get? k) := by
  induction entries generalizing fields with
  | nil => rfl
  | cons e entries ih =>
    have hfirst : (ofList (e :: entries)).get? k =
        ((ofList entries).get? k).or (get? (insert e.1 e.2 []) k) := ih _
    rw [List.foldl_cons, ih, hfirst, Option.or_assoc, get_insert, get_insert]
    split <;> rfl

/-- Of two lists of entries the later one is looked up first. -/
theorem get_ofList_append (entries entries' : List (String × α)) (k : String) :
    (ofList (entries ++ entries')).get? k =
      ((ofList entries').get? k).or ((ofList entries).get? k) := by
  rw [ofList, List.foldl_append, get_foldl_insert]
  rfl

/-- Collecting makes no entry up. -/
theorem mem_of_mem_ofList {entries : List (String × α)} {e : String × α} (h : e ∈ ofList entries) :
    e ∈ entries :=
  (mem_foldl_insert h).resolve_left nofun

/-! ## Changed and dropped entries -/

/-- Changing all values keeps the places of the keys. -/
theorem map_insert {β : Type} (f : α → β) (fields : Fields α) (key : String) (value : α) :
    ((fields.insert key value).map fun e => (e.1, f e.2)) =
      insert key (f value) (fields.map fun e => (e.1, f e.2)) := by
  induction fields with
  | nil => rfl
  | cons e fields ih =>
    obtain ⟨k, v⟩ := e
    simp only [List.map_cons, insert]
    split
    · rfl
    · split
      · rfl
      · rw [List.map_cons, ih]

theorem Sorted.map {β : Type} (h : Sorted fields) (f : α → β) :
    Sorted (fields.map fun e => (e.1, f e.2)) := List.pairwise_map.mpr h

/-- What is found among the entries that are left. -/
theorem Sorted.get_filter (h : Sorted fields) (p : String × α → Bool) (k : String) :
    get? (fields.filter p) k = (fields.get? k).filter fun v => p (k, v) := by
  induction fields with
  | nil => rfl
  | cons e fields ih =>
    obtain ⟨key, v⟩ := e
    obtain ⟨hhead, hrest⟩ := List.pairwise_cons.mp h
    rw [get_cons, List.filter_cons]
    by_cases hkey : key = k
    · subst hkey
      -- The key does not come again.
      have hnone : get? (fields.filter p) key = none :=
        get_of_lt fun e he => hhead e (List.mem_filter.mp he).1
      cases hp : p (key, v) <;> simp [hp, get_cons, hnone, Option.filter]
    · rw [if_neg hkey, ← ih hrest]
      split
      · rw [get_cons, if_neg hkey]
      · rfl

end Fields

end RunCache
