import RunCache.Proofs.Document.Fields

/-! # Values as documents hold them

    Reading bounds what it gives: numbers are those of 64 bits, mappings
    are in key order, and lists and mappings are nested in one another to
    a certain depth only.

    * **`Number.InRange`**: a number that a document can hold.
    * **`Value.Fits`**: a value of at most a certain depth. -/

namespace RunCache

/-! ## Results -/

theorem of_map_ok {ε α β : Type} {r : Except ε α} {f : α → β} {b : β} (h : r.map f = .ok b) :
    ∃ a, r = .ok a ∧ f a = b := by
  cases r with
  | error e => cases h
  | ok a => exact ⟨a, rfl, Except.ok.inj h⟩

theorem of_mapError_ok {ε ε' α : Type} {r : Except ε α} {f : ε → ε'} {a : α}
    (h : r.mapError f = .ok a) : r = .ok a := by
  cases r with
  | error e => cases h
  | ok a => exact congrArg _ (Except.ok.inj h)

/-! ## Values -/

/-- An integer of 64 bits, signed or unsigned, or any float. -/
def Number.InRange : Number → Prop
  | .int n => -(twoTo 63 : Int) ≤ n ∧ n < twoTo 64
  | .float _ => True

/-- A value in which no more than `depth` lists and mappings are nested in one another. -/
inductive Value.Fits : (depth : Nat) → Value → Prop
  | null {depth : Nat} : Fits depth .null
  | bool {depth : Nat} (b : Bool) : Fits depth (.bool b)
  | number {depth : Nat} {n : Number} : n.InRange → Fits depth (.number n)
  | text {depth : Nat} (s : String) : Fits depth (.text s)
  | list {depth : Nat} {items : List Value} : (∀ v ∈ items, Fits depth v) →
    Fits (depth + 1) (.list items)
  | dict {depth : Nat} {fields : Fields Value} : fields.Sorted → (∀ e ∈ fields, Fits depth e.2) →
    Fits (depth + 1) (.dict fields)

/-- Entries of which every one fits are collected into a mapping that fits. -/
theorem Value.Fits.ofList {depth : Nat} {entries : List (String × Value)}
    (h : ∀ e ∈ entries, Fits depth e.2) : Fits (depth + 1) (.dict (Fields.ofList entries)) :=
  .dict (Fields.sorted_ofList entries) fun e he => h e (Fields.mem_of_mem_ofList he)

theorem Value.Fits.mono {depth depth' : Nat} {v : Value} (h : v.Fits depth) (hle : depth ≤ depth') :
    v.Fits depth' := by
  induction h generalizing depth' with
  | null => exact .null
  | bool b => exact .bool b
  | number hn => exact .number hn
  | text s => exact .text s
  | list _ ih =>
    obtain ⟨k, rfl⟩ : ∃ k, depth' = k + 1 := ⟨depth' - 1, by omega⟩
    exact .list fun v hv => ih v hv (by omega)
  | dict hsorted _ ih =>
    obtain ⟨k, rfl⟩ : ∃ k, depth' = k + 1 := ⟨depth' - 1, by omega⟩
    exact .dict hsorted fun e he => ih e he (by omega)

end RunCache
