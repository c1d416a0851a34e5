import RunCache.Json.Reader
import RunCache.Proofs.Document.Depth

/-! # What a JSON text holds is bounded

    Integers have 64 bits, everything else among the numbers is a float,
    and the trees are nested to a certain depth only.

    * **`holds_readNumber`**: the numbers.
    * **`Tree.Within`**, **`within_read`**: the trees.
    * **`Tree.Within.fits`**: their values. -/

namespace RunCache.Json

/-! ## Numbers -/

/-- A number that was read is one that a document can hold. -/
def Holds (r : Except Fault (Number × Rest)) : Prop := ∀ n rest, r = .ok (n, rest) → n.InRange

theorem holds_error (e : Fault) : Holds (.error e) := by
  intro n rest h
  cases h

theorem holds_ok {n : Number} (h : n.InRange) (rest : Rest) : Holds (.ok (n, rest)) := by
  rintro _ _ ⟨⟩
  exact h

theorem holds_float (x : Binary64) (rest : Rest) : Holds (.ok (.float x, rest)) :=
  holds_ok (n := .float x) trivial rest

theorem holds_int {i : Int} (hlow : -(twoTo 63 : Int) ≤ i) (hhigh : i < twoTo 64) (rest : Rest) :
    Holds (.ok (.int i, rest)) :=
  holds_ok (n := .int i) ⟨hlow, hhigh⟩ rest

theorem Holds.ite {p : Prop} [Decidable p] {r r' : Except Fault (Number × Rest)} (h : p → Holds r)
    (h' : ¬ p → Holds r') : Holds (if p then r else r') := by
  split
  · next hp => exact h hp
  · next hp => exact h' hp

theorem digit_lt {b : UInt8} {d : Nat} (h : digit? b = some d) : d < 256 := by
  have hb := b.toNat_lt
  unfold digit? at h
  split at h
  · obtain rfl := Option.some.inj h
    omega
  · cases h

variable {negative seen : Bool} {significand : Nat} {exponent : Int}

theorem holds_floatOf (negative : Bool) (significand : Nat) (exponent : Int) (bs : Rest) :
    Holds ((floatOf negative significand exponent).map (·, bs)) := by
  unfold floatOf
  split
  · exact holds_error _
  · split
    · exact holds_error _
    · exact holds_float _ bs

theorem holds_readExponent (negative : Bool) (significand : Nat) (start : Int) (bs : Rest) :
    Holds (readExponent negative significand start bs) := by
  unfold readExponent
  split
  split
  · exact holds_error _
  · split
    · exact holds_error _
    · split
      · exact holds_floatOf _ _ _ _
      · exact .ite (fun _ => holds_error _) fun _ => holds_float _ _

theorem holds_finishFloat (negative : Bool) (significand : Nat) (exponent : Int) (bs : Rest) :
    Holds (finishFloat negative significand exponent bs) := by
  unfold finishFloat
  split
  · exact holds_readExponent _ _ _ _
  · exact holds_readExponent _ _ _ _
  · exact holds_floatOf _ _ _ _

theorem holds_readFraction (negative seen : Bool) (significand : Nat) (exponent : Int) (bs : Rest) :
    Holds (readFraction negative seen significand exponent bs) := by
  induction bs generalizing seen significand exponent with
  | nil => exact .ite (fun _ => holds_finishFloat _ _ _ _) fun _ => holds_error _
  | cons b bs ih =>
    rw [readFraction]
    split
    · exact .ite (fun _ => holds_finishFloat _ _ _ _) fun _ => holds_error _
    · exact .ite (fun _ => holds_finishFloat _ _ _ _) fun _ => ih _ _ _

theorem holds_readLongWhole (negative : Bool) (significand : Nat) (exponent : Int) (bs : Rest) :
    Holds (readLongWhole negative significand exponent bs) := by
  induction bs generalizing exponent with
  | nil => exact holds_finishFloat _ _ _ _
  | cons b bs ih =>
    rw [readLongWhole]
    split
    · exact ih _
    · exact .ite (fun _ => holds_readFraction _ _ _ _ _) fun _ => holds_finishFloat _ _ _ _

/-- An integer is one of 64 bits. -/
theorem holds_finishWhole (hsignificand : significand ≤ maxSignificand) (negative : Bool) (bs : Rest) :
    Holds (finishWhole negative significand bs) := by
  unfold finishWhole
  split
  · exact holds_readFraction _ _ _ _ _
  · exact holds_readExponent _ _ _ _
  · exact holds_readExponent _ _ _ _
  · have hlt : significand < twoTo 64 := Nat.lt_of_le_pred (by decide) hsignificand
    refine .ite (fun _ => holds_int (by omega) (by omega) _) fun _ =>
      .ite (fun _ => holds_floatOf _ _ _ _) fun h => holds_int ?_ ?_ _
    · omega
    · omega

theorem holds_readWhole (hsignificand : significand ≤ maxSignificand) (negative : Bool) (bs : Rest) :
    Holds (readWhole negative significand bs) := by
  induction bs generalizing significand with
  | nil => exact holds_finishWhole hsignificand _ _
  | cons b bs ih =>
    rw [readWhole]
    split
    · exact holds_finishWhole hsignificand _ _
    · exact .ite (fun _ => holds_readLongWhole _ _ _ _) fun h => ih (Nat.le_of_not_lt h)

/-- Every number of a text is one that a document can hold. -/
theorem holds_readNumber (negative : Bool) (bs : Rest) : Holds (readNumber negative bs) := by
  unfold readNumber
  split
  · exact holds_error _
  · next b bs =>
    split
    · exact holds_error _
    · split
      · exact holds_finishWhole (Nat.zero_le _) _ _
      · exact .ite (fun _ => holds_error _) fun _ => holds_finishWhole (Nat.zero_le _) _ _
    · next d _ hd =>
      exact holds_readWhole (Nat.le_of_lt_succ (Nat.lt_of_lt_of_le (digit_lt hd) (by decide))) _ _

/-! ## Trees -/

/-- A tree in which no more than `depth` lists and mappings are nested in one another. -/
inductive Tree.Within : (depth : Nat) → Tree → Prop
  | null {depth : Nat} : Within depth .null
  | bool {depth : Nat} (b : Bool) : Within depth (.bool b)
  | number {depth : Nat} {n : Number} : n.InRange → Within depth (.number n)
  | text {depth : Nat} (s : String) : Within depth (.text s)
  | broken {depth : Nat} (e : Fault) : Within depth (.broken e)
  | list {depth : Nat} {items : List Tree} (stop : Option Fault) : (∀ t ∈ items, Within depth t) →
    Within (depth + 1) (.list items stop)
  | dict {depth : Nat} {fields : List (String × Tree)} (stop : Option Fault) :
    (∀ e ∈ fields, Within depth e.2) → Within (depth + 1) (.dict fields stop)

variable {depth level steps : Nat} {t : Tree} {bs : Rest} {v : Value}

theorem within_readWord (h : t.Within depth) (word : List UInt8) (bs : Rest) :
    (readWord word t bs).1.Within depth := by
  induction word generalizing bs with
  | nil =>
    unfold readWord
    exact h
  | cons w word ih =>
    cases bs with
    | nil => exact .broken _
    | cons b bs =>
      rw [readWord]
      split
      · exact ih bs
      · exact .broken _

theorem within_numberPart {r : Except Fault (Number × Rest)} (h : Holds r) :
    (numberPart r).1.Within depth := by
  cases r with
  | error e => exact .broken e
  | ok r => exact .number (h r.1 r.2 rfl)

/-- Trees that are read below so many lists and mappings that `depth` more may be opened. -/
def TreesWithin (steps : Nat) : Prop :=
  ∀ {level depth : Nat} (bs : Rest), level + depth + 1 = maxDepth →
    (readTree steps level bs).1.Within depth

/-- Likewise the items of a list. -/
def ItemsWithin (steps : Nat) : Prop :=
  ∀ {level depth : Nat} (first : Bool) {items : List Tree} (bs : Rest), level + depth + 1 = maxDepth →
    (∀ t ∈ items, t.Within depth) → (readItems steps level first items bs).1.Within (depth + 1)

/-- Likewise the entries of a mapping. -/
def FieldsWithin (steps : Nat) : Prop :=
  ∀ {level depth : Nat} (first : Bool) {fields : List (String × Tree)} (bs : Rest),
    level + depth + 1 = maxDepth → (∀ e ∈ fields, e.2.Within depth) →
    (readFields steps level first fields bs).1.Within (depth + 1)

/-- A part is within a depth whichever of two it is. -/
theorem within_ite {p : Prop} [Decidable p] {part part' : Part} (h : p → part.1.Within depth)
    (h' : ¬ p → part'.1.Within depth) : (if p then part else part').1.Within depth := by
  split
  · next hp => exact h hp
  · next hp => exact h' hp

theorem treesWithin_succ (hitems : ItemsWithin steps) (hfields : FieldsWithin steps) :
    TreesWithin (steps + 1) := by
  intro level depth bs hlevel
  -- A list or mapping is opened only where more may be.
  have hopen : ∀ {part : Part}, (∀ k, depth = k + 1 → part.1.Within depth) →
      (if level + 1 = maxDepth then (.broken .tooDeep, none) else part : Part).1.Within depth :=
    fun h => within_ite (fun _ => .broken _) fun hne => h (depth - 1) (by omega)
  rw [readTree]
  split
  · exact .broken _
  · refine within_ite (fun _ => within_readWord .null _ _) fun _ => ?_
    refine within_ite (fun _ => within_readWord (.bool _) _ _) fun _ => ?_
    refine within_ite (fun _ => within_readWord (.bool _) _ _) fun _ => ?_
    refine within_ite (fun _ => within_numberPart (holds_readNumber _ _)) fun _ => ?_
    refine within_ite (fun _ => within_numberPart (holds_readNumber _ _)) fun _ => ?_
    refine within_ite (fun _ => ?_) fun _ => ?_
    · split
      · exact .text _
      · exact .broken _
    refine within_ite (fun _ => hopen fun k hk => ?_) fun _ => ?_
    · subst hk
      exact hitems true _ (by omega) nofun
    refine within_ite (fun _ => hopen fun k hk => ?_) fun _ => .broken _
    subst hk
    exact hfields true _ (by omega) nofun

theorem itemsWithin_succ (htrees : TreesWithin steps) (hitems : ItemsWithin steps) :
    ItemsWithin (steps + 1) := by
  intro level depth first items bs hlevel hread
  have hlist : ∀ stop, (Tree.list items.reverse stop).Within (depth + 1) :=
    fun stop => .list stop fun t ht => hread t (List.mem_reverse.mp ht)
  rw [readItems.eq_def]
  dsimp -zeta only
  extract_lets stopped next
  have hstopped : ∀ e, (stopped e).1.Within (depth + 1) := fun e => hlist (some e)
  have hnext : ∀ bs, (next bs).1.Within (depth + 1) := by
    intro bs
    have htree := htrees bs hlevel
    simp only [next]
    split
    · next heq =>
      rw [heq] at htree
      exact hitems false _ hlevel (List.forall_mem_cons.mpr ⟨htree, hread⟩)
    · next t heq =>
      rw [heq] at htree
      have hall := List.forall_mem_cons.mpr ⟨htree, hread⟩
      exact .list none fun t ht => hall t (List.mem_reverse.mp ht)
  split
  · exact hstopped _
  · refine within_ite (fun _ => hlist none) fun _ => within_ite (fun _ => hnext _) fun _ =>
      within_ite (fun _ => ?_) fun _ => hstopped _
    split
    · exact hstopped _
    · exact hstopped _
    · exact hnext _

theorem fieldsWithin_succ (htrees : TreesWithin steps) (hfields : FieldsWithin steps) :
    FieldsWithin (steps + 1) := by
  intro level depth first fields bs hlevel hread
  have hdict : ∀ stop, (Tree.dict fields.reverse stop).Within (depth + 1) :=
    fun stop => .dict stop fun e he => hread e (List.mem_reverse.mp he)
  have hmore : ∀ {key : String} {t : Tree}, t.Within depth →
      (Tree.dict ((key, t) :: fields).reverse none).Within (depth + 1) := by
    intro key t ht
    have hall : ∀ e ∈ (key, t) :: fields, e.2.Within depth := List.forall_mem_cons.mpr ⟨ht, hread⟩
    exact .dict none fun e he => hall e (List.mem_reverse.mp he)
  -- The ways the reader may go on are taken out of its body, each with its own bound.
  rw [readFields.eq_def]
  dsimp -zeta only
  extract_lets stopped value entry
  have hstopped : ∀ e, (stopped e).1.Within (depth + 1) := fun e => hdict (some e)
  have hvalue : ∀ key bs, (value key bs).1.Within (depth + 1) := by
    intro key bs
    have htree := htrees bs hlevel
    simp only [value]
    split
    · next heq =>
      rw [heq] at htree
      exact hfields false _ hlevel (List.forall_mem_cons.mpr ⟨htree, hread⟩)
    · next t heq =>
      rw [heq] at htree
      exact hmore htree
  have hentry : ∀ bs, (entry bs).1.Within (depth + 1) := by
    intro bs
    simp only [entry]
    split
    · exact hstopped _
    · split
      · exact hmore (.broken _)
      · exact hvalue _ _
      · exact hmore (.broken _)
  split
  · exact hstopped _
  · refine within_ite (fun _ => hdict none) fun _ =>
      within_ite (fun _ => within_ite (fun _ => hentry _) fun _ => hstopped _) fun _ =>
      within_ite (fun _ => ?_) fun _ => hstopped _
    split
    · exact hstopped _
    · exact hentry _
    · exact hstopped _
    · exact hstopped _

/-- However many steps a reader is given, the depth is kept. -/
theorem readers_within (steps : Nat) :
    TreesWithin steps ∧ ItemsWithin steps ∧ FieldsWithin steps := by
  induction steps with
  | zero => exact ⟨fun _ _ => .broken _, fun _ _ _ _ _ => .broken _, fun _ _ _ _ _ => .broken _⟩
  | succ steps ih =>
    obtain ⟨htrees, hitems, hfields⟩ := ih
    exact ⟨treesWithin_succ hitems hfields, itemsWithin_succ htrees hitems,
      fieldsWithin_succ htrees hfields⟩

/-- The tree of a text is within the depth at which reading gives up. -/
theorem within_read (bs : Rest) : (read bs).1.Within (maxDepth - 1) := by
  have htree : (readTree (2 * bs.length + 2) 0 bs).1.Within (maxDepth - 1) :=
    (readers_within _).1 bs rfl
  unfold read
  split
  · next heq =>
    rw [heq] at htree
    exact htree
  · next heq =>
    rw [heq] at htree
    exact htree

/-! ## Values of trees -/

theorem fits_itemValues {items : List Tree} {vs : List Value}
    (hfits : ∀ t ∈ items, ∀ v, t.value = .ok v → v.Fits depth) (h : itemValues items = .ok vs) :
    ∀ v ∈ vs, v.Fits depth := by
  induction items generalizing vs with
  | nil =>
    cases h
    exact nofun
  | cons t items ih =>
    rw [itemValues] at h
    split at h
    · cases h
    · next v hv =>
      obtain ⟨vs', hvs, rfl⟩ := of_map_ok h
      exact List.forall_mem_cons.mpr ⟨hfits t (by simp) v hv,
        ih (fun t' ht' => hfits t' (List.mem_cons_of_mem _ ht')) hvs⟩

theorem fits_fieldValues {fields : List (String × Tree)} {es : List (String × Value)}
    (hfits : ∀ e ∈ fields, ∀ v, e.2.value = .ok v → v.Fits depth) (h : fieldValues fields = .ok es) :
    ∀ e ∈ es, e.2.Fits depth := by
  induction fields generalizing es with
  | nil =>
    cases h
    exact nofun
  | cons e fields ih =>
    rw [fieldValues] at h
    split at h
    · cases h
    · next v hv =>
      obtain ⟨es', hes, rfl⟩ := of_map_ok h
      exact List.forall_mem_cons.mpr ⟨hfits e (by simp) v hv,
        ih (fun e' he' => hfits e' (List.mem_cons_of_mem _ he')) hes⟩

/-- The value of a tree is no deeper than the tree. -/
theorem Tree.Within.fits (h : t.Within depth) : ∀ v, t.value = .ok v → v.Fits depth := by
  induction h with
  | null =>
    intro v hv
    cases hv
    exact .null
  | bool b =>
    intro v hv
    cases hv
    exact .bool b
  | number hn =>
    intro v hv
    cases hv
    exact .number hn
  | text s =>
    intro v hv
    cases hv
    exact .text s
  | broken e =>
    intro v hv
    cases hv
  -- A list that stopped early has no value, nor has one with an element that has none.
  | list stop _ ih =>
    intro v hv
    rw [Tree.value] at hv
    split at hv
    · cases hv
    · next hitems =>
      split at hv
      · cases hv
      · cases hv
        exact .list (fits_itemValues ih hitems)
  | dict stop _ ih =>
    intro v hv
    rw [Tree.value] at hv
    split at hv
    · cases hv
    · next hfields =>
      split at hv
      · cases hv
      · cases hv
        exact .ofList (fits_fieldValues ih hfields)

end RunCache.Json
