import RunCache.Proofs.Descriptor.Fits

/-! # What a descriptor keeps of a JSON text

    Reading a descriptor takes the fields with a type out of a text and
    keeps the others as they are.  What is written for it afterwards is
    known key by key.

    * **`Metadata.retained`**, **`Descriptor.retained`**: the fields of a
      document that are kept.
    * **`MetadataField.keep`**, **`TopField.keep`**: the same, key by key.
    * **`Descriptor.written`**: what is written under a key.
    * **`KeptAs`**: that both agree for some fields.
    * **`Json.readDescriptor_keeps`**: they do for the text of a
      descriptor. -/

namespace RunCache

/-! ## What is kept -/

/-- The metadata of a document without the bookkeeping of servers, a namespace that is null, and
    labels and annotations that are empty. A name that is missing is empty. -/
def Metadata.retained : Value → Value
  | .dict fields =>
    let kept : Fields Value := fields.filter fun e => decide (e.1 ≠ "managedFields" ∧
      e ≠ ("namespace", .null) ∧ e ≠ ("labels", .dict []) ∧ e ≠ ("annotations", .dict []))
    .dict (Fields.insert "name" ((Fields.get? fields "name").getD (.text "")) kept)
  | v => v

/-- The fields of a document without a version and a kind that are null. Of the metadata is kept
    what is kept there, and metadata that is missing is empty. -/
def Descriptor.retained (fields : Fields Value) : Fields Value :=
  let kept : Fields Value :=
    fields.filter fun e => decide (e ≠ ("apiVersion", .null) ∧ e ≠ ("kind", .null))
  kept.insert "metadata" (Metadata.retained ((fields.get? "metadata").getD (.dict [])))

/-! ## Key by key -/

/-- What is kept of the value of a field of the metadata. -/
def MetadataField.keep : MetadataField → Option Value → Option Value
  | .name, v => some (v.getD (.text ""))
  | .space, v => v.filter fun v => decide (v ≠ .null)
  | .labels, v | .annotations, v => v.filter fun v => decide (v ≠ .dict [])
  | .managed, _ => none
  | .other, v => v

/-- What is kept of the value of a top-level field. -/
def TopField.keep : TopField → Option Value → Option Value
  | .apiVersion, v | .kind, v => v.filter fun v => decide (v ≠ .null)
  | .metadata, v => some (Metadata.retained (v.getD (.dict [])))
  | .other, v => v

variable {fields : Fields Value} {key key' : String} {v : Value}

/-- Keys of the metadata and what they name. -/
inductive MetadataField.Named : String → MetadataField → Prop
  | name : Named "name" .name
  | space : Named "namespace" .space
  | labels : Named "labels" .labels
  | annotations : Named "annotations" .annotations
  | managed : Named "managedFields" .managed
  | other {key : String} : key ≠ "name" → key ≠ "namespace" → key ≠ "labels" →
    key ≠ "annotations" → key ≠ "managedFields" → Named key .other

/-- Top-level keys and what they name. -/
inductive TopField.Named : String → TopField → Prop
  | apiVersion : Named "apiVersion" .apiVersion
  | kind : Named "kind" .kind
  | metadata : Named "metadata" .metadata
  | other {key : String} : key ≠ "apiVersion" → key ≠ "kind" → key ≠ "metadata" → Named key .other

theorem MetadataField.named (key : String) : Named key (ofKey key) := by
  unfold ofKey
  repeat' split
  all_goals try subst key
  · exact .name
  · exact .space
  · exact .labels
  · exact .annotations
  · exact .managed
  · exact .other ‹_› ‹_› ‹_› ‹_› ‹_›

theorem TopField.named (key : String) : Named key (ofKey key) := by
  unfold ofKey
  repeat' split
  all_goals try subst key
  · exact .apiVersion
  · exact .kind
  · exact .metadata
  · exact .other ‹_› ‹_› ‹_›

/-- A field with a type has one key. -/
theorem MetadataField.key_unique (h : ofKey key = ofKey key') (hother : ofKey key' ≠ .other) :
    key = key' := by
  have hkey := named key
  have hkey' := named key'
  rw [h] at hkey
  generalize ofKey key' = field at hkey hkey' hother
  cases hkey <;> cases hkey' <;> first | rfl | exact absurd rfl hother

theorem TopField.key_unique (h : ofKey key = ofKey key') (hother : ofKey key' ≠ .other) :
    key = key' := by
  have hkey := named key
  have hkey' := named key'
  rw [h] at hkey
  generalize ofKey key' = field at hkey hkey' hother
  cases hkey <;> cases hkey' <;> first | rfl | exact absurd rfl hother

/-- What is kept of the metadata, key by key. -/
theorem Metadata.get_retained (h : fields.Sorted) : ∃ kept : Fields Value,
    Metadata.retained (.dict fields) = .dict kept ∧ kept.Sorted ∧
      ∀ key, kept.get? key = (MetadataField.ofKey key).keep (fields.get? key) := by
  refine ⟨_, rfl, Fields.Sorted.insert (h.sublist List.filter_sublist) _ _, fun key => ?_⟩
  rw [Fields.get_insert, Fields.Sorted.get_filter h]
  have hnamed := MetadataField.named key
  generalize MetadataField.ofKey key = field at hnamed ⊢
  cases hnamed with
  | name => rfl
  | space | labels | annotations => simp [MetadataField.keep]
  | managed => cases fields.get? "managedFields" <;> simp [MetadataField.keep]
  | other h1 h2 h3 h4 h5 =>
    cases fields.get? key <;> simp [MetadataField.keep, Ne.symm h1, h2, h3, h4, h5]

/-- What is kept of a document, key by key. -/
theorem Descriptor.get_retained (h : fields.Sorted) (key : String) :
    (Descriptor.retained fields).get? key = (TopField.ofKey key).keep (fields.get? key) := by
  rw [Descriptor.retained, Fields.get_insert, Fields.Sorted.get_filter h]
  have hnamed := TopField.named key
  generalize TopField.ofKey key = field at hnamed ⊢
  cases hnamed with
  | metadata => rfl
  | apiVersion | kind => simp [TopField.keep]
  | other h1 h2 h3 => cases fields.get? key <;> simp [TopField.keep, h1, h2, Ne.symm h3]

theorem Descriptor.sorted_retained (h : fields.Sorted) : (Descriptor.retained fields).Sorted :=
  Fields.Sorted.insert (h.sublist List.filter_sublist) _ _

/-! ## What is written -/

/-- What is written of texts: a mapping, unless there are none. -/
def writtenTexts (texts : Fields String) : Option Value :=
  if texts.isEmpty then none else some (.dict (texts.map fun e => (e.1, .text e.2)))

/-- What is written of a field of the metadata under a key. -/
def Metadata.written (m : Metadata) (key : String) : MetadataField → Option Value
  | .name => some (.text m.name)
  | .space => m.space.map .text
  | .labels => writtenTexts m.labels
  | .annotations => writtenTexts m.annotations
  | .managed => none
  | .other => m.extra.get? key

/-- The entries of metadata in the order in which they are written. -/
def Metadata.entries (m : Metadata) : List (String × Value) :=
  [("name", .text m.name)] ++ textField "namespace" m.space ++ textsField "labels" m.labels ++
    textsField "annotations" m.annotations ++ m.extra

/-- What is written of a field of a descriptor under a key. -/
def Descriptor.written (d : Descriptor) (key : String) : TopField → Option Value
  | .apiVersion => d.apiVersion.map .text
  | .kind => d.kind.map .text
  | .metadata => some (.dict (Fields.ofList d.metadata.entries))
  | .other => d.rest.get? key

theorem get_textField (k : String) (o : Option String) (key : String) :
    (Fields.ofList (textField k o)).get? key = if k = key then o.map Value.text else none := by
  cases o with
  | none => exact (ite_self none).symm
  | some s => exact Fields.get_insert [] k (Value.text s) key

theorem get_textsField (k : String) (texts : Fields String) (key : String) :
    (Fields.ofList (textsField k texts)).get? key = if k = key then writtenTexts texts else none := by
  unfold textsField writtenTexts
  split
  · exact (ite_self none).symm
  · exact Fields.get_insert [] k _ key

/-- The entries of metadata hold under each key what is written of its field. -/
theorem Metadata.get_entries {m : Metadata} (h : m.Fits) (key : String) :
    (Fields.ofList m.entries).get? key = m.written key (MetadataField.ofKey key) := by
  have hname : (Fields.ofList [("name", Value.text m.name)]).get? key =
      if "name" = key then some (Value.text m.name) else none := Fields.get_insert [] _ _ key
  rw [Metadata.entries, Fields.get_ofList_append, Fields.get_ofList_append,
    Fields.get_ofList_append, Fields.get_ofList_append, Fields.ofList_of_sorted h.extra,
    get_textsField, get_textsField, get_textField, hname]
  cases hextra : m.extra.get? key with
  | some v =>
    rw [h.keys _ (Fields.mem_of_get hextra)]
    exact hextra.symm
  | none =>
    rw [Option.none_or]
    have hnamed := MetadataField.named key
    generalize MetadataField.ofKey key = field at hnamed ⊢
    cases hnamed with
    | name | space | labels | annotations | managed => simp [Metadata.written]
    | other h1 h2 h3 h4 h5 =>
      simp [Metadata.written, hextra, Ne.symm h1, Ne.symm h2, Ne.symm h3, Ne.symm h4]

/-- The entries of a descriptor as they are read without types. -/
def Descriptor.valueEntries (d : Descriptor) : List (String × Value) :=
  textField "apiVersion" d.apiVersion ++ textField "kind" d.kind ++
    [("metadata", .dict (Fields.ofList d.metadata.entries))] ++ d.rest

theorem Descriptor.get_valueEntries {d : Descriptor} (h : d.Fits) (key : String) :
    (Fields.ofList d.valueEntries).get? key = d.written key (TopField.ofKey key) := by
  have hmetadata : (Fields.ofList
      [("metadata", Value.dict (Fields.ofList d.metadata.entries))]).get? key =
        if "metadata" = key then some (Value.dict (Fields.ofList d.metadata.entries)) else none :=
    Fields.get_insert [] _ _ key
  rw [Descriptor.valueEntries, Fields.get_ofList_append, Fields.get_ofList_append,
    Fields.get_ofList_append, Fields.ofList_of_sorted h.rest, hmetadata, get_textField,
    get_textField]
  cases hrest : d.rest.get? key with
  | some v =>
    rw [h.keys _ (Fields.mem_of_get hrest)]
    exact hrest.symm
  | none =>
    rw [Option.none_or]
    have hnamed := TopField.named key
    generalize TopField.ofKey key = field at hnamed ⊢
    cases hnamed with
    | apiVersion | kind | metadata => simp [Descriptor.written]
    | other h1 h2 h3 => simp [Descriptor.written, hrest, Ne.symm h1, Ne.symm h2, Ne.symm h3]

/-! ## Reading JSON -/

namespace Json

/-- A JSON text as a value. -/
def readValue (bytes : List UInt8) : Except Fault Value :=
  let (tree, trailing) := read bytes
  match tree.value with
  | .error f => .error f
  | .ok v => match trailing with
    | some f => .error f
    | none => .ok v

variable {t : Tree} {stop : Option Fault}

/-- A mapping that is taken entry by entry has a value. What every entry preserves of the draft and
    the entries so far holds at the end. -/
theorem value_of_takeFields {δ : Type} {add : δ → String → Tree → Except Complaint δ}
    {P : δ → Fields Value → Prop} {entries : List (String × Tree)}
    (hadd : ∀ e ∈ entries, ∀ {draft draft' acc}, P draft acc → add draft e.1 e.2 = .ok draft' →
      ∃ v, e.2.value = .ok v ∧ P draft' (acc.insert e.1 v))
    {draft draft' : δ} (hdraft : P draft [])
    (h : takeFields add draft entries stop = .ok draft') :
    ∃ acc : Fields Value, (Tree.dict entries stop).value = .ok (.dict acc) ∧ acc.Sorted ∧
      P draft' acc := by
  -- The entries so far are those that have been collected.
  have htake : ∀ {draft : δ} {acc : Fields Value}, P draft acc →
      takeFields add draft entries stop = .ok draft' → ∃ kvs, fieldValues entries = .ok kvs ∧
        stop = none ∧ P draft' (kvs.foldl (fun fields e => fields.insert e.1 e.2) acc) := by
    clear hdraft h
    induction entries with
    | nil =>
      intro draft acc hdraft h
      cases stop with
      | none =>
        cases h
        exact ⟨[], rfl, rfl, hdraft⟩
      | some f => cases h
    | cons e entries ih =>
      intro draft acc hdraft h
      obtain ⟨k, t⟩ := e
      rw [takeFields] at h
      split at h
      · cases h
      · next hentry =>
        obtain ⟨v, hv, hnext⟩ := hadd (k, t) (by simp) hdraft hentry
        obtain ⟨kvs, hkvs, hstop, hlast⟩ :=
          ih (fun e he => hadd e (List.mem_cons_of_mem _ he)) hnext h
        refine ⟨(k, v) :: kvs, ?_, hstop, hlast⟩
        rw [fieldValues, hv]
        simp only [hkvs]
        rfl
  obtain ⟨kvs, hkvs, rfl, hlast⟩ := htake hdraft h
  refine ⟨Fields.ofList kvs, ?_, Fields.sorted_ofList kvs, hlast⟩
  rw [Tree.value, hkvs]

theorem value_of_textOf {s : String} (h : textOf t = .ok s) : t.value = .ok (.text s) := by
  cases t <;> cases h
  rw [Tree.value]

theorem value_of_text?Of {o : Option String} (h : text?Of t = .ok o) :
    t.value = .ok (o.elim .null .text) := by
  unfold text?Of at h
  split at h
  · cases h
    rw [Tree.value]
    rfl
  · obtain ⟨s, hs, rfl⟩ := of_map_ok h
    exact value_of_textOf hs

theorem value_of_textsOf {texts : Fields String} (h : textsOf t = .ok texts) :
    t.value = .ok (.dict (texts.map fun e => (e.1, .text e.2))) := by
  unfold textsOf at h
  split at h
  · have hentry : ∀ e ∈ ‹List (String × Tree)›, ∀ {draft draft' : Fields String} {acc : Fields Value},
        acc = (draft.map fun e => (e.1, Value.text e.2)) →
        ((textOf e.2).map fun s => draft.insert e.1 s) = .ok draft' →
        ∃ v, e.2.value = .ok v ∧ acc.insert e.1 v = draft'.map fun e => (e.1, Value.text e.2) := by
      rintro e - draft draft' acc rfl hentry
      obtain ⟨s, hs, rfl⟩ := of_map_ok hentry
      exact ⟨.text s, value_of_textOf hs, (Fields.map_insert _ _ _ _).symm⟩
    obtain ⟨acc, hvalue, _, rfl⟩ := value_of_takeFields
      (P := fun texts acc => acc = texts.map fun e => (e.1, Value.text e.2)) hentry rfl h
    exact hvalue
  · cases h

end Json

/-! ### Drafts -/

/-- Under every key, what is kept of some fields is what is written. -/
def KeptAs {F : Type} (ofKey : String → F) (keep : F → Option Value → Option Value)
    (written : String → F → Option Value) (acc : Fields Value) : Prop :=
  ∀ key, keep (ofKey key) (acc.get? key) = written key (ofKey key)

/-- One field more. -/
theorem KeptAs.insert {F : Type} {ofKey : String → F} {keep : F → Option Value → Option Value}
    {written written' : String → F → Option Value} {acc : Fields Value}
    (h : KeptAs ofKey keep written acc)
    (hkey : keep (ofKey key) (some v) = written' key (ofKey key))
    (hrest : ∀ k, k ≠ key → written' k (ofKey k) = written k (ofKey k)) :
    KeptAs ofKey keep written' (acc.insert key v) := by
  intro k
  rw [Fields.get_insert]
  split
  · next heq =>
    rw [← heq]
    exact hkey
  · next hne =>
    rw [hrest k (Ne.symm hne)]
    exact h k

/-- What is kept of some fields is what is written of the metadata. -/
def Metadata.Keeps (m : Metadata) (acc : Fields Value) : Prop :=
  KeptAs MetadataField.ofKey MetadataField.keep m.written acc

/-- What is kept of some fields is what is written of the descriptor. -/
def Descriptor.Keeps (d : Descriptor) (acc : Fields Value) : Prop :=
  KeptAs TopField.ofKey TopField.keep d.written acc

theorem Metadata.keeps_nil : Metadata.Keeps {} [] := by
  intro key
  cases MetadataField.ofKey key <;> rfl

theorem Descriptor.keeps_nil : Descriptor.Keeps {} [] := by
  intro key
  cases TopField.ofKey key <;> rfl

/-- A field with a type is written under its key and under no other one. -/
theorem Metadata.Keeps.insert {m m' : Metadata} {acc : Fields Value} (h : m.Keeps acc)
    {f : MetadataField} (hf : MetadataField.ofKey key = f) (htyped : f ≠ .other)
    (hkey : f.keep (some v) = m'.written key f)
    (hsame : ∀ g, g ≠ f → ∀ k, m'.written k g = m.written k g) : m'.Keeps (acc.insert key v) := by
  refine KeptAs.insert h (by rw [hf, hkey]) fun k hne => hsame _ (fun heq => ?_) k
  exact hne (MetadataField.key_unique (heq.trans hf.symm) (hf ▸ htyped))

theorem Descriptor.Keeps.insert {d d' : Descriptor} {acc : Fields Value} (h : d.Keeps acc)
    {f : TopField} (hf : TopField.ofKey key = f) (htyped : f ≠ .other)
    (hkey : f.keep (some v) = d'.written key f)
    (hsame : ∀ g, g ≠ f → ∀ k, d'.written k g = d.written k g) : d'.Keeps (acc.insert key v) := by
  refine KeptAs.insert h (by rw [hf, hkey]) fun k hne => hsame _ (fun heq => ?_) k
  exact hne (TopField.key_unique (heq.trans hf.symm) (hf ▸ htyped))

/-- A field without a type is kept under its key. -/
theorem Metadata.Keeps.insert_other {m : Metadata} {acc : Fields Value} (h : m.Keeps acc)
    (hkey : MetadataField.ofKey key = .other) :
    Metadata.Keeps { m with extra := m.extra.insert key v } (acc.insert key v) := by
  refine KeptAs.insert h ?_ fun k hne => ?_
  · rw [hkey]
    exact ((Fields.get_insert m.extra key v key).trans (if_pos rfl)).symm
  · cases MetadataField.ofKey k with
    | other => exact (Fields.get_insert m.extra key v k).trans (if_neg (Ne.symm hne))
    | _ => rfl

theorem Descriptor.Keeps.insert_other {d : Descriptor} {acc : Fields Value} (h : d.Keeps acc)
    (hkey : TopField.ofKey key = .other) :
    Descriptor.Keeps { d with rest := d.rest.insert key v } (acc.insert key v) := by
  refine KeptAs.insert h ?_ fun k hne => ?_
  · rw [hkey]
    exact ((Fields.get_insert d.rest key v key).trans (if_pos rfl)).symm
  · cases TopField.ofKey k with
    | other => exact (Fields.get_insert d.rest key v k).trans (if_neg (Ne.symm hne))
    | _ => rfl

/-- Texts are kept unless there are none. -/
theorem keep_texts (texts : Fields String) :
    (some (Value.dict (texts.map fun e => (e.1, .text e.2)))).filter
      (fun v => decide (v ≠ .dict [])) = writtenTexts texts := by
  cases texts with
  | nil => rfl
  | cons e texts => simp [writtenTexts, Option.filter]

/-- A text is kept unless it is null. -/
theorem keep_text? (o : Option String) :
    (some (o.elim Value.null .text)).filter (fun v => decide (v ≠ .null)) = o.map .text := by
  cases o with
  | none => rfl
  | some s => simp [Option.filter]

/-- The metadata that is written is what is kept. -/
theorem Metadata.Keeps.retained {m : Metadata} (hfits : m.Fits) (hsorted : fields.Sorted)
    (h : m.Keeps fields) : Metadata.retained (.dict fields) = .dict (Fields.ofList m.entries) := by
  obtain ⟨kept, hkept, hkeptSorted, hget⟩ := Metadata.get_retained hsorted
  rw [hkept]
  refine congrArg _ (hkeptSorted.ext (Fields.sorted_ofList _) fun key => ?_)
  rw [hget, Metadata.get_entries hfits]
  exact h key

/-- The descriptor that is written is what is kept. -/
theorem Descriptor.Keeps.retained {d : Descriptor} (hfits : d.Fits) (hsorted : fields.Sorted)
    (h : d.Keeps fields) : Descriptor.retained fields = Fields.ofList d.valueEntries := by
  refine (Descriptor.sorted_retained hsorted).ext (Fields.sorted_ofList _) fun key => ?_
  rw [Descriptor.get_retained hsorted, Descriptor.get_valueEntries hfits]
  exact h key

namespace Json

variable {t : Tree}

theorem value_of_valueOf (h : valueOf t = .ok v) : t.value = .ok v := of_mapError_ok h

theorem keeps_addMetadata {draft draft' : MetadataDraft} {acc : Fields Value}
    (hdraft : draft.value.Keeps acc) (h : addMetadata draft key t = .ok draft') :
    ∃ v, t.value = .ok v ∧ draft'.value.Keeps (acc.insert key v) := by
  unfold addMetadata at h
  generalize hkey : MetadataField.ofKey key = field at h
  dsimp only at h
  split at h
  · cases h
  · -- Each field goes to its own place in the draft and leaves the other places alone.
    cases field with
    | name =>
      obtain ⟨s, hs, rfl⟩ := of_map_ok h
      refine ⟨_, value_of_textOf hs, hdraft.insert hkey nofun rfl fun g hg _ => ?_⟩
      cases g <;> first | rfl | exact absurd rfl hg
    | space =>
      obtain ⟨o, ho, rfl⟩ := of_map_ok h
      refine ⟨_, value_of_text?Of ho, hdraft.insert hkey nofun (keep_text? o) fun g hg _ => ?_⟩
      cases g <;> first | rfl | exact absurd rfl hg
    | labels | annotations =>
      obtain ⟨texts, htexts, rfl⟩ := of_map_ok h
      refine ⟨_, value_of_textsOf htexts, hdraft.insert hkey nofun (keep_texts texts) fun g hg _ => ?_⟩
      cases g <;> first | rfl | exact absurd rfl hg
    | managed =>
      obtain ⟨v, hv, rfl⟩ := of_map_ok h
      exact ⟨v, value_of_valueOf hv, hdraft.insert hkey nofun rfl fun _ _ _ => rfl⟩
    | other =>
      obtain ⟨v, hv, rfl⟩ := of_map_ok h
      exact ⟨v, value_of_valueOf hv, hdraft.insert_other hkey⟩

/-- Reading metadata keeps what is kept of its value. -/
theorem retained_of_metadataOf {m : Metadata} (ht : t.Within (maxDepth - 2))
    (h : metadataOf t = .ok m) :
    ∃ v, t.value = .ok v ∧ Metadata.retained v = .dict (Fields.ofList m.entries) := by
  have hfits := fits_metadataOf ht h
  unfold metadataOf at h
  split at h
  · obtain ⟨draft, hfields, rfl⟩ := of_map_ok h
    obtain ⟨acc, hvalue, hsorted, hkeeps⟩ := value_of_takeFields
      (P := fun draft acc => draft.value.Keeps acc) (fun _ _ => keeps_addMetadata)
      Metadata.keeps_nil hfields
    exact ⟨.dict acc, hvalue, hkeeps.retained hfits hsorted⟩
  · cases h

theorem keeps_addTop {draft draft' : Draft} {acc : Fields Value} (ht : t.Within (maxDepth - 2))
    (hdraft : draft.value.Keeps acc) (h : addTop draft key t = .ok draft') :
    ∃ v, t.value = .ok v ∧ draft'.value.Keeps (acc.insert key v) := by
  unfold addTop at h
  generalize hkey : TopField.ofKey key = field at h
  dsimp only at h
  split at h
  · cases h
  · cases field with
    | apiVersion | kind =>
      obtain ⟨o, ho, rfl⟩ := of_map_ok h
      refine ⟨_, value_of_text?Of ho, hdraft.insert hkey nofun (keep_text? o) fun g hg _ => ?_⟩
      cases g <;> first | rfl | exact absurd rfl hg
    | metadata =>
      obtain ⟨m, hm, rfl⟩ := of_map_ok h
      obtain ⟨v, hv, hretained⟩ := retained_of_metadataOf ht hm
      refine ⟨v, hv, hdraft.insert hkey nofun (congrArg some hretained) fun g hg _ => ?_⟩
      cases g <;> first | rfl | exact absurd rfl hg
    | other =>
      obtain ⟨v, hv, rfl⟩ := of_map_ok h
      exact ⟨v, value_of_valueOf hv, hdraft.insert_other hkey⟩

/-- Reading a descriptor keeps what is kept of the fields of the text. -/
theorem readDescriptor_keeps {bytes : List UInt8} {d : Descriptor}
    (h : readDescriptor bytes = .ok d) :
    ∃ fields : Fields Value, readValue bytes = .ok (.dict fields) ∧ fields.Sorted ∧
      d.Keeps fields := by
  have ht := within_read bytes
  unfold readDescriptor at h
  unfold readValue
  generalize read bytes = result at h ht
  obtain ⟨tree, trailing⟩ := result
  cases tree with
  | dict entries stop =>
    cases ht with
    | dict _ hwithin =>
      simp only at h
      split at h
      · cases h
      · next draft hfields =>
        split at h
        · cases h
        · cases h
          obtain ⟨acc, hvalue, hsorted, hkeeps⟩ := value_of_takeFields
            (P := fun draft acc => draft.value.Keeps acc)
            (fun e he => keeps_addTop (hwithin e he)) Descriptor.keeps_nil hfields
          refine ⟨acc, ?_, hsorted, hkeeps⟩
          simp only [hvalue]
  | _ => cases h

end Json

end RunCache
