import RunCache.Proofs.Descriptor.Kept
import RunCache.Proofs.Descriptor.RoundTrip

/-! # What a descriptor retains of a document

    What is written for a descriptor, read without types, is the document
    that the descriptor was read from but for what the types demand.

    * **`Yaml.value_render`**: what is written, read without types.
    * **`Descriptor.Fits.keysOnce`**: no key is written twice.
    * **`Descriptor.render_retains`**: the document and what is written. -/

namespace RunCache

variable {v : Value}

/-! ## Reading what is written -/

/-- A value whose outermost mapping is put in key order. -/
def Value.collected : Value → Value
  | .dict fields => .dict (Fields.ofList fields)
  | v => v

/-- A value that fits is in key order. -/
theorem Value.Fits.collected {depth : Nat} (h : v.Fits depth) : v.collected = v := by
  cases h with
  | dict hsorted _ => exact congrArg _ (Fields.ofList_of_sorted hsorted)
  | _ => rfl

theorem fits_textField {k : String} {o : Option String} {depth : Nat} :
    ∀ e ∈ textField k o, e.2.Fits depth := by
  cases o with
  | none => exact nofun
  | some s => exact List.forall_mem_singleton.mpr (.text s)

theorem fits_textsField {k : String} {texts : Fields String} (h : texts.Sorted) {depth : Nat} :
    ∀ e ∈ textsField k texts, e.2.Fits (depth + 1) := by
  unfold textsField
  split
  · exact nofun
  · refine List.forall_mem_singleton.mpr (.dict (h.map _) fun e he => ?_)
    obtain ⟨e, _, rfl⟩ := List.mem_map.mp he
    exact .text _

theorem Metadata.Fits.entries {m : Metadata} (h : m.Fits) :
    ∀ e ∈ m.entries, e.2.Fits (Yaml.maxDepth - 2) := by
  intro e he
  simp only [Metadata.entries, List.mem_append] at he
  rcases he with (((hname | hspace) | hlabels) | hannotations) | hextra
  · obtain rfl := List.mem_singleton.mp hname
    exact .text _
  · exact fits_textField e hspace
  · exact fits_textsField h.labels e hlabels
  · exact fits_textsField h.annotations e hannotations
  · exact h.values e hextra

/-- But for the metadata, whose entries are in the order in which they are written, all that is
    written is in key order. -/
theorem Descriptor.Fits.map_collected {d : Descriptor} (h : d.Fits) :
    (d.entries.map fun e => (e.1, e.2.collected)) = d.valueEntries := by
  have htext : ∀ {k : String} {o : Option String},
      ((textField k o).map fun e => (e.1, e.2.collected)) = textField k o := by
    intro k o
    cases o <;> rfl
  have hrest : (d.rest.map fun e => (e.1, e.2.collected)) = d.rest := by
    refine (List.map_congr_left fun e he => ?_).trans (List.map_id _)
    rw [(h.values e he).collected]
    rfl
  rw [Descriptor.entries, Descriptor.valueEntries, List.map_append, List.map_append,
    List.map_append, htext, htext, hrest]
  rfl

namespace Yaml

/-- A YAML stream as a value. A stream without a document is null. -/
def readValue (keys : Document.Keys) (bytes : ByteArray) : Except Fault Value :=
  match Document.read bytes with
  | .error f => .error f
  | .ok d => match d.root with
    | none => .ok .null
    | some root => (d.value keys maxDepth root d.budget).map (·.1)

variable {d : Descriptor} {doc : Document} {keys : Document.Keys} {depth budget : Nat}
  {es : List (String × Value)}

/-- A mapping is read entry by entry, and put in key order. -/
theorem value_entries {f : Value → Value}
    (h : ∀ e ∈ es, doc.value keys depth (valueNode e.2) budget = .ok (f e.2, budget)) :
    doc.value keys (depth + 1) (.dict {} (entryNodes es)) budget =
      .ok (.dict (Fields.ofList (es.map fun e => (e.1, f e.2))), budget) := by
  have hread : Document.readEntries (doc.key keys) (doc.value keys depth) (entryNodes es) budget =
      .ok (es.map fun e => (e.1, f e.2), budget) := by
    induction es with
    | nil => rfl
    | cons e es ih =>
      have he := h e (by simp)
      have hes := ih fun e he => h e (List.mem_cons_of_mem _ he)
      simp only [entryNodes, Document.readEntries, key_scalar, he, hes, List.map_cons]
  simp only [Document.value, Document.follow, hread]
  rfl

theorem value_document {m : Metadata} (h : m.Fits) :
    doc.value keys (maxDepth - 1) (valueNode m.document) budget =
      .ok (m.document.collected, budget) := by
  have hentries := value_entries (f := id) fun e he =>
    value_valueNode (h.entries e he) doc keys budget
  have hsame : (m.entries.map fun e => (e.1, id e.2)) = m.entries := List.map_id m.entries
  rw [hsame] at hentries
  exact hentries

/-- What is written, read without types. -/
theorem value_render (h : d.Fits) :
    readValue keys d.render = .ok (.dict (Fields.ofList d.valueEntries)) := by
  obtain ⟨-, doc, hread, hroot⟩ := d.read_render
  have hentry : ∀ e ∈ d.entries, doc.value keys (maxDepth - 1) (valueNode e.2) doc.budget =
      .ok (e.2.collected, doc.budget) := by
    have hfits : ∀ {v : Value}, v.Fits (maxDepth - 1) →
        doc.value keys (maxDepth - 1) (valueNode v) doc.budget = .ok (v.collected, doc.budget) := by
      intro v hv
      rw [value_valueNode hv, hv.collected]
    intro e he
    simp only [Descriptor.entries, List.mem_append] at he
    rcases he with ((hversion | hkind) | hmetadata) | hrest
    · exact hfits (fits_textField e hversion)
    · exact hfits (fits_textField e hkind)
    · obtain rfl := List.mem_singleton.mp hmetadata
      exact value_document h.metadata
    · exact hfits (h.values e hrest)
  have hvalue := value_entries hentry
  rw [h.map_collected] at hvalue
  rw [readValue, hread]
  simp only [hroot]
  rw [show maxDepth = maxDepth - 1 + 1 from rfl, hvalue]
  rfl

end Yaml

/-! ## Keys that are written -/

/-- A value that has no key twice in a mapping. -/
inductive Value.KeysOnce : Value → Prop
  | null : KeysOnce .null
  | bool (b : Bool) : KeysOnce (.bool b)
  | number (n : Number) : KeysOnce (.number n)
  | text (s : String) : KeysOnce (.text s)
  | list {items : List Value} : (∀ v ∈ items, KeysOnce v) → KeysOnce (.list items)
  | dict {fields : List (String × Value)} : (fields.map Prod.fst).Nodup →
    (∀ e ∈ fields, KeysOnce e.2) → KeysOnce (.dict fields)

theorem Fields.Sorted.nodup_keys {α : Type} {fields : Fields α} (h : fields.Sorted) :
    (fields.map Prod.fst).Nodup := List.pairwise_map.mpr (h.imp ne_of_lt)

theorem Value.Fits.keysOnce {depth : Nat} (h : v.Fits depth) : v.KeysOnce := by
  induction h with
  | null => exact .null
  | bool b => exact .bool b
  | number _ => exact .number _
  | text s => exact .text s
  | list _ ih => exact .list ih
  | dict hsorted _ ih => exact .dict hsorted.nodup_keys ih

theorem keys_textField (k : String) (o : Option String) :
    ((textField k o).map Prod.fst).Sublist [k] := by
  cases o with
  | none => exact List.nil_sublist _
  | some s => exact List.Sublist.refl _

theorem keys_textsField (k : String) (texts : Fields String) :
    ((textsField k texts).map Prod.fst).Sublist [k] := by
  unfold textsField
  split
  · exact List.nil_sublist _
  · exact List.Sublist.refl _

/-- Keys of fields with a type and keys of the other fields are different. -/
theorem nodup_keys_append {P : String → Prop} {es es' : List (String × Value)} (keys : List String)
    (hkeys : (es.map Prod.fst).Sublist keys) (hnodup : keys.Nodup) (htyped : ∀ k ∈ keys, ¬ P k)
    (hnodup' : (es'.map Prod.fst).Nodup) (hother : ∀ e ∈ es', P e.1) :
    ((es ++ es').map Prod.fst).Nodup := by
  rw [List.map_append]
  refine List.nodup_append.mpr ⟨hkeys.nodup hnodup, hnodup', fun k hk k' hk' heq => ?_⟩
  obtain ⟨e, he, rfl⟩ := List.mem_map.mp hk'
  exact htyped k (hkeys.subset hk) (heq ▸ hother e he)

theorem Metadata.Fits.keysOnce {m : Metadata} (h : m.Fits) : m.document.KeysOnce := by
  refine .dict ?_ fun e he => (h.entries e he).keysOnce
  refine nodup_keys_append (P := fun k => MetadataField.ofKey k = .other)
    ["name", "namespace", "labels", "annotations"] ?_ (by decide) (by decide)
    h.extra.nodup_keys h.keys
  rw [List.map_append, List.map_append, List.map_append]
  exact (((List.Sublist.refl ["name"]).append (keys_textField _ _)).append
    (keys_textsField _ _)).append (keys_textsField _ _)

/-- No key is written twice. -/
theorem Descriptor.Fits.keysOnce {d : Descriptor} (h : d.Fits) :
    (Value.dict d.entries).KeysOnce := by
  refine .dict ?_ fun e he => ?_
  · refine nodup_keys_append (P := fun k => TopField.ofKey k = .other)
      ["apiVersion", "kind", "metadata"] ?_ (by decide) (by decide) h.rest.nodup_keys h.keys
    rw [List.map_append, List.map_append]
    exact ((keys_textField _ _).append (keys_textField _ _)).append (List.Sublist.refl _)
  · simp only [Descriptor.entries, List.mem_append] at he
    rcases he with ((hversion | hkind) | hmetadata) | hrest
    · have hfits : e.2.Fits 0 := fits_textField e hversion
      exact hfits.keysOnce
    · have hfits : e.2.Fits 0 := fits_textField e hkind
      exact hfits.keysOnce
    · obtain rfl := List.mem_singleton.mp hmetadata
      exact h.metadata.keysOnce
    · exact (h.values e hrest).keysOnce

/-! ## The whole codec -/

/-- For every JSON text that is read as a descriptor, the text is a mapping of fields, and what is
    written for the descriptor is the mapping of the fields that are retained, whether keys are taken
    as they are written or as what they stand for. Nothing is written twice for one key, so a reader
    that refuses repeated keys reads the same. -/
theorem Descriptor.render_retains {bytes : ByteArray} {d : Descriptor}
    (hjson : leadByte? bytes = some openBrace) (h : parse bytes = .ok d) :
    ∃ fields, Json.readValue bytes.data.toList = .ok (.dict fields) ∧
      (∀ keys, Yaml.readValue keys d.render = .ok (.dict (retained fields))) ∧
      (Value.dict d.entries).KeysOnce := by
  have hfits := fits_of_parse h
  rw [parse, hjson] at h
  obtain ⟨fields, hvalue, hsorted, hkeeps⟩ := Json.readDescriptor_keeps (of_mapError_ok h)
  refine ⟨fields, hvalue, fun keys => ?_, hfits.keysOnce⟩
  rw [Yaml.value_render hfits, hkeeps.retained hfits hsorted]

/-- A document with null fields, empty labels and the bookkeeping of servers, but without a name. -/
def Descriptor.sparse : ByteArray :=
  ("\x7b\"kind\":null,\"metadata\":\x7b\"namespace\":null,\"labels\":\x7b\x7d," ++
    "\"managedFields\":[1],\"uid\":\"7\"\x7d,\"spec\":[7,null]\x7d").toUTF8

/-- What is left of it is written with an empty name, and the text and the number as such. -/
theorem Descriptor.render_retains_sparse : ∃ d : Descriptor, parse sparse = .ok d ∧
    ∀ keys, Yaml.readValue keys d.render = .ok (.dict
      [("metadata", .dict [("name", .text ""), ("uid", .text "7")]),
       ("spec", .list [.number (.int 7), .null])]) := by
  have hparse : parse sparse = .ok
      { metadata := { extra := [("uid", .text "7")] }
        rest := [("spec", .list [.number (.int 7), .null])] } := by decide +kernel
  have hvalue : Json.readValue sparse.data.toList = .ok (.dict
      [("kind", .null),
       ("metadata", .dict [("labels", .dict []), ("managedFields", .list [.number (.int 1)]),
         ("namespace", .null), ("uid", .text "7")]),
       ("spec", .list [.number (.int 7), .null])]) := by decide +kernel
  refine ⟨_, hparse, fun keys => ?_⟩
  obtain ⟨fields, hfields, hretained, -⟩ := render_retains (by decide +kernel) hparse
  rw [hvalue] at hfields
  cases hfields
  rw [hretained keys]
  decide +kernel

end RunCache
