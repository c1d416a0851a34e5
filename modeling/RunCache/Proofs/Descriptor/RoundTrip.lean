import RunCache.Descriptor.Codec
import RunCache.Proofs.Descriptor.Fits
import RunCache.Proofs.Yaml.Written

/-! # Descriptors are read back

    A descriptor is written field by field, and every field is taken from
    the node that it was written for.

    * **`Takes`**: what reading the nodes of entries makes of a draft.
    * **`metadataOf_document`**, **`descriptor_entries`**: metadata and
      descriptors are read from their nodes.
    * **`Descriptor.parse_render`**: a descriptor that was read is read
      again from what is written for it. -/

namespace RunCache

namespace Yaml

variable {δ : Type} {doc : Document} {add : δ → String → Node → Reading δ} {draft draft' draft'' : δ}
  {es es' : List (String × Value)} {key : String} {v : Value}

/-! ## Taking written entries -/

/-- Reading the nodes of entries one by one makes one draft into another, whatever budget there
    is. -/
inductive Takes (add : δ → String → Node → Reading δ) : δ → List (String × Value) → δ → Prop
  | nil (draft : δ) : Takes add draft [] draft
  | cons {draft draft' draft'' : δ} {key : String} {v : Value} {es : List (String × Value)} :
    (∀ budget, add draft key (valueNode v) budget = .ok (draft', budget)) →
    Takes add draft' es draft'' → Takes add draft ((key, v) :: es) draft''

theorem Takes.append (h : Takes add draft es draft') (h' : Takes add draft' es' draft'') :
    Takes add draft (es ++ es') draft'' := by
  induction h with
  | nil => exact h'
  | cons hentry _ ih => exact .cons hentry (ih h')

theorem Takes.takeFields (h : Takes add draft es draft') (doc : Document) (budget : Nat) :
    takeFields doc add draft (entryNodes es) budget = .ok (draft', budget) := by
  induction h generalizing budget with
  | nil => rfl
  | cons hentry _ ih =>
    rw [entryNodes, Yaml.takeFields, text_scalar]
    simp only [hentry]
    exact ih budget

/-- An entry whose value is read alone. -/
theorem takes_entry {α : Type} {r : Reading α} {x : α} {f : α → δ}
    (hadd : add draft key (valueNode v) = Reading.into r f)
    (hread : ∀ budget, r budget = .ok (x, budget)) (hf : f x = draft') :
    Takes add draft [(key, v)] draft' := by
  refine .cons (fun budget => ?_) (.nil _)
  rw [hadd, Reading.into, hread, ← hf]
  rfl

theorem takes_textField (read : Option String → δ)
    (hadd : ∀ n, add draft key n = Reading.into (doc.text? n) read) (o : Option String) :
    Takes add draft (textField key o) (o.elim draft fun s => read (some s)) := by
  cases o with
  | none => exact .nil draft
  | some s => exact takes_entry (hadd (valueNode (.text s))) (text?_scalar doc s) rfl

theorem textsOf_node {texts : Fields String} (h : texts.Sorted) (doc : Document) (budget : Nat) :
    textsOf doc (valueNode (.dict (texts.map fun e => (e.1, .text e.2)))) budget =
      .ok (texts, budget) := by
  have hread : Document.readEntries doc.text doc.text
      (entryNodes (texts.map fun e => (e.1, .text e.2))) budget = .ok (texts, budget) :=
    readEntries_nodes .text (fun _ _ => rfl) (fun _ _ _ => rfl) budget
  have hentries : doc.entries (valueNode (.dict (texts.map fun e => (e.1, .text e.2)))) budget =
      .ok (entryNodes (texts.map fun e => (e.1, .text e.2)), budget) := rfl
  rw [textsOf, hentries]
  simp only [hread, Except.map, Fields.ofList_of_sorted h]

theorem takes_textsField (read : Fields String → δ)
    (hadd : ∀ n, add draft key n = Reading.into (textsOf doc n) read) {texts : Fields String}
    (h : texts.Sorted) :
    Takes add draft (textsField key texts) (if texts.isEmpty then draft else read texts) := by
  unfold textsField
  split
  · exact .nil draft
  · exact takes_entry (hadd _) (textsOf_node h doc) rfl

/-! ## Metadata -/

section Metadata

variable {draft : MetadataDraft}

theorem takes_name (doc : Document) (s : String) :
    Takes (addMetadata doc) {} [("name", .text s)] ⟨[.name], { name := s }⟩ := by
  have hadd : addMetadata doc {} "name" (valueNode (.text s)) =
      Reading.into (doc.text (valueNode (.text s))) fun s => ⟨[.name], { name := s }⟩ := rfl
  exact takes_entry hadd (fun _ => rfl) rfl

theorem takes_space (hmet : draft.repeats .space = false) (doc : Document) (o : Option String) :
    Takes (addMetadata doc) draft (textField "namespace" o)
      (o.elim draft fun s => draft.meet .space ({ · with space := some s })) :=
  takes_textField (fun o => draft.meet .space ({ · with space := o }))
    (fun _ => if_neg (Bool.eq_false_iff.mp hmet)) o

theorem takes_labels (hmet : draft.repeats .labels = false) (doc : Document)
    {texts : Fields String} (h : texts.Sorted) :
    Takes (addMetadata doc) draft (textsField "labels" texts)
      (if texts.isEmpty then draft else draft.meet .labels ({ · with labels := texts })) :=
  takes_textsField (fun x => draft.meet .labels ({ · with labels := x }))
    (fun _ => if_neg (Bool.eq_false_iff.mp hmet)) h

theorem takes_annotations (hmet : draft.repeats .annotations = false) (doc : Document)
    {texts : Fields String} (h : texts.Sorted) :
    Takes (addMetadata doc) draft (textsField "annotations" texts)
      (if texts.isEmpty then draft else draft.meet .annotations ({ · with annotations := texts })) :=
  takes_textsField (fun x => draft.meet .annotations ({ · with annotations := x }))
    (fun _ => if_neg (Bool.eq_false_iff.mp hmet)) h

/-- Untyped entries are collected behind those that are there. -/
theorem takes_extra (doc : Document) (hkeys : ∀ e ∈ es, MetadataField.ofKey e.1 = .other)
    (hfits : ∀ e ∈ es, e.2.Fits (maxDepth - 2)) (draft : MetadataDraft) :
    ∃ met, Takes (addMetadata doc) draft es ⟨met, { draft.value with
      extra := es.foldl (fun fields e => fields.insert e.1 e.2) draft.value.extra }⟩ := by
  induction es generalizing draft with
  | nil => exact ⟨draft.met, .nil draft⟩
  | cons e es ih =>
    obtain ⟨key, v⟩ := e
    have hkey : MetadataField.ofKey key = .other := hkeys (key, v) (by simp)
    obtain ⟨met, htakes⟩ := ih (fun e he => hkeys e (List.mem_cons_of_mem _ he))
      (fun e he => hfits e (List.mem_cons_of_mem _ he))
      (draft.meet .other fun m => { m with extra := m.extra.insert key v })
    refine ⟨met, .cons (fun budget => ?_) htakes⟩
    have hread := value_valueNode (hfits (key, v) (by simp)) doc .resolved budget
    simp only [addMetadata, hkey, MetadataDraft.repeats, ne_eq, not_true_eq_false, decide_false,
      Bool.false_and, Bool.false_eq_true, if_false, Reading.into, hread]
    rfl

theorem takes_metadata {m : Metadata} (h : m.Fits) (doc : Document) :
    ∃ met, Takes (addMetadata doc) {} ([("name", .text m.name)] ++ textField "namespace" m.space ++
      textsField "labels" m.labels ++ textsField "annotations" m.annotations ++ m.extra)
      ⟨met, m⟩ := by
  have hspace := (takes_name doc m.name).append (takes_space rfl doc m.space)
  have hlabels := hspace.append (takes_labels (by cases m.space <;> rfl) doc h.labels)
  have hannotations := hlabels.append
    (takes_annotations (by cases m.space <;> cases m.labels <;> rfl) doc h.annotations)
  obtain ⟨met, hextra⟩ := takes_extra doc h.keys h.values _
  have hall := hannotations.append hextra
  have hcollect : Fields.ofList m.extra = m.extra := Fields.ofList_of_sorted h.extra
  unfold Fields.ofList at hcollect
  refine ⟨met, ?_⟩
  obtain ⟨name, space, labels, annotations, extra⟩ := m
  cases space <;> cases labels <;> cases annotations <;>
    simpa [MetadataDraft.meet, hcollect] using hall

/-- Metadata is read from its node. -/
theorem metadataOf_document {m : Metadata} (h : m.Fits) (doc : Document) (budget : Nat) :
    metadataOf doc (valueNode m.document) budget = .ok (m, budget) := by
  obtain ⟨met, htakes⟩ := takes_metadata h doc
  have hread := htakes.takeFields doc budget
  have hentries : doc.entries (valueNode m.document) budget = .ok (entryNodes
      ([("name", .text m.name)] ++ textField "namespace" m.space ++ textsField "labels" m.labels ++
        textsField "annotations" m.annotations ++ m.extra), budget) := rfl
  rw [metadataOf, hentries]
  simp only [hread]
  rfl

end Metadata

/-! ## Descriptors -/

section Top

variable {draft : Draft}

theorem takes_apiVersion (doc : Document) (o : Option String) :
    Takes (addTop doc) {} (textField "apiVersion" o)
      (o.elim {} fun s => Draft.meet {} .apiVersion ({ · with apiVersion := some s })) :=
  takes_textField (fun o => Draft.meet {} .apiVersion ({ · with apiVersion := o }))
    (fun _ => rfl) o

theorem takes_kind (hmet : draft.repeats .kind = false) (doc : Document) (o : Option String) :
    Takes (addTop doc) draft (textField "kind" o)
      (o.elim draft fun s => draft.meet .kind ({ · with kind := some s })) :=
  takes_textField (fun o => draft.meet .kind ({ · with kind := o }))
    (fun _ => if_neg (Bool.eq_false_iff.mp hmet)) o

theorem takes_document (hmet : draft.repeats .metadata = false) (doc : Document) {m : Metadata}
    (h : m.Fits) :
    Takes (addTop doc) draft [("metadata", m.document)]
      (draft.meet .metadata ({ · with metadata := m })) := by
  have hadd : addTop doc draft "metadata" (valueNode m.document) =
      Reading.into (metadataOf doc (valueNode m.document)) fun m =>
        draft.meet .metadata ({ · with metadata := m }) :=
    if_neg (Bool.eq_false_iff.mp hmet)
  exact takes_entry hadd (metadataOf_document h doc) rfl

/-- Untyped entries are collected behind those that are there. -/
theorem takes_rest (doc : Document) (hkeys : ∀ e ∈ es, TopField.ofKey e.1 = .other)
    (hfits : ∀ e ∈ es, e.2.Fits (maxDepth - 1)) (draft : Draft) :
    ∃ met, Takes (addTop doc) draft es ⟨met, { draft.value with
      rest := es.foldl (fun fields e => fields.insert e.1 e.2) draft.value.rest }⟩ := by
  induction es generalizing draft with
  | nil => exact ⟨draft.met, .nil draft⟩
  | cons e es ih =>
    obtain ⟨key, v⟩ := e
    have hkey : TopField.ofKey key = .other := hkeys (key, v) (by simp)
    obtain ⟨met, htakes⟩ := ih (fun e he => hkeys e (List.mem_cons_of_mem _ he))
      (fun e he => hfits e (List.mem_cons_of_mem _ he))
      (draft.meet .other fun p => { p with rest := p.rest.insert key v })
    refine ⟨met, .cons (fun budget => ?_) htakes⟩
    have hread := value_valueNode (hfits (key, v) (by simp)) doc .resolved budget
    simp only [addTop, hkey, Draft.repeats, ne_eq, not_true_eq_false, decide_false,
      Bool.false_and, Bool.false_eq_true, if_false, Reading.into, hread]
    rfl

theorem takes_entries {d : Descriptor} (h : d.Fits) (doc : Document) :
    ∃ met, Takes (addTop doc) {} d.entries ⟨met, d⟩ := by
  have hkind := (takes_apiVersion doc d.apiVersion).append
    (takes_kind (by cases d.apiVersion <;> rfl) doc d.kind)
  have hmetadata := hkind.append
    (takes_document (by cases d.apiVersion <;> cases d.kind <;> rfl) doc h.metadata)
  obtain ⟨met, hrest⟩ := takes_rest doc h.keys h.values _
  have hall := hmetadata.append hrest
  have hcollect : Fields.ofList d.rest = d.rest := Fields.ofList_of_sorted h.rest
  unfold Fields.ofList at hcollect
  refine ⟨met, ?_⟩
  obtain ⟨apiVersion, kind, metadata, rest⟩ := d
  unfold Descriptor.entries
  cases apiVersion <;> cases kind <;> simpa [Draft.meet, hcollect] using hall

/-- A descriptor is read from the document of its entries. -/
theorem descriptor_entries {d : Descriptor} (h : d.Fits)
    (hroot : doc.root = some (.dict {} (entryNodes d.entries))) : doc.descriptor = .ok d := by
  obtain ⟨met, htakes⟩ := takes_entries h doc
  have hread := htakes.takeFields doc doc.budget
  have hentries : doc.entries (.dict {} (entryNodes d.entries)) doc.budget =
      .ok (entryNodes d.entries, doc.budget) := rfl
  rw [Document.descriptor, hroot]
  simp only [hentries, hread]
  rfl

end Top

end Yaml

/-! ## The whole codec -/

namespace Descriptor

variable {d : Descriptor} {bytes : ByteArray}

/-- The first field that is written has one of three keys. -/
theorem entries_cons (d : Descriptor) : ∃ key v es c cs, d.entries = (key, v) :: es ∧
    Yaml.keyLines 0 key = c :: cs ∧ c ∈ ['a', 'k', 'm'] := by
  obtain ⟨apiVersion, kind, metadata, rest⟩ := d
  cases apiVersion with
  | some s => exact ⟨"apiVersion", _, _, 'a', "piVersion:".toList, rfl, by decide, by decide⟩
  | none =>
    cases kind with
    | some s => exact ⟨"kind", _, _, 'k', "ind:".toList, rfl, by decide, by decide⟩
    | none => exact ⟨"metadata", _, _, 'm', "etadata:".toList, rfl, by decide, by decide⟩

/-- What is written is no JSON, and its document holds the entries of the descriptor. -/
theorem read_render (d : Descriptor) : (∃ b, leadByte? d.render = some b ∧ b ≠ openBrace) ∧
    ∃ doc, Yaml.Document.read d.render = .ok doc ∧
      doc.root = some (.dict {} (Yaml.entryNodes d.entries)) := by
  obtain ⟨key, v, es, c, cs, hentries, hkey, hc⟩ := entries_cons d
  have htext : Yaml.Layout.entries 0 d.entries =
      c :: (cs ++ Yaml.behindKey 0 key v ++ Yaml.Layout.entries 0 es) := by
    rw [hentries, Yaml.Layout.entries, hkey]
    rfl
  -- The byte of that character is no blank, no brace and no part of a byte order mark.
  have hbyte : c.toNat < 0x80 ∧ c.val.toUInt8 < 0x80 ∧ isBlankByte c.val.toUInt8 = false ∧
      c.val.toUInt8 ≠ openBrace := by
    simp only [List.mem_cons, List.not_mem_nil, or_false] at hc
    rcases hc with rfl | rfl | rfl <;> decide
  obtain ⟨hascii, hsmall, hblank, hbrace⟩ := hbyte
  obtain ⟨rest, hbytes⟩ := Yaml.bytes_cons hascii
    (cs ++ Yaml.behindKey 0 key v ++ Yaml.Layout.entries 0 es)
  rw [← htext] at hbytes
  have hlead : leadByte? d.render = some c.val.toUInt8 := by
    rw [leadByte?, render, Yaml.render, hbytes]
    exact List.find?_cons_of_pos (by rw [hblank]; rfl)
  rw [hentries] at hbytes
  obtain ⟨doc, hread, hroot⟩ := Yaml.read_render hbytes hsmall
  rw [← hentries] at hread hroot
  exact ⟨⟨_, hlead, hbrace⟩, doc, hread, hroot⟩

/-- A descriptor that fits is read from what is written for it. -/
theorem parse_render_of_fits (h : d.Fits) : parse d.render = .ok d := by
  obtain ⟨⟨b, hlead, hbrace⟩, doc, hread, hroot⟩ := read_render d
  have hyaml : Yaml.readDescriptor d.render = .ok d := by
    rw [Yaml.readDescriptor, hread]
    exact Yaml.descriptor_entries h hroot
  rw [parse, hlead]
  simp only [hbrace, if_false, hyaml]
  rfl

/-- What is read fits. -/
theorem fits_of_parse (h : parse bytes = .ok d) : d.Fits := by
  unfold parse at h
  split at h
  · cases h
  · split at h
    · exact Json.fits_readDescriptor (of_mapError_ok h)
    · exact Yaml.fits_readDescriptor (of_mapError_ok h)

/-- A descriptor that was read, from JSON or from YAML, is read again from what is written for it. -/
theorem parse_render (h : parse bytes = .ok d) : parse d.render = .ok d :=
  parse_render_of_fits (fits_of_parse h)

/-- A name of digits and a word for null that were texts stay texts, and numbers stay numbers. -/
theorem parse_render_scalars : ∃ d : Descriptor, d.metadata.name = "7" ∧
    d.rest = [("spec", .list [.text "null", .number (.float ⟨true, twoTo 52, -53, by decide⟩),
      .text "first\n second\n"])] ∧
    parse "metadata:\n  name: 7\nspec:\n- 'null'\n- -0.5\n- |\n  first\n   second\n".toUTF8 = .ok d ∧
    parse d.render = .ok d := by
  have hparse : parse
      "metadata:\n  name: 7\nspec:\n- 'null'\n- -0.5\n- |\n  first\n   second\n".toUTF8 = .ok
        { metadata := { name := "7" }
          rest := [("spec", .list [.text "null", .number (.float ⟨true, twoTo 52, -53, by decide⟩),
            .text "first\n second\n"])] } := by
    decide +kernel
  exact ⟨_, rfl, rfl, hparse, parse_render hparse⟩

end Descriptor

end RunCache
