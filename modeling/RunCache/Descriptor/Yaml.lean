import RunCache.Descriptor.Basic
import RunCache.Yaml.Resolve

/-! # Descriptors in YAML

    Text fields take any scalar as it is written, and keys of the two
    levels with types are always texts. -/

namespace RunCache.Yaml

/-! ## Fields -/

/-- A mapping of texts. -/
def textsOf (d : Document) (n : Node) : Reading (Fields String) := fun budget =>
  match d.entries n budget with
  | .error e => .error e
  | .ok (fields, budget) =>
    (Document.readEntries d.text d.text fields budget).map fun (entries, budget) =>
      (Fields.ofList entries, budget)

/-- Takes one entry of the metadata. -/
def addMetadata (d : Document) (draft : MetadataDraft) (key : String) (n : Node) :
    Reading MetadataDraft :=
  let field := MetadataField.ofKey key
  if draft.repeats field then fun _ => .error (.duplicateField key)
  else match field with
    | .name => Reading.into (d.text n) fun s => draft.meet field ({ · with name := s })
    | .space => Reading.into (d.text? n) fun s => draft.meet field ({ · with space := s })
    | .labels => Reading.into (textsOf d n) fun x => draft.meet field ({ · with labels := x })
    | .annotations =>
      Reading.into (textsOf d n) fun x => draft.meet field ({ · with annotations := x })
    | .managed => Reading.into (d.value .verbatim (maxDepth - 2) n) fun _ => draft.meet field id
    | .other =>
      Reading.into (d.value .resolved (maxDepth - 2) n) fun v =>
        draft.meet field fun m => { m with extra := m.extra.insert key v }

/-- The metadata. -/
def metadataOf (d : Document) (n : Node) : Reading Metadata := fun budget =>
  match d.entries n budget with
  | .error e => .error e
  | .ok (fields, budget) =>
    (takeFields d (addMetadata d) {} fields budget).map fun (draft, budget) =>
      (draft.value, budget)

/-- Takes one top-level entry. -/
def addTop (d : Document) (draft : Draft) (key : String) (n : Node) : Reading Draft :=
  let field := TopField.ofKey key
  if draft.repeats field then fun _ => .error (.duplicateField key)
  else match field with
    | .apiVersion => Reading.into (d.text? n) fun s => draft.meet field ({ · with apiVersion := s })
    | .kind => Reading.into (d.text? n) fun s => draft.meet field ({ · with kind := s })
    | .metadata =>
      Reading.into (metadataOf d n) fun m => draft.meet field ({ · with metadata := m })
    | .other =>
      Reading.into (d.value .resolved (maxDepth - 1) n) fun v =>
        draft.meet field fun p => { p with rest := p.rest.insert key v }

/-- The descriptor of a document. A stream without a document is an empty mapping. -/
def Document.descriptor (d : Document) : Except Fault Descriptor :=
  match d.root with
  | none => .ok {}
  | some root =>
    match d.entries root d.budget with
    | .error e => .error e
    | .ok (fields, budget) =>
      (takeFields d (addTop d) {} fields budget).map fun (draft, _) => draft.value

/-- The descriptor of a byte sequence. -/
def readDescriptor (bytes : ByteArray) : Except Fault Descriptor :=
  match Document.read bytes with
  | .error e => .error e
  | .ok d => d.descriptor

end RunCache.Yaml
