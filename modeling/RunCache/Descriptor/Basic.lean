import RunCache.Document.Value

/-! # Run descriptors

    A descriptor is the top-level document of a job run.  Only the fields
    that a run is routed by have a type; everything else is kept as it
    was found.  The bookkeeping that servers add to the metadata
    (`managedFields`) is no part of a descriptor.

    * **`Descriptor`**: the document.
    * **`Descriptor.entries`**: its fields in the order in which they are
      written.
    * **`MetadataField`, `TopField`**: which field a key names. -/

namespace RunCache

/-- The metadata of a descriptor. -/
structure Metadata where
  name : String := ""
  space : Option String := none
  labels : Fields String := []
  annotations : Fields String := []
  extra : Fields Value := []
deriving DecidableEq, Inhabited

/-- A descriptor. -/
structure Descriptor where
  apiVersion : Option String := none
  kind : Option String := none
  metadata : Metadata := {}
  rest : Fields Value := []
deriving DecidableEq, Inhabited

namespace Descriptor

/-! ## Labels -/

/-- The label whose value places a run in the by-name index. -/
def analysisKey : String := "release.openshift.io/analysis"

/-- The label that holds the build id of a run. -/
def buildIdKey : String := "prow.k8s.io/build-id"

/-- The name of the run. -/
def name (d : Descriptor) : String := d.metadata.name

/-- The value of a label. -/
def label (d : Descriptor) (key : String) : Option String := d.metadata.labels.get? key

/-- The label that places the run in the by-name index. -/
def analysisLabel (d : Descriptor) : Option String := d.label analysisKey

/-- The build id of the run. -/
def buildId (d : Descriptor) : Option String := d.label buildIdKey

end Descriptor

/-! ## Fields -/

/-- What a key of the metadata names. -/
inductive MetadataField where
  | name
  | space
  | labels
  | annotations
  | managed
  | other
deriving DecidableEq

/-- What a top-level key names. -/
inductive TopField where
  | apiVersion
  | kind
  | metadata
  | other
deriving DecidableEq

/-- What a key of the metadata names. -/
def MetadataField.ofKey (key : String) : MetadataField :=
  if key = "name" then .name
  else if key = "namespace" then .space
  else if key = "labels" then .labels
  else if key = "annotations" then .annotations
  else if key = "managedFields" then .managed
  else .other

/-- What a top-level key names. -/
def TopField.ofKey (key : String) : TopField :=
  if key = "apiVersion" then .apiVersion
  else if key = "kind" then .kind
  else if key = "metadata" then .metadata
  else .other

/-! ## Drafts

    While a descriptor is read, a field with a type is either still
    missing or has been met; it may be met only once. -/

/-- Metadata being read. -/
structure MetadataDraft where
  met : List MetadataField := []
  value : Metadata := {}

/-- A descriptor being read. -/
structure Draft where
  met : List TopField := []
  value : Descriptor := {}

/-- Whether a key of the metadata may not come again. -/
def MetadataDraft.repeats (d : MetadataDraft) (f : MetadataField) : Bool :=
  f ≠ .other && d.met.contains f

/-- Whether a top-level key may not come again. -/
def Draft.repeats (d : Draft) (f : TopField) : Bool :=
  f ≠ .other && d.met.contains f

/-- Notes a field and what it changes. -/
def MetadataDraft.meet (d : MetadataDraft) (f : MetadataField) (change : Metadata → Metadata) :
    MetadataDraft :=
  ⟨f :: d.met, change d.value⟩

/-- Notes a field and what it changes. -/
def Draft.meet (d : Draft) (f : TopField) (change : Descriptor → Descriptor) : Draft :=
  ⟨f :: d.met, change d.value⟩

/-! ## Written order -/

/-- An optional text field. -/
def textField (key : String) : Option String → List (String × Value)
  | some s => [(key, .text s)]
  | none => []

/-- A mapping of texts, left out when it is empty. -/
def textsField (key : String) (texts : Fields String) : List (String × Value) :=
  if texts.isEmpty then [] else [(key, .dict (texts.map fun e => (e.1, .text e.2)))]

/-- The metadata as a mapping. -/
def Metadata.document (m : Metadata) : Value :=
  .dict ([("name", .text m.name)] ++ textField "namespace" m.space ++
    textsField "labels" m.labels ++ textsField "annotations" m.annotations ++ m.extra)

/-- The entries of a descriptor: the fields with a type first, then the others in key order. -/
def Descriptor.entries (d : Descriptor) : List (String × Value) :=
  textField "apiVersion" d.apiVersion ++ textField "kind" d.kind ++
    [("metadata", d.metadata.document)] ++ d.rest

end RunCache
