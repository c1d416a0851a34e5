import RunCache.Descriptor.Basic
import RunCache.Json.Reader
import RunCache.Text.Quoted

/-! # Descriptors in JSON

    The tree of a JSON text is gone through in document order, so the
    first complaint about a field or fault of the text is the one that is
    reported. -/

namespace RunCache.Json

/-! ## Complaints -/

/-- The kind of value that a field takes. -/
inductive Expected where
  | text
  | mapping
  | metadata
deriving DecidableEq

/-- What was found where another kind of value was expected. -/
inductive Found where
  | null
  | bool (b : Bool)
  | number (n : Number)
  | text (s : String)
  | list
  | dict
deriving DecidableEq

/-- Why a JSON text is no descriptor. -/
inductive Complaint where
  | fault (f : Fault)
  | mismatch (found : Found) (expected : Expected)
  | repeated (field : String)
deriving DecidableEq

/-- The wording of what a field takes. -/
def Expected.message : Expected → String
  | .text => "a string"
  | .mapping => "a map"
  | .metadata => "struct ProwJobMetadata"

/-- A text between backquotes. -/
def backquoted (s : String) : String := "`" ++ s ++ "`"

/-- The wording of what was found. -/
def Found.message : Found → String
  | .null => "null"
  | .bool b => "boolean " ++ backquoted (if b then "true" else "false")
  | .number (.int n) => "integer " ++ backquoted (toString n)
  | .number (.float x) => "floating point " ++ backquoted x.text
  | .text s => "string " ++ Text.quoted s
  | .list => "sequence"
  | .dict => "map"

/-- The wording of a complaint. -/
def Complaint.message : Complaint → String
  | .fault f => f.message
  | .mismatch found expected =>
    "invalid type: " ++ found.message ++ ", expected " ++ expected.message
  | .repeated field => "duplicate field " ++ backquoted field

/-! ## Fields -/

/-- The complaint about a tree in a place that takes another kind of value. -/
def complaint (expected : Expected) : Tree → Complaint
  | .null => .mismatch .null expected
  | .bool b => .mismatch (.bool b) expected
  | .number n => .mismatch (.number n) expected
  | .text s => .mismatch (.text s) expected
  | .list .. => .mismatch .list expected
  | .dict .. => .mismatch .dict expected
  | .broken f => .fault f

/-- A text. -/
def textOf : Tree → Except Complaint String
  | .text s => .ok s
  | t => .error (complaint .text t)

/-- A text or null. -/
def text?Of : Tree → Except Complaint (Option String)
  | .null => .ok none
  | t => (textOf t).map some

/-- An untyped value. -/
def valueOf (t : Tree) : Except Complaint Value := t.value.mapError .fault

/-- Takes the entries of a mapping one by one into a draft, then meets its end. -/
def takeFields {δ : Type} (add : δ → String → Tree → Except Complaint δ) (d : δ) :
    List (String × Tree) → Option Fault → Except Complaint δ
  | [], none => .ok d
  | [], some f => .error (.fault f)
  | (k, t) :: rest, stop =>
    match add d k t with
    | .error e => .error e
    | .ok d => takeFields add d rest stop

/-- A mapping of texts. -/
def textsOf : Tree → Except Complaint (Fields String)
  | .dict fields stop =>
    takeFields (fun d k t => (textOf t).map fun s => d.insert k s) [] fields stop
  | t => .error (complaint .mapping t)

/-- Takes one entry of the metadata. -/
def addMetadata (d : MetadataDraft) (key : String) (t : Tree) : Except Complaint MetadataDraft :=
  let field := MetadataField.ofKey key
  if d.repeats field then .error (.repeated key)
  else match field with
    | .name => (textOf t).map fun s => d.meet field ({ · with name := s })
    | .space => (text?Of t).map fun s => d.meet field ({ · with space := s })
    | .labels => (textsOf t).map fun x => d.meet field ({ · with labels := x })
    | .annotations => (textsOf t).map fun x => d.meet field ({ · with annotations := x })
    | .managed => (valueOf t).map fun _ => d.meet field id
    | .other =>
      (valueOf t).map fun v => d.meet field fun m => { m with extra := m.extra.insert key v }

/-- The metadata. -/
def metadataOf : Tree → Except Complaint Metadata
  | .dict fields stop => (takeFields addMetadata {} fields stop).map (·.value)
  | t => .error (complaint .metadata t)

/-- Takes one top-level entry. -/
def addTop (d : Draft) (key : String) (t : Tree) : Except Complaint Draft :=
  let field := TopField.ofKey key
  if d.repeats field then .error (.repeated key)
  else match field with
    | .apiVersion => (text?Of t).map fun s => d.meet field ({ · with apiVersion := s })
    | .kind => (text?Of t).map fun s => d.meet field ({ · with kind := s })
    | .metadata => (metadataOf t).map fun m => d.meet field ({ · with metadata := m })
    | .other =>
      (valueOf t).map fun v => d.meet field fun p => { p with rest := p.rest.insert key v }

/-- The descriptor of a text that begins with a brace. -/
def readDescriptor (bytes : List UInt8) : Except Complaint Descriptor :=
  let (tree, trailing) := read bytes
  match tree with
  | .dict fields stop =>
    match takeFields addTop {} fields stop with
    | .error e => .error e
    | .ok d => match trailing with
      | some f => .error (.fault f)
      | none => .ok d.value
  | t => .error (complaint .mapping t)

end RunCache.Json
