import RunCache.Settings.Basic
import RunCache.Yaml.Layout

/-! # Settings files

    Settings are kept in a YAML mapping.  A missing entry has its default,
    and an entry that is none of theirs means nothing.

    * **`Settings.parse`**: the settings of a document.
    * **`Settings.render`**: the document of settings.
    * **`Settings.load`**: the settings of a file. -/

namespace RunCache

open Yaml (Document Node Reading)

/-! ## Values of entries -/

namespace Yaml.Document

/-- A number below a bound. -/
def natural (d : Document) (bound : Nat) (n : Node) : Reading Nat := fun budget =>
  match d.follow n budget with
  | .error e => .error e
  | .ok (.scalar _ true s, budget) =>
    match unsigned? s.toList with
    | some i => if i < bound then .ok (i, budget) else .error .numberOutOfRange
    | none => .error .mismatch
  | .ok _ => .error .mismatch

/-- A number below a bound that a word for null leaves out. -/
def natural? (d : Document) (bound : Nat) (n : Node) : Reading (Option Nat) := fun budget =>
  match d.text? n budget with
  | .error e => .error e
  | .ok (none, budget) => .ok (none, budget)
  | .ok (some _, _) => Reading.into (d.natural bound n) some budget

/-- A truth value. -/
def truth (d : Document) (n : Node) : Reading Bool := fun budget =>
  match d.follow n budget with
  | .error e => .error e
  | .ok (.scalar _ true s, budget) =>
    match truth? s with
    | some b => .ok (b, budget)
    | none => .error .mismatch
  | .ok _ => .error .mismatch

/-- A word: a scalar, or a tag of the document's own on nothing. -/
def word (d : Document) (n : Node) : Reading String := fun budget =>
  match d.follow n budget with
  | .error e => .error e
  | .ok (.scalar props plain s, budget) =>
    match props.tag.filter isLocalTag with
    | some tag =>
      if plain && (s.isEmpty || isNullWord s) then .ok (String.ofList (tag.toList.drop 1), budget)
      else .error .mismatch
    | none => .ok (s, budget)
  | .ok _ => .error .mismatch

/-- A word that names something. -/
def named {α : Type} (d : Document) (ofName? : String → Option α) (n : Node) : Reading α :=
  fun budget =>
    match d.word n budget with
    | .error e => .error e
    | .ok (s, budget) =>
      match ofName? s with
      | some x => .ok (x, budget)
      | none => .error .mismatch

end Yaml.Document

namespace Settings

/-! ## Reading -/

/-- How an entry changes settings. -/
abbrev Change : Type := Settings → Settings

/-- The entries of settings, and how each is read. -/
def fields (d : Document) : List (String × (Node → Reading Change)) :=
  [("job_name", fun n => Reading.into (d.text n) fun x s => { s with jobName := x }),
   ("working_dir", fun n => Reading.into (d.text n) fun x s => { s with workingDir := ⟨x⟩ }),
   ("store", fun n => Reading.into (d.named StoreKind.ofName? n) fun x s => { s with store := x }),
   ("bucket", fun n => Reading.into (d.text n) fun x s => { s with bucket := x }),
   ("endpoint_url", fun n => Reading.into (d.text n) fun x s => { s with endpointUrl := x }),
   ("region", fun n => Reading.into (d.text n) fun x s => { s with region := x }),
   ("access_key_id", fun n => Reading.into (d.text? n) fun x s => { s with accessKeyId := x }),
   ("secret_access_key",
     fun n => Reading.into (d.text? n) fun x s => { s with secretAccessKey := x }),
   ("mirror_dir",
     fun n => Reading.into (d.text? n) fun x s => { s with mirrorDir := x.map Path.mk }),
   ("recency_window_hours",
     fun n => Reading.into (d.natural (twoTo 32) n) fun x s =>
       { s with recencyWindowHours := UInt32.ofNat x }),
   ("resume_from_cache", fun n => Reading.into (d.truth n) fun x s => { s with resume := x }),
   ("timeout_secs",
     fun n => Reading.into (d.natural? (twoTo 64) n) fun x s =>
       { s with timeoutSecs := x.map UInt64.ofNat }),
   ("log_format",
     fun n => Reading.into (d.named LogFormat.ofName? n) fun x s => { s with logFormat := x })]

/-- Settings being read, and the entries met. -/
structure Draft where
  met : List String := []
  value : Settings := {}

/-- Takes one entry. -/
def addField (d : Document) (draft : Draft) (key : String) (n : Node) : Reading Draft :=
  match (fields d).find? (·.1 = key) with
  | none => fun budget => .ok (draft, budget)
  | some (_, read) =>
    if draft.met.contains key then fun _ => .error (.duplicateField key)
    else Reading.into (read n) fun change => ⟨key :: draft.met, change draft.value⟩

/-- The settings of a document. A stream without a document changes nothing. -/
def ofDocument (d : Document) : Except Yaml.Fault Settings :=
  match d.root with
  | none => .ok {}
  | some root =>
    match d.entries root d.budget with
    | .error e => .error e
    | .ok (entries, budget) =>
      (Yaml.takeFields d (addField d) {} entries budget).map fun (draft, _) => draft.value

/-- The settings of a text. -/
def parse (bytes : ByteArray) : Except Yaml.Fault Settings :=
  match Document.read bytes with
  | .error e => .error e
  | .ok d => ofDocument d

/-! ## Writing -/

/-- A text or null. -/
def textOrNull (s : Option String) : Value := s.elim .null .text

/-- The entries of settings, in their order. -/
def entries (s : Settings) : List (String × Value) :=
  [("job_name", .text s.jobName), ("working_dir", .text s.workingDir.text),
   ("store", .text s.store.name), ("bucket", .text s.bucket),
   ("endpoint_url", .text s.endpointUrl), ("region", .text s.region),
   ("access_key_id", textOrNull s.accessKeyId),
   ("secret_access_key", textOrNull s.secretAccessKey),
   ("mirror_dir", textOrNull (s.mirrorDir.map (·.text))),
   ("recency_window_hours", .number (.int s.recencyWindowHours.toNat)),
   ("resume_from_cache", .bool s.resume),
   ("timeout_secs", s.timeoutSecs.elim .null fun n => .number (.int n.toNat)),
   ("log_format", .text s.logFormat.name)]

/-- The document of settings. -/
def render (s : Settings) : String := Yaml.render s.entries

/-! ## Files -/

/-- Why settings could not be loaded. -/
inductive LoadFault where
  | reading (file : Path)
  | parsing (file : Path) (fault : Yaml.Fault)
deriving DecidableEq

/-- The wording of a failed loading. -/
def LoadFault.message : LoadFault → String
  | .reading file => "reading config file " ++ file.text
  | .parsing file _ => "parsing config file " ++ file.text

/-- The settings of a file, which must be text. -/
def ofFile (d : Disk) (file : Path) : Except LoadFault Settings :=
  match d.readFile file with
  | .error _ => .error (.reading file)
  | .ok bytes =>
    if (String.fromUTF8? bytes).isNone then .error (.reading file)
    else (parse bytes).mapError (.parsing file)

/-- The settings of the file that is asked for, or else of the user's own file if there is one. -/
def load (d : Disk) (asked : Option Path) (userFile : Path) : Except LoadFault Settings :=
  match asked with
  | some file => ofFile d file
  | none =>
    match d.exists? userFile with
    | .ok true => ofFile d userFile
    | _ => .ok {}

end Settings

end RunCache
