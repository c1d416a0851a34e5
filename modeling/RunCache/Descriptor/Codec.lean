import RunCache.Descriptor.Json
import RunCache.Descriptor.Yaml
import RunCache.Yaml.Layout

/-! # Reading and writing descriptors

    A descriptor is read from JSON or YAML and always written as YAML.

    * **`Descriptor.parse`**: the first byte that is not blank decides
      the notation.
    * **`Descriptor.render`**: the one written form. -/

namespace RunCache.Descriptor

/-- Why bytes are no descriptor. -/
inductive Fault where
  | empty
  | json (complaint : Json.Complaint)
  | yaml (fault : Yaml.Fault)
deriving DecidableEq

/-- The wording of a fault. -/
def Fault.message : Fault → String
  | .empty => "empty document"
  | .json complaint => complaint.message
  | .yaml fault => fault.message

/-- The bytes that may stand before a document without beginning it: space, tab, line feed, form
    feed and carriage return. -/
def isBlankByte (b : UInt8) : Bool :=
  b = 0x20 || b = 0x09 || b = 0x0A || b = 0x0C || b = 0x0D

/-- The byte of an opening brace. -/
def openBrace : UInt8 := 0x7B

/-- The first byte that is not blank. -/
def leadByte? (bytes : ByteArray) : Option UInt8 :=
  bytes.data.toList.find? (!isBlankByte ·)

/-- Reads a descriptor. -/
def parse (bytes : ByteArray) : Except Fault Descriptor :=
  match leadByte? bytes with
  | none => .error .empty
  | some b =>
    if b = openBrace then (Json.readDescriptor bytes.data.toList).mapError .json
    else (Yaml.readDescriptor bytes).mapError .yaml

/-- Writes a descriptor. -/
def render (d : Descriptor) : ByteArray := (Yaml.render d.entries).toUTF8

end RunCache.Descriptor
