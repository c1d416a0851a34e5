import RunCache.Yaml.Token

/-! # YAML nodes

    The tokens of a stream with at most one document become a tree of
    nodes.  Anchors are numbered as they are met, and an alias stands in
    the tree as the number it refers to, so that a node may refer to one
    that surrounds it.

    * **`Node`**: the tree.
    * **`Node.parse`**: the tree of a list of tokens.
    * **`Document`**: the tree with what its aliases stand for. -/

namespace RunCache.Yaml

/-! ## Nodes -/

/-- The anchor and the tag of a node. -/
structure Properties where
  anchor : Option Nat := none
  tag : Option String := none
deriving DecidableEq, Repr

/-- A node of a document. A scalar is plain when nothing but its characters marks it. -/
inductive Node where
  | scalar (props : Properties) (plain : Bool) (text : String)
  | list (props : Properties) (items : List Node)
  | dict (props : Properties) (fields : List (Node × Node))
  | alias (id : Nat)
deriving Inhabited

namespace Node

/-- The scalar that stands for a missing node. -/
def missing (props : Properties := {}) : Node := .scalar props true ""

/-- The properties of a node. -/
def props : Node → Properties
  | .scalar p _ _ => p
  | .list p _ => p
  | .dict p _ => p
  | .alias _ => {}

mutual

/-- The count of marks in which a node is delivered: one per scalar and alias, two more per list
    and mapping than for what it holds. -/
def size : Node → Nat
  | .scalar .. => 1
  | .alias _ => 1
  | .list _ items => 2 + sizeItems items
  | .dict _ fields => 2 + sizeFields fields

/-- The marks of the items of a list. -/
def sizeItems : List Node → Nat
  | [] => 0
  | n :: ns => n.size + sizeItems ns

/-- The marks of the entries of a mapping. -/
def sizeFields : List (Node × Node) → Nat
  | [] => 0
  | (k, v) :: ns => k.size + v.size + sizeFields ns

end

/-- A node with its anchor, if it has one. -/
def named (n : Node) : List (Nat × Node) :=
  match n.props.anchor with
  | some id => [(id, n)]
  | none => []

mutual

/-- The anchored nodes in and below a node, in the order of their beginnings. -/
def anchored : Node → List (Nat × Node)
  | .scalar p b t => named (.scalar p b t)
  | .alias _ => []
  | .list p items => named (.list p items) ++ anchoredItems items
  | .dict p fields => named (.dict p fields) ++ anchoredFields fields

/-- The anchored nodes of the items of a list. -/
def anchoredItems : List Node → List (Nat × Node)
  | [] => []
  | n :: ns => n.anchored ++ anchoredItems ns

/-- The anchored nodes of the entries of a mapping. -/
def anchoredFields : List (Node × Node) → List (Nat × Node)
  | [] => []
  | (k, v) :: ns => k.anchored ++ v.anchored ++ anchoredFields ns

end

end Node

/-! ## Building nodes -/

/-- What building a node needs to know: the handles of tags, and the names of anchors met so far
    with the number each one stands for. -/
structure Names where
  handles : List (String × String) := []
  anchors : List (String × Nat) := []

namespace Names

/-- The two handles that need no directive. -/
def standard : List (String × String) := [("!", "!"), ("!!", "tag:yaml.org,2002:")]

/-- Gives an anchor its number, the count of names met so far. A name met again gets a new number,
    but does not count again. -/
def define (n : Names) (name : String) : Nat × Names :=
  let id := n.anchors.length
  if n.anchors.any (·.1 = name) then
    (id, { n with anchors := n.anchors.map fun a => if a.1 = name then (name, id) else a })
  else (id, { n with anchors := n.anchors ++ [(name, id)] })

/-- The number of an anchor. -/
def number? (n : Names) (name : String) : Option Nat :=
  (n.anchors.find? (·.1 = name)).map (·.2)

/-- The full text of a tag. -/
def expand (n : Names) (handle suffix : String) : Except Fault String :=
  if handle.isEmpty then .ok suffix
  else match n.handles.find? (·.1 = handle) with
    | some (_, expansion) => .ok (expansion ++ suffix)
    | none => .error .directive

end Names

/-- A part of a tree, the tokens behind it and the names known there. -/
abbrev Built (α : Type) := Except Fault (α × List Token × Names)

/-- The anchor before a node. -/
def takeAnchor : List Token → Names → Option Nat × List Token × Names
  | .anchor name :: ts, n =>
    let (id, n) := n.define name
    (some id, ts, n)
  | ts, n => (none, ts, n)

/-- The tag before a node. -/
def takeTag : List Token → Names → Except Fault (Option String × List Token)
  | .tag handle suffix :: ts, n => (n.expand handle suffix).map fun t => (some t, ts)
  | ts, _ => .ok (none, ts)

/-- The anchor and the tag before a node, in either order. An anchor of the second place counts
    only behind a tag. -/
def takeProperties (ts : List Token) (n : Names) : Built Properties :=
  match ts with
  | .anchor _ :: _ =>
    let (anchor, ts, n) := takeAnchor ts n
    (takeTag ts n).map fun (tag, ts) => ({ anchor, tag }, ts, n)
  | _ =>
    match takeTag ts n with
    | .error e => .error e
    | .ok (none, ts) => .ok ({}, ts, n)
    | .ok (some tag, ts) =>
      let (anchor, ts, n) := takeAnchor ts n
      .ok ({ anchor, tag := some tag }, ts, n)

/-- Whether tokens begin with one that closes an entry of a block mapping. -/
def endsBlockEntry : List Token → Bool
  | .key :: _ | .value :: _ | .blockEnd :: _ => true
  | _ => false

namespace Node

mutual

/-- A node. Blocks may begin only where `block` is set; a list may stand at the indentation of the
    mapping around it where `indentless` is. -/
def build (steps : Nat) (block indentless : Bool) (ts : List Token) (n : Names) : Built Node :=
  match steps with
  | 0 => .error .malformed
  | steps + 1 =>
    match ts with
    | .alias name :: ts =>
      match n.number? name with
      | some id => .ok (.alias id, ts, n)
      | none => .error .unknownAlias
    | _ =>
      match takeProperties ts n with
      | .error e => .error e
      | .ok (props, ts, n) =>
        match ts with
        | .dash :: _ =>
          if indentless then
            (buildIndentless steps [] ts n).map fun (xs, ts, n) => (.list props xs, ts, n)
          else if props = {} then .error .malformed
          else .ok (missing props, ts, n)
        | .scalar plain text :: ts => .ok (.scalar props plain text, ts, n)
        | .openList :: ts =>
          (buildFlowList steps true [] ts n).map fun (xs, ts, n) => (.list props xs, ts, n)
        | .openDict :: ts =>
          (buildFlowDict steps true [] ts n).map fun (xs, ts, n) => (.dict props xs, ts, n)
        | .blockList :: rest =>
          if block then
            (buildBlockList steps [] rest n).map fun (xs, ts, n) => (.list props xs, ts, n)
          else if props = {} then .error .malformed
          else .ok (missing props, ts, n)
        | .blockDict :: rest =>
          if block then
            (buildBlockDict steps [] rest n).map fun (xs, ts, n) => (.dict props xs, ts, n)
          else if props = {} then .error .malformed
          else .ok (missing props, ts, n)
        | _ => if props = {} then .error .malformed else .ok (missing props, ts, n)

/-- The items of a block list, the latest first in `items`. -/
def buildBlockList (steps : Nat) (items : List Node) (ts : List Token) (n : Names) :
    Built (List Node) :=
  match steps with
  | 0 => .error .malformed
  | steps + 1 =>
    match ts with
    | .dash :: ts =>
      match ts with
      | .dash :: _ | .blockEnd :: _ => buildBlockList steps (missing :: items) ts n
      | _ =>
        match build steps true false ts n with
        | .error e => .error e
        | .ok (x, ts, n) => buildBlockList steps (x :: items) ts n
    | .blockEnd :: ts => .ok (items.reverse, ts, n)
    | _ => .error .malformed

/-- The items of a list at the indentation of the mapping around it. -/
def buildIndentless (steps : Nat) (items : List Node) (ts : List Token) (n : Names) :
    Built (List Node) :=
  match steps with
  | 0 => .error .malformed
  | steps + 1 =>
    match ts with
    | .dash :: ts =>
      match ts with
      | .dash :: _ | .key :: _ | .value :: _ | .blockEnd :: _ =>
        buildIndentless steps (missing :: items) ts n
      | _ =>
        match build steps true false ts n with
        | .error e => .error e
        | .ok (x, ts, n) => buildIndentless steps (x :: items) ts n
    | _ => .ok (items.reverse, ts, n)

/-- The entries of a block mapping. -/
def buildBlockDict (steps : Nat) (fields : List (Node × Node)) (ts : List Token) (n : Names) :
    Built (List (Node × Node)) :=
  match steps with
  | 0 => .error .malformed
  | steps + 1 =>
    match ts with
    | .key :: ts =>
      match buildBlockPart steps ts n with
      | .error e => .error e
      | .ok (k, ts, n) =>
        match ts with
        | .value :: ts =>
          match buildBlockPart steps ts n with
          | .error e => .error e
          | .ok (v, ts, n) => buildBlockDict steps ((k, v) :: fields) ts n
        | _ => buildBlockDict steps ((k, missing) :: fields) ts n
    | .value :: _ => .error .malformed
    | .blockEnd :: ts => .ok (fields.reverse, ts, n)
    | _ => .error .malformed

/-- A key or a value of a block mapping, which may be missing. -/
def buildBlockPart (steps : Nat) (ts : List Token) (n : Names) : Built Node :=
  match steps with
  | 0 => .error .malformed
  | steps + 1 =>
    if endsBlockEntry ts then .ok (missing, ts, n) else build steps true true ts n

/-- The items of a list in brackets. A pair among them is a mapping of its own. -/
def buildFlowList (steps : Nat) (first : Bool) (items : List Node) (ts : List Token) (n : Names) :
    Built (List Node) :=
  match steps with
  | 0 => .error .malformed
  | steps + 1 =>
    let next (ts : List Token) : Built (List Node) :=
      match ts with
      | .closeList :: ts => .ok (items.reverse, ts, n)
      | .key :: ts =>
        match buildPair steps ts n with
        | .error e => .error e
        | .ok (pair, ts, n) => buildFlowList steps false (.dict {} [pair] :: items) ts n
      | _ =>
        match build steps false false ts n with
        | .error e => .error e
        | .ok (x, ts, n) => buildFlowList steps false (x :: items) ts n
    match ts with
    | .closeList :: ts => .ok (items.reverse, ts, n)
    | .comma :: rest => if first then next ts else next rest
    | _ => if first then next ts else .error .malformed

/-- A pair among the items of a list in brackets. Where its key is missing, the mark behind the
    missing key is passed over. -/
def buildPair (steps : Nat) (ts : List Token) (n : Names) : Built (Node × Node) :=
  match steps with
  | 0 => .error .malformed
  | steps + 1 =>
    let value (k : Node) (ts : List Token) (n : Names) : Built (Node × Node) :=
      match ts with
      | .value :: ts =>
        match ts with
        | .comma :: _ | .closeList :: _ => .ok ((k, missing), ts, n)
        | _ =>
          match build steps false false ts n with
          | .error e => .error e
          | .ok (v, ts, n) => .ok ((k, v), ts, n)
      | _ => .ok ((k, missing), ts, n)
    match ts with
    | .value :: ts | .comma :: ts | .closeList :: ts => value missing ts n
    | _ =>
      match build steps false false ts n with
      | .error e => .error e
      | .ok (k, ts, n) => value k ts n

/-- The entries of a mapping in braces. An entry without the mark of a key has no value. -/
def buildFlowDict (steps : Nat) (first : Bool) (fields : List (Node × Node)) (ts : List Token)
    (n : Names) : Built (List (Node × Node)) :=
  match steps with
  | 0 => .error .malformed
  | steps + 1 =>
    let value (k : Node) (ts : List Token) (n : Names) : Built (List (Node × Node)) :=
      match ts with
      | .value :: ts =>
        match ts with
        | .comma :: _ | .closeDict :: _ =>
          buildFlowDict steps false ((k, missing) :: fields) ts n
        | _ =>
          match build steps false false ts n with
          | .error e => .error e
          | .ok (v, ts, n) => buildFlowDict steps false ((k, v) :: fields) ts n
      | _ => buildFlowDict steps false ((k, missing) :: fields) ts n
    let next (ts : List Token) : Built (List (Node × Node)) :=
      match ts with
      | .closeDict :: ts => .ok (fields.reverse, ts, n)
      | .key :: ts =>
        match ts with
        | .value :: _ | .comma :: _ | .closeDict :: _ => value missing ts n
        | _ =>
          match build steps false false ts n with
          | .error e => .error e
          | .ok (k, ts, n) => value k ts n
      | _ =>
        match build steps false false ts n with
        | .error e => .error e
        | .ok (k, ts, n) => buildFlowDict steps false ((k, missing) :: fields) ts n
    match ts with
    | .closeDict :: ts => .ok (fields.reverse, ts, n)
    | .comma :: rest => if first then next ts else next rest
    | _ => if first then next ts else .error .malformed

end

end Node

/-! ## Documents -/

/-- The directives before a document: at most one version, 1.1 or 1.2, and each handle once. -/
def takeDirectives (version : Bool) (handles : List (String × String)) :
    List Token → Except Fault (Bool × List (String × String) × List Token)
  | .version major minor :: ts =>
    if version || major ≠ 1 || (minor ≠ 1 && minor ≠ 2) then .error .directive
    else takeDirectives true handles ts
  | .tagHandle handle expansion :: ts =>
    if handles.any (·.1 = handle) then .error .directive
    else takeDirectives version (handles ++ [(handle, expansion)]) ts
  | ts => .ok (version, handles, ts)

/-- Whether tokens begin with a directive. -/
def atDirective : List Token → Bool
  | .version .. :: _ | .tagHandle .. :: _ => true
  | _ => false

/-- The root of a document behind its start marker. -/
def buildContent (steps : Nat) (ts : List Token) (n : Names) : Built Node :=
  match ts with
  | [] | .documentStart :: _ | .documentEnd :: _ => .ok (.missing, ts, n)
  | _ => if atDirective ts then .ok (.missing, ts, n) else Node.build steps true false ts n

/-- What may follow a document: its end marker, and nothing else. -/
def finishDocument : List Token → Except Fault Unit
  | [] => .ok ()
  | .documentEnd :: ts => if ts.all (· = .documentEnd) then .ok () else .error .severalDocuments
  | _ => .error .severalDocuments

/-- The tree of a stream; none when the stream holds no document. -/
def Node.parse (ts : List Token) : Except Fault (Option Node) :=
  let steps := 4 * ts.length + 4
  let finish (built : Built Node) : Except Fault (Option Node) :=
    match built with
    | .error e => .error e
    | .ok (root, ts, _) => (finishDocument ts).map fun _ => some root
  match ts with
  | [] => .ok none
  | _ =>
    match takeDirectives false [] ts with
    | .error e => .error e
    | .ok (_, handles, rest) =>
      let names : Names :=
        { handles := handles ++ Names.standard.filter fun s => !handles.any (·.1 = s.1) }
      match rest with
      | .documentStart :: rest => finish (buildContent steps rest names)
      | _ =>
        if atDirective ts then .error .directive
        else finish (Node.build steps true false ts names)

/-- A tree with what its aliases stand for. Of anchors with one number the last one counts. -/
structure Document where
  root : Option Node
  anchors : List (Nat × Node)

namespace Document

/-- The node of an alias. -/
def target? (d : Document) (id : Nat) : Option Node :=
  (d.anchors.find? (·.1 = id)).map (·.2)

/-- The count of marks of the document. -/
def size (d : Document) : Nat := d.root.elim 1 Node.size

/-- Reads a byte sequence. -/
def read (bytes : ByteArray) : Except Fault Document :=
  match decode bytes with
  | .error e => .error e
  | .ok text =>
    match Token.scan text with
    | .error e => .error e
    | .ok tokens =>
      (Node.parse tokens).map fun root =>
        { root, anchors := (root.elim [] Node.anchored).reverse }

end Document

end RunCache.Yaml
