import Formula.Text.Quoted
import Formula.Yaml.Scan
import Formula.Yaml.Tag

/-!
# Nodes of YAML texts

The tree of scalars, sequences and mappings that the tokens of a text write.  A node that is named in one place of a
document stands in every place that takes it by its name.  A fault of a text tells first inside what it was found.
-/

namespace Formula.Yaml

open Text

/-- The tree of a YAML document. -/
inductive Node where
  | scalar (tag : Tag) (text : String)
  | sequence (tag : Tag) (items : List Node)
  | mapping (tag : Tag) (entries : List (Node × Node))
  /-- A node that has no value, and what was found to be wrong about it. -/
  | broken (problem : String)
deriving Repr, Inhabited

/-- What stands in front of a node: its name, and the name of its tag. -/
structure Properties where
  anchor : Option String := none
  tag : Option String := none

namespace Properties

/-- Nothing stands in front of the node. -/
def isEmpty (p : Properties) : Bool := p.anchor.isNone && p.tag.isNone

/-- The tag of the node, or `usual` if the properties leave it open. -/
def tagOr (p : Properties) (usual : Tag) : Tag :=
  match p.tag with
  | none | some "!" => usual
  | some name => .ofName name

/-- The tag of a scalar. -/
def scalarTag (p : Properties) (plain : Bool) (text : String) : Tag :=
  p.tagOr (if plain || p.tag.isSome then .ofPlain text else .text)

end Properties

/-- What is left of a text, and what names and handles stand for in it. -/
structure Reader where
  scanner : Scanner
  /-- The nodes that were named. -/
  nodes : List (String × Node) := []
  /-- What the handles of tags stand for. -/
  handles : List (String × String) := []

/-- Reads a value from the start of what is left. -/
abbrev Reading (α : Type) := StateT Reader Outcome α

/-- A fault inside a construct. -/
def refusal (construct : String) : Fault := .yaml ("while parsing a " ++ construct)

namespace Reading

/-- The next token. -/
def peek : Reading Token := do
  let r ← get
  let (t, scanner) ← r.scanner.peek
  set { r with scanner }
  return t

/-- Skips the next token. -/
def skip : Reading Unit := modify fun r => { r with scanner := r.scanner.take }

/-- What handles of tags stand for in every document. -/
def knownHandles : List (String × String) := [("!", "!"), ("!!", Tag.home)]

/-- The name of a tag. -/
def tagName (tag : WrittenTag) : Reading String := do
  match tag.handle with
  | none => return tag.ending
  | some handle => match (← get).handles.lookup handle with
    | some meaning => return meaning ++ tag.ending
    | none => throw (refusal "node")

/-- Reads the name and the tag of a node, in either order. -/
def properties : Reading Properties := do
  match ← peek with
  | .anchor anchor =>
    skip
    match ← peek with
    | .tag tag =>
      skip
      return ⟨anchor, ← tagName tag⟩
    | _ => return ⟨anchor, none⟩
  | .tag tag =>
    skip
    match ← peek with
    | .anchor anchor =>
      skip
      return ⟨anchor, ← tagName tag⟩
    | _ => return ⟨none, ← tagName tag⟩
  | _ => return {}

/-- Reads a node under its name.  Inside of itself the node has no value. -/
def named (p : Properties) (read : Reading Node) : Reading Node := do
  match p.anchor with
  | none => read
  | some name =>
    if ((← get).nodes.lookup name).isSome then
      throw (.yaml ("found duplicate anchor " ++ quoted name ++ "; first occurrence"))
    modify fun r => { r with nodes := (name, .broken "found unconstructable recursive node") :: r.nodes }
    let n ← read
    modify fun r => { r with nodes := (name, n) :: r.nodes }
    return n

/-- The node of a name. -/
def nodeNamed (name : String) : Reading Node := do
  match (← get).nodes.lookup name with
  | some n => return n
  | none => throw (.yaml ("found undefined alias " ++ quoted name))

end Reading

namespace Node

open Reading

/-- A node that is left out. -/
def empty : Node := scalar .null ""

/-- Reads a node that may be left out in front of some tokens. -/
def optional (read : Reading Node) (stops : List Token) : Reading Node := do
  if stops.contains (← peek) then return empty else read

/-- Reads the comma between the parts of a flow collection. -/
def readComma (construct : String) : Reading Unit := do
  if (← peek) = .flowEntry then skip else throw (refusal construct)

mutual

/-- Reads a node.  In a block it may be a block of its own, and as the value of a mapping a sequence that is not
indented.  The fuel bounds the number of steps. -/
def read (block indentless : Bool) : Nat → Reading Node
  | 0 => throw (refusal "node")
  | fuel + 1 => do
    match ← peek with
    | .alias name =>
      skip
      nodeNamed name
    | _ => readContent block indentless fuel (← properties)

/-- Reads a node behind its properties. -/
def readContent (block indentless : Bool) : Nat → Properties → Reading Node
  | 0, _ => throw (refusal "node")
  | fuel + 1, p => do
    let otherwise : Reading Node := do
      if p.isEmpty then throw (refusal (if block then "block node" else "flow node"))
      named p (return scalar (p.scalarTag true "") "")
    match ← peek with
    | .scalar text plain =>
      skip
      named p (return scalar (p.scalarTag plain text) text)
    | .flowSequenceStart => named p do
      skip
      return sequence (p.tagOr .sequence) (← readFlowItems fuel true [])
    | .flowMappingStart => named p do
      skip
      return mapping (p.tagOr .mapping) (← readFlowEntries fuel true [])
    | .blockSequenceStart =>
      if block then named p do
        skip
        return sequence (p.tagOr .sequence) (← readBlockItems fuel [])
      else otherwise
    | .blockMappingStart =>
      if block then named p do
        skip
        return mapping (p.tagOr .mapping) (← readBlockEntries fuel [])
      else otherwise
    | .blockEntry =>
      if indentless then named p do return sequence (p.tagOr .sequence) (← readPlainItems fuel []) else otherwise
    | _ => otherwise

/-- Reads the items of a block sequence, behind those read before, which come in reverse order. -/
def readBlockItems : Nat → List Node → Reading (List Node)
  | 0, _ => throw (refusal "block collection")
  | fuel + 1, items => do
    match ← peek with
    | .blockEntry =>
      skip
      let item ← optional (read true false fuel) [.blockEntry, .blockEnd]
      readBlockItems fuel (item :: items)
    | .blockEnd =>
      skip
      return items.reverse
    | _ => throw (refusal "block collection")

/-- Reads the items of a sequence that is not indented. -/
def readPlainItems : Nat → List Node → Reading (List Node)
  | 0, _ => throw (refusal "block collection")
  | fuel + 1, items => do
    match ← peek with
    | .blockEntry =>
      skip
      let item ← optional (read true false fuel) [.blockEntry, .key, .value, .blockEnd]
      readPlainItems fuel (item :: items)
    | _ => return items.reverse

/-- Reads the entries of a block mapping. -/
def readBlockEntries : Nat → List (Node × Node) → Reading (List (Node × Node))
  | 0, _ => throw (refusal "block mapping")
  | fuel + 1, entries => do
    match ← peek with
    | .key =>
      skip
      let key ← optional (read true true fuel) [.key, .value, .blockEnd]
      let value ← readBlockValue fuel
      readBlockEntries fuel ((key, value) :: entries)
    | .blockEnd =>
      skip
      return entries.reverse
    | _ => throw (refusal "block mapping")

/-- Reads the value of an entry of a block mapping. -/
def readBlockValue : Nat → Reading Node
  | 0 => throw (refusal "block mapping")
  | fuel + 1 => do
    match ← peek with
    | .value =>
      skip
      optional (read true true fuel) [.key, .value, .blockEnd]
    | _ => return empty

/-- Reads the items of a flow sequence.  A key among them makes a mapping of one entry. -/
def readFlowItems : Nat → Bool → List Node → Reading (List Node)
  | 0, _, _ => throw (refusal "flow sequence")
  | fuel + 1, first, items => do
    if (← peek) = .flowSequenceEnd then
      skip
      return items.reverse
    if !first then readComma "flow sequence"
    match ← peek with
    | .flowSequenceEnd =>
      skip
      return items.reverse
    | .key =>
      skip
      let key ← optional (read false false fuel) [.value, .flowEntry, .flowSequenceEnd]
      let value ← readFlowValue fuel [.flowEntry, .flowSequenceEnd]
      readFlowItems fuel false (mapping .mapping [(key, value)] :: items)
    | _ =>
      let item ← read false false fuel
      readFlowItems fuel false (item :: items)

/-- Reads the entries of a flow mapping. -/
def readFlowEntries : Nat → Bool → List (Node × Node) → Reading (List (Node × Node))
  | 0, _, _ => throw (refusal "flow mapping")
  | fuel + 1, first, entries => do
    if (← peek) = .flowMappingEnd then
      skip
      return entries.reverse
    if !first then readComma "flow mapping"
    match ← peek with
    | .flowMappingEnd =>
      skip
      return entries.reverse
    | .key =>
      skip
      let key ← optional (read false false fuel) [.value, .flowEntry, .flowMappingEnd]
      let value ← readFlowValue fuel [.flowEntry, .flowMappingEnd]
      readFlowEntries fuel false ((key, value) :: entries)
    | _ =>
      let key ← read false false fuel
      readFlowEntries fuel false ((key, empty) :: entries)

/-- Reads the value of an entry of a flow collection, which may be left out in front of some tokens. -/
def readFlowValue : Nat → List Token → Reading Node
  | 0, _ => throw (refusal "flow mapping")
  | fuel + 1, stops => do
    match ← peek with
    | .value =>
      skip
      optional (read false false fuel) stops
    | _ => return empty

end

/-! ### Documents -/

/-- The name of a token in messages. -/
def tokenName : Token → String
  | .streamEnd => "<stream end>"
  | .documentStart => "<document start>"
  | .documentEnd => "<document end>"
  | .blockSequenceStart => "<block sequence start>"
  | .blockMappingStart => "<block mapping start>"
  | .blockEnd => "<block end>"
  | .flowSequenceStart => "["
  | .flowSequenceEnd => "]"
  | .flowMappingStart => "\x7b"
  | .flowMappingEnd => "\x7d"
  | .blockEntry => "-"
  | .flowEntry => ","
  | .key => "?"
  | .value => ":"
  | .scalar _ _ => "<scalar>"
  | .anchor _ => "<anchor>"
  | .alias _ => "<alias>"
  | .tag _ => "<tag>"
  | .directive _ => "<directive>"

/-- A token at the start or the end of a document. -/
def isEdge : Token → Bool
  | .directive _ | .documentStart | .documentEnd | .streamEnd => true
  | _ => false

/-- Reads the directives in front of a document.  `versioned` tells whether one of those before was a version.  The fuel
bounds their number. -/
def readDirectives : Nat → Bool → Reading Unit
  | 0, _ => return
  | fuel + 1, versioned => do
    match ← peek with
    | .directive (.version major) =>
      if versioned then throw (.yaml "found duplicate YAML directive")
      if major ≠ 1 then throw (.yaml "found incompatible YAML document (version 1.* is required)")
      skip
      readDirectives fuel true
    | .directive (.handle name meaning) =>
      if ((← get).handles.lookup name).isSome then throw (.yaml ("duplicate tag handle " ++ quoted name))
      skip
      modify fun r => { r with handles := (name, meaning) :: r.handles }
      readDirectives fuel versioned
    | .directive .unknown =>
      skip
      readDirectives fuel versioned
    | _ => modify fun r => { r with handles := r.handles ++ knownHandles }

/-- Reads what stands in front of a document, its mark included. -/
def readStart (fuel : Nat) : Reading Unit := do
  modify fun r => { r with handles := [] }
  readDirectives fuel false
  let t ← peek
  if t = .documentStart then skip
  else throw (.yaml s!"expected '<document start>', but found '{tokenName t}'")

/-- Skips marks of the ends of documents.  The fuel bounds their number. -/
def skipEnds : Nat → Reading Unit
  | 0 => return
  | fuel + 1 => do
    if (← peek) = .documentEnd then
      skip
      skipEnds fuel

/-- The text ends behind its one document. -/
def readEnd (fuel : Nat) : Reading Unit := do
  skipEnds fuel
  if (← peek) ≠ .streamEnd then
    readStart fuel
    throw (.yaml "expected a single document in the stream")

/-- Reads the document of a text, none if the text has none. -/
def readDocument? (fuel : Nat) : Reading (Option Node) := do
  match ← peek with
  | .streamEnd => return none
  | .documentStart | .directive _ =>
    readStart fuel
    let n ← if isEdge (← peek) then pure empty else read true false fuel
    readEnd fuel
    return some n
  | _ =>
    modify fun r => { r with handles := knownHandles }
    let n ← read true false fuel
    readEnd fuel
    return some n

/-- The document of a text, none if the text has none. -/
def ofText? (text : List Char) : Outcome (Option Node) :=
  let cursor : Cursor := ⟨text, 0, 0, 0⟩
  let r : Reader := { scanner := { cursor := if cursor.head = '\ufeff' then cursor.next else cursor } }
  (readDocument? (8 * text.length + 16)).run' r

end Node

end Formula.Yaml
