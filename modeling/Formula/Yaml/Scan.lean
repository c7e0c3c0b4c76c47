import Formula.Yaml.Block
import Formula.Yaml.Property
import Formula.Yaml.Scalar

/-!
# Tokens of YAML texts

`Scanner.fetch` reads one more token.  Indentation makes tokens of its own: a block begins with a token where its first
entry stands, and ends with one where a line is indented less.

Whether a scalar or a flow collection is a key shows only at the colon behind it.  So a scanner remembers where the
latest possible key of every flow level began, and puts the tokens of a key in front of it when the colon comes.
-/

namespace Formula.Yaml

/-- A token of a YAML text. -/
inductive Token where
  | streamEnd
  | documentStart
  | documentEnd
  | blockSequenceStart
  | blockMappingStart
  | blockEnd
  | flowSequenceStart
  | flowSequenceEnd
  | flowMappingStart
  | flowMappingEnd
  | blockEntry
  | flowEntry
  | key
  | value
  | scalar (text : String) (plain : Bool)
  /-- A name for the node behind it. -/
  | anchor (name : String)
  /-- A node that was named before. -/
  | alias (name : String)
  | tag (written : WrittenTag)
  | directive (d : Directive)
deriving DecidableEq, Repr

/-- The place where a key may have begun. -/
structure PossibleKey where
  /-- The number of the first token of the key. -/
  number : Nat
  /-- Nothing but a key may stand here. -/
  required : Bool
  index : Nat
  line : Nat
  column : Nat

/-- A scan of a text: the place, the tokens that wait to be taken, and what the coming tokens depend on. -/
structure Scanner where
  cursor : Cursor
  waiting : List Token := []
  /-- The number of tokens that were taken. -/
  taken : Nat := 0
  /-- The indentation of the innermost block, and of those around it. -/
  indent : Int := -1
  outerIndents : List Int := []
  /-- The number of open flow collections. -/
  flow : Nat := 0
  keyAllowed : Bool := true
  /-- Possible keys by flow level. -/
  keys : List (Nat × PossibleKey) := []
  done : Bool := false

namespace Scanner

/-- A required key has no colon. -/
def missingColon : Fault := .yaml "while scanning a simple key"

/-- The scan with a token more. -/
def push (s : Scanner) (t : Token) : Scanner := { s with waiting := s.waiting ++ [t] }

/-- The scan with a token in front of the token of a number. -/
def insertAt (s : Scanner) (number : Nat) (t : Token) : Scanner :=
  let place := number - s.taken
  { s with waiting := s.waiting.take place ++ t :: s.waiting.drop place }

/-- The scan behind the next character. -/
def skip (s : Scanner) (n : Nat) : Scanner := { s with cursor := s.cursor.advance n }

/-- Forgets possible keys that began on another line or too long ago. -/
def dropStaleKeys (s : Scanner) : Outcome Scanner :=
  let stale (k : Nat × PossibleKey) : Bool := k.2.line != s.cursor.line || 1024 < s.cursor.index - k.2.index
  if s.keys.any fun k => stale k && k.2.required then .error missingColon
  else .ok { s with keys := s.keys.filter fun k => !stale k }

/-- Forgets the possible key of the flow level. -/
def dropKey (s : Scanner) : Outcome Scanner :=
  match s.keys.lookup s.flow with
  | none => .ok s
  | some k => if k.required then .error missingColon else .ok { s with keys := s.keys.filter fun k => k.1 ≠ s.flow }

/-- Remembers that a key may begin at the place. -/
def saveKey (s : Scanner) : Outcome Scanner :=
  if s.keyAllowed then do
    let required := s.flow == 0 && s.indent == (s.cursor.column : Int)
    let s ← s.dropKey
    let key : PossibleKey :=
      ⟨s.taken + s.waiting.length, required, s.cursor.index, s.cursor.line, s.cursor.column⟩
    return { s with keys := s.keys ++ [(s.flow, key)] }
  else .ok s

/-- Ends the blocks that are indented more than a column, of `open` ones. -/
def unwind (column : Int) : List Int → Scanner → Scanner
  | [], s => s
  | outer :: more, s =>
    if s.indent > column then unwind column more ({ s with indent := outer, outerIndents := more }.push .blockEnd)
    else s

/-- Ends the blocks that are indented more than a column; flow collections pay no heed to it. -/
def unwindTo (s : Scanner) (column : Int) : Scanner :=
  if s.flow = 0 then unwind column s.outerIndents s else s

/-- A block begins at a column, if that is further in than the block around it. -/
def indentTo (s : Scanner) (column : Nat) : Option Scanner :=
  if s.indent < column then some { s with indent := column, outerIndents := s.indent :: s.outerIndents } else none

/-- Skips blanks, comments and ends of lines.  The fuel bounds the number of lines. -/
def skipGap : Nat → Scanner → Scanner
  | 0, s => s
  | fuel + 1, s =>
    let s := { s with cursor := s.cursor.skipComment }
    if isBreak s.cursor.head then
      skipGap fuel { s with cursor := s.cursor.takeBreak.2, keyAllowed := s.keyAllowed || s.flow == 0 }
    else s

/-- The end of the text. -/
def fetchEnd (s : Scanner) : Outcome Scanner := do
  let s ← (s.unwindTo (-1)).dropKey
  return { s with keyAllowed := false, keys := [], done := true }.push .streamEnd

/-- A mark between documents. -/
def fetchMark (s : Scanner) (t : Token) : Outcome Scanner := do
  let s ← (s.unwindTo (-1)).dropKey
  return ({ s with keyAllowed := false }.skip 3).push t

/-- The start of a flow collection. -/
def fetchFlowStart (s : Scanner) (t : Token) : Outcome Scanner := do
  let s ← s.saveKey
  return ({ s with flow := s.flow + 1, keyAllowed := true }.skip 1).push t

/-- The end of a flow collection. -/
def fetchFlowEnd (s : Scanner) (t : Token) : Outcome Scanner := do
  let s ← s.dropKey
  return ({ s with flow := s.flow - 1, keyAllowed := false }.skip 1).push t

/-- A comma in a flow collection. -/
def fetchFlowEntry (s : Scanner) : Outcome Scanner := do
  let s ← { s with keyAllowed := true }.dropKey
  return (s.skip 1).push .flowEntry

/-- Begins a block at the place, where only a new entry may stand. -/
def beginBlock (s : Scanner) (start : Token) (refusal : String) : Outcome Scanner :=
  if s.flow ≠ 0 then .ok s
  else if !s.keyAllowed then .error (.yaml refusal)
  else match s.indentTo s.cursor.column with
    | some inner => .ok (inner.push start)
    | none => .ok s

/-- The dash of an entry of a block sequence. -/
def fetchBlockEntry (s : Scanner) : Outcome Scanner := do
  let s ← s.beginBlock .blockSequenceStart "sequence entries are not allowed here"
  let s ← { s with keyAllowed := true }.dropKey
  return (s.skip 1).push .blockEntry

/-- The question mark of a key. -/
def fetchKey (s : Scanner) : Outcome Scanner := do
  let s ← s.beginBlock .blockMappingStart "mapping keys are not allowed here"
  let s ← { s with keyAllowed := s.flow == 0 }.dropKey
  return (s.skip 1).push .key

/-- The colon of a value, behind a key that is known only now, or without one. -/
def fetchValue (s : Scanner) : Outcome Scanner := do
  match s.keys.lookup s.flow with
  | some k =>
    let s := { s with keys := s.keys.filter fun k => k.1 ≠ s.flow }.insertAt k.number .key
    let s := if s.flow = 0 then match s.indentTo k.column with
        | some inner => inner.insertAt k.number .blockMappingStart
        | none => s
      else s
    return ({ s with keyAllowed := false }.skip 1).push .value
  | none =>
    let s ← s.beginBlock .blockMappingStart "mapping values are not allowed here"
    let s ← { s with keyAllowed := s.flow == 0 }.dropKey
    return (s.skip 1).push .value

/-- A scalar in quotes. -/
def fetchQuoted (s : Scanner) : Outcome Scanner := do
  let s ← s.saveKey
  let (chars, cursor) ← readQuoted s.cursor
  return { s with cursor, keyAllowed := false }.push (.scalar (String.ofList chars) false)

/-- A plain scalar. -/
def fetchPlain (s : Scanner) : Outcome Scanner := do
  let s ← s.saveKey
  let read := readPlain (s.flow != 0) (s.indent + 1) s.cursor
  return { s with cursor := read.cursor, keyAllowed := read.endsLine }.push (.scalar (String.ofList read.chars) true)

/-- A scalar in a block. -/
def fetchBlockScalar (s : Scanner) (folds : Bool) : Outcome Scanner := do
  let s ← { s with keyAllowed := true }.dropKey
  let (chars, cursor) ← readBlockScalar folds s.indent s.cursor
  return { s with cursor }.push (.scalar (String.ofList chars) false)

/-- The name of a node, in front of it or in its stead. -/
def fetchName (s : Scanner) (construct : String) (token : String → Token) : Outcome Scanner := do
  let s ← s.saveKey
  let (name, cursor) ← readName construct s.cursor
  return { s with cursor, keyAllowed := false }.push (token name)

/-- A tag. -/
def fetchTag (s : Scanner) : Outcome Scanner := do
  let s ← s.saveKey
  let (tag, cursor) ← readTag s.cursor
  return { s with cursor, keyAllowed := false }.push (.tag tag)

/-- A directive. -/
def fetchDirective (s : Scanner) : Outcome Scanner := do
  let s ← (s.unwindTo (-1)).dropKey
  let (directive, cursor) ← Directive.read s.cursor
  return { s with cursor, keyAllowed := false }.push (.directive directive)

/-- Characters that start no plain scalar. -/
def indicators : List Char :=
  ['-', '?', ':', ',', '[', ']', '\x7b', '\x7d', '#', '&', '*', '!', '|', '>', '\'', '"', '%', '@', '\x60']

/-- A plain scalar starts at the place. -/
def atPlain (s : Scanner) : Bool :=
  let c := s.cursor.head
  (!isGap c && !indicators.contains c) ||
    (!isGap (s.cursor.peek 1) && (c = '-' || (s.flow == 0 && (c = '?' || c = ':'))))

/-- Reads one more token. -/
def fetch (s : Scanner) : Outcome Scanner := do
  let s ← (skipGap (s.cursor.rest.length + 1) s).dropStaleKeys
  let s := s.unwindTo s.cursor.column
  let c := s.cursor.head
  let wide := isGap (s.cursor.peek 1)
  if isEnd c then s.fetchEnd
  else if s.cursor.column = 0 && c = '%' then s.fetchDirective
  else if s.cursor.column = 0 && s.cursor.atMark '-' then s.fetchMark .documentStart
  else if s.cursor.column = 0 && s.cursor.atMark '.' then s.fetchMark .documentEnd
  else if c = '[' then s.fetchFlowStart .flowSequenceStart
  else if c = '\x7b' then s.fetchFlowStart .flowMappingStart
  else if c = ']' then s.fetchFlowEnd .flowSequenceEnd
  else if c = '\x7d' then s.fetchFlowEnd .flowMappingEnd
  else if c = ',' then s.fetchFlowEntry
  else if c = '-' && wide then s.fetchBlockEntry
  else if c = '?' && (s.flow != 0 || wide) then s.fetchKey
  else if c = ':' && (s.flow != 0 || wide) then s.fetchValue
  else if c = '*' then s.fetchName "alias" .alias
  else if c = '&' then s.fetchName "anchor" .anchor
  else if c = '!' then s.fetchTag
  else if s.flow = 0 && (c = '|' || c = '>') then s.fetchBlockScalar (c = '>')
  else if c = '\'' || c = '"' then s.fetchQuoted
  else if s.atPlain then s.fetchPlain
  else throw (.yaml "while scanning for the next token")

/-- The next token may turn out to be a key, so that more has to be read before it is taken. -/
def mayBeKey (s : Scanner) : Bool := s.keys.any fun k => k.2.number == s.taken

/-- Reads tokens until the next one is certain.  The fuel bounds the number of tokens. -/
def prepare : Nat → Scanner → Outcome Scanner
  | 0, s => .ok s
  | fuel + 1, s => do
    if s.done then return s
    else if s.waiting.isEmpty then prepare fuel (← s.fetch)
    else
      let s ← s.dropStaleKeys
      if s.mayBeKey then prepare fuel (← s.fetch) else return s

/-- The next token, and the scan in which it is certain. -/
def peek (s : Scanner) : Outcome (Token × Scanner) := do
  let s ← prepare (2 * s.cursor.rest.length + 8) s
  return (s.waiting.headD .streamEnd, s)

/-- The scan behind the next token. -/
def take (s : Scanner) : Scanner := { s with waiting := s.waiting.drop 1, taken := s.taken + 1 }

end Scanner

end Formula.Yaml
