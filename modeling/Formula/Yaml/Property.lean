import Formula.Json
import Formula.Yaml.Cursor

/-!
# Names of nodes, tags and directives

What may stand in front of a node or of a document: `&` and a name that other places of the document take the node by,
behind `*`; a tag behind `!`; and lines that start with `%`, which tell the version of the format or what the handle of
a tag stands for.
-/

namespace Formula.Yaml

/-- A character of a name. -/
def isNameChar (c : Char) : Bool := c.isAlphanum || c = '-' || c = '_'

/-- A character that may follow the name of a node. -/
def endsName (c : Char) : Bool := isGap c || ['?', ':', ',', ']', '\x7d', '%', '@', '\x60'].contains c

/-- Reads a name behind its sign; `construct` tells what is named. -/
def readName (construct : String) (c : Cursor) : Outcome (String × Cursor) :=
  let name := c.next.text (c.next.run isNameChar)
  let behind := c.next.advance name.length
  if name.isEmpty || !endsName behind.head then .error (.yaml ("while scanning an " ++ construct))
  else .ok (String.ofList name, behind)

/-! ### Tags -/

/-- A tag as it is written: its handle, if it has one, and what stands behind. -/
structure WrittenTag where
  handle : Option String
  ending : String
deriving DecidableEq, Repr

/-- Reads the handle of a tag: an exclamation mark, or a name between two of them. -/
def readHandle (construct : String) (c : Cursor) : Outcome (String × Cursor) :=
  let name := c.next.text (c.next.run isNameChar)
  if c.head ≠ '!' then .error (.yaml ("while scanning a " ++ construct))
  else if c.peek 1 = ' ' then .ok ("!", c.next)
  else if c.peek (name.length + 1) = '!' then
    .ok (String.ofList ('!' :: name ++ ['!']), c.advance (name.length + 2))
  else .error (.yaml ("while scanning a " ++ construct))

/-- A character that may stand in a tag as it is. -/
def isTagChar (c : Char) : Bool := c.isAlphanum || "-;/?:@&=+$,_.!~*'()[]".toList.contains c

/-- Reads bytes that are written as a percent sign and two digits each, behind those read in reverse order.  The fuel
bounds their number. -/
def readBytes (construct : String) : Nat → List UInt8 → Cursor → Outcome (List UInt8 × Cursor)
  | 0, bytes, c => .ok (bytes.reverse, c)
  | fuel + 1, bytes, c =>
    if c.head ≠ '%' then .ok (bytes.reverse, c)
    else match Json.hexDigit? (c.peek 1), Json.hexDigit? (c.peek 2) with
      | some a, some b => readBytes construct fuel (UInt8.ofNat (16 * a + b) :: bytes) (c.advance 3)
      | _, _ => .error (.yaml ("while scanning a " ++ construct))

/-- Reads the characters of a tag, behind those read in reverse order.  The fuel bounds the number of steps. -/
def readTagFrom (construct : String) : Nat → List Char → Cursor → Outcome (String × Cursor)
  | 0, _, _ => .error (.yaml ("while parsing a " ++ construct))
  | fuel + 1, found, c =>
    if c.head = '%' then do
      let (bytes, c) ← readBytes construct (c.rest.length + 1) [] c
      match String.fromUTF8? (ByteArray.mk bytes.toArray) with
      | some s => readTagFrom construct fuel (s.toList.reverse ++ found) c
      | none => throw (.yaml ("while scanning a " ++ construct))
    else if isTagChar c.head then readTagFrom construct fuel (c.head :: found) c.next
    else if found.isEmpty then .error (.yaml ("while parsing a " ++ construct))
    else .ok (String.ofList found.reverse, c)

/-- Reads the characters of a tag behind its handle. -/
def readTagEnding (construct : String) (c : Cursor) : Outcome (String × Cursor) :=
  readTagFrom construct (c.rest.length + 1) [] c

/-- Reads the parts of a tag, whose exclamation mark stands at the place. -/
def readTagParts (c : Cursor) : Outcome (WrittenTag × Cursor) := do
  if c.peek 1 = '<' then
    let (name, c) ← readTagEnding "tag" (c.advance 2)
    if c.head = '>' then return (⟨none, name⟩, c.next) else throw (.yaml "while parsing a tag")
  else if isGap (c.peek 1) then return (⟨none, "!"⟩, c.next)
  else
    let word := c.next.rest.takeWhile fun a => !isWordEnd a
    let (handle, c) ← if word.contains '!' then readHandle "tag" c else pure ("!", c.next)
    let (ending, c) ← readTagEnding "tag" c
    return (⟨some handle, ending⟩, c)

/-- Reads a tag. -/
def readTag (c : Cursor) : Outcome (WrittenTag × Cursor) := do
  let (tag, c) ← readTagParts c
  if isWordEnd c.head then return (tag, c) else throw (.yaml "while scanning a tag")

/-! ### Directives -/

/-- A line that tells how to read the document behind it. -/
inductive Directive where
  /-- The version of the format, by its first number. -/
  | version (major : Nat)
  /-- What a handle of tags stands for. -/
  | handle (name meaning : String)
  | unknown
deriving DecidableEq, Repr

namespace Directive

/-- A line that is no directive. -/
def refusal : Fault := .yaml "while scanning a directive"

/-- Reads a number. -/
def readNumber (c : Cursor) : Outcome (Nat × Cursor) :=
  let digits := c.text (c.run Char.isDigit)
  if digits.isEmpty then .error refusal else .ok (Number.digitsToNat digits, c.advance digits.length)

/-- Reads the version of the format: two numbers and a point between them. -/
def readVersion (c : Cursor) : Outcome (Directive × Cursor) := do
  let (major, c) ← readNumber (c.advance (c.run (· = ' ')))
  if c.head ≠ '.' then throw refusal
  let (_, c) ← readNumber c.next
  if isWordEnd c.head then return (version major, c) else throw refusal

/-- Reads a handle and what it stands for. -/
def readMeaning (c : Cursor) : Outcome (Directive × Cursor) := do
  let (name, c) ← readHandle "directive" (c.advance (c.run (· = ' ')))
  if c.head ≠ ' ' then throw refusal
  let (meaning, c) ← readTagEnding "directive" (c.advance (c.run (· = ' ')))
  if isWordEnd c.head then return (handle name meaning, c) else throw refusal

/-- Reads a directive, whose percent sign stands at the place, and the rest of its line. -/
def read (c : Cursor) : Outcome (Directive × Cursor) := do
  let name := c.next.text (c.next.run isNameChar)
  let c := c.next.advance name.length
  if name.isEmpty || !isWordEnd c.head then throw refusal
  let (directive, c) ← match String.ofList name with
    | "YAML" => readVersion c
    | "TAG" => readMeaning c
    | _ => pure (unknown, c.advance (c.run fun a => !isBreak a))
  let c := c.skipComment
  if isLineEnd c.head then return (directive, c.takeBreak.2) else throw refusal

end Directive

end Formula.Yaml
