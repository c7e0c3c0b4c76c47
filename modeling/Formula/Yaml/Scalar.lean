import Formula.Json
import Formula.Yaml.Cursor

/-!
# Scalars on lines

Scalars in quotes and plain scalars as they are written, over several lines if need be.
-/

namespace Formula.Yaml

/-- A part of a scalar that was read, and the place behind it. -/
abbrev Part := List Char × Cursor

/-! ### Quoted scalars -/

/-- Reads empty lines inside quotes: their ends, and the place of the next character that is no blank.  The fuel bounds
the number of lines. -/
def readEmptyLines : Nat → List Char → Cursor → Outcome Part
  | 0, found, c => .ok (found.reverse, c)
  | fuel + 1, found, c =>
    if c.atAnyMark then .error (.yaml "while scanning a quoted scalar")
    else
      let c := c.advance (c.run fun a => a = ' ' || a = '\t')
      if isBreak c.head then
        let read := c.takeBreak
        readEmptyLines fuel (read.1.reverse ++ found) read.2
      else .ok (found.reverse, c)

/-- The ends of lines folded: a single end is a blank, and of several the first is left out. -/
def folded (first more : List Char) : List Char :=
  if first ≠ ['\n'] then first ++ more else if more.isEmpty then [' '] else more

/-- Reads blanks and ends of lines inside quotes. -/
def readGap (c : Cursor) : Outcome Part := do
  let blanks := c.run fun a => a = ' ' || a = '\t'
  let behind := c.advance blanks
  if isEnd behind.head then throw (.yaml "while scanning a quoted scalar")
  else if isBreak behind.head then
    let first := behind.takeBreak
    let (more, c) ← readEmptyLines (c.rest.length + 1) [] first.2
    return (folded first.1 more, c)
  else return (c.text blanks, behind)

/-- Characters by the letters that stand for them behind a backslash. -/
def escapes : List (Char × Char) := [
  ('0', '\x00'), ('a', '\x07'), ('b', '\x08'), ('t', '\x09'), ('\t', '\x09'), ('n', '\n'), ('v', '\x0b'),
  ('f', '\x0c'), ('r', '\r'), ('e', '\x1b'), (' ', ' '), ('"', '"'), ('\\', '\\'), ('/', '/'), ('N', '\u0085'),
  ('_', '\u00a0'), ('L', '\u2028'), ('P', '\u2029')]

/-- The number of hexadecimal digits behind a letter. -/
def codeLengths : List (Char × Nat) := [('x', 2), ('u', 4), ('U', 8)]

/-- The number that hexadecimal digits write. -/
def hexValue? (cs : List Char) : Option Nat :=
  cs.foldlM (fun n c => (Json.hexDigit? c).map (16 * n + ·)) 0

/-- The character of a code point. -/
def charAt (code : Nat) : Outcome Char :=
  if code < 0x110000 then .ok (Json.charOf code)
  else if code < 0x80000000 then .error .noCharacter
  else .error .codeTooLarge

/-- The character of the two halves that are written as escapes at the place, if there are two. -/
def pairAt? (c : Cursor) : Option Char := do
  let high ← hexValue? ((c.advance 2).text 4)
  let low ← hexValue? ((c.advance 8).text 4)
  if c.peek 1 = 'u' && Json.isHighHalf high && (c.advance 6).text 2 == ['\\', 'u'] && Json.isLowHalf low then
    some (Json.joined high low)
  else none

/-- Reads an escape whose backslash stands at the place, or two of them that make one character. -/
def readEscape (c : Cursor) : Outcome Part := do
  let letter := c.peek 1
  if let some a := pairAt? c then return ([a], c.advance 12)
  match escapes.lookup letter with
  | some a => return ([a], c.advance 2)
  | none => match codeLengths.lookup letter with
    | some n =>
      let digits := (c.advance 2).text n
      match hexValue? digits with
      | some code =>
        if digits.length = n then return ([← charAt code], c.advance (n + 2))
        else throw (.yaml "while scanning a double-quoted scalar")
      | none => throw (.yaml "while scanning a double-quoted scalar")
    | none =>
      if isBreak letter then readEmptyLines (c.rest.length + 1) [] c.next.takeBreak.2
      else throw (.yaml "while scanning a double-quoted scalar")

/-- Reads on in a scalar in quotes, behind what was read in reverse order.  The fuel bounds the number of steps. -/
def readQuotedFrom (double : Bool) : Nat → List Char → Cursor → Outcome Part
  | 0, _, _ => .error (.yaml "while scanning a quoted scalar")
  | fuel + 1, found, c =>
    let a := c.head
    if !double && a = '\'' && c.peek 1 = '\'' then readQuotedFrom double fuel ('\'' :: found) (c.advance 2)
    else if a = (if double then '"' else '\'') then .ok (found.reverse, c.next)
    else if double && a = '\\' then do
      let (chars, c) ← readEscape c
      readQuotedFrom double fuel (chars.reverse ++ found) c
    else if isGap a then do
      let (chars, c) ← readGap c
      readQuotedFrom double fuel (chars.reverse ++ found) c
    else readQuotedFrom double fuel (a :: found) c.next

/-- Reads a scalar whose opening quote stands at the place. -/
def readQuoted (c : Cursor) : Outcome Part :=
  readQuotedFrom (c.head = '"') (c.rest.length + 1) [] c.next

/-! ### Plain scalars -/

/-- A plain scalar ends before the characters. -/
def endsPlain (inFlow : Bool) (cs : List Char) : Bool :=
  match cs with
  | [] => true
  | a :: rest =>
    let behind := rest.headD '\x00'
    isGap a || (a = ':' && (isGap behind || (inFlow && isFlowSign behind))) || (inFlow && (isFlowSign a || a = '?'))

/-- The length of the part of a plain scalar in front of the characters. -/
def plainLength (inFlow : Bool) : List Char → Nat
  | [] => 0
  | a :: rest => if endsPlain inFlow (a :: rest) then 0 else plainLength inFlow rest + 1

/-- Reads blanks and ends of lines up to the next line with text; none at a mark between documents.  The fuel bounds the
number of steps. -/
def readIndent : Nat → List Char → Cursor → Option Part
  | 0, found, c => some (found.reverse, c)
  | fuel + 1, found, c =>
    if c.head = ' ' then readIndent fuel found c.next
    else if isBreak c.head then
      let read := c.takeBreak
      if read.2.atAnyMark then none else readIndent fuel (read.1.reverse ++ found) read.2
    else some (found.reverse, c)

/-- What follows a part of a plain scalar: the gap as it counts, the place behind it, and whether it ends a line. -/
structure PlainGap where
  chars : List Char
  cursor : Cursor
  endsLine : Bool

/-- Reads the gap behind a part of a plain scalar. -/
def readPlainGap (c : Cursor) : PlainGap :=
  let blanks := c.run (· = ' ')
  let behind := c.advance blanks
  if isBreak behind.head then
    let first := behind.takeBreak
    if first.2.atAnyMark then ⟨[], first.2, true⟩
    else match readIndent (c.rest.length + 1) [] first.2 with
      | some (more, c) => ⟨folded first.1 more, c, true⟩
      | none => ⟨[], first.2, true⟩
  else ⟨c.text blanks, behind, false⟩

/-- A plain scalar that was read: its text, the place behind it, and whether a line ended in it or behind it last. -/
structure Plain where
  chars : List Char
  cursor : Cursor
  endsLine : Bool

/-- Reads on in a plain scalar, behind what was read in reverse order and a gap.  The fuel bounds the number of
parts. -/
def readPlainFrom (inFlow : Bool) (indent : Int) : Nat → List Char → PlainGap → Plain
  | 0, found, gap => ⟨found.reverse, gap.cursor, gap.endsLine⟩
  | fuel + 1, found, gap =>
    let c := gap.cursor
    let length := if c.head = '#' then 0 else plainLength inFlow c.rest
    if length = 0 then ⟨found.reverse, c, gap.endsLine⟩
    else
      let found := (c.text length).reverse ++ (gap.chars.reverse ++ found)
      let gap := readPlainGap (c.advance length)
      if gap.chars.isEmpty || gap.cursor.head = '#' || (!inFlow && gap.cursor.column < indent) then
        ⟨found.reverse, gap.cursor, gap.endsLine⟩
      else readPlainFrom inFlow indent fuel found gap

/-- Reads a plain scalar, whose lines but the first are indented to a column. -/
def readPlain (inFlow : Bool) (indent : Int) (c : Cursor) : Plain :=
  readPlainFrom inFlow indent (c.rest.length + 1) [] ⟨[], c, false⟩

end Formula.Yaml
