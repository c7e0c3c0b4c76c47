import Formula.Yaml.Cursor

/-!
# Scalars in blocks

A scalar in a block stands below its sign, indented further than the block around it.  Behind `|` it keeps its lines;
behind `>` a single end of a line between two lines of text is folded into a blank.  What stands behind the sign tells
how far the text is indented and what becomes of the ends of lines at its end.
-/

namespace Formula.Yaml

/-- What becomes of the ends of lines at the end of a scalar. -/
inductive Chomping where
  /-- None stays. -/
  | strip
  /-- One stays. -/
  | clip
  /-- All stay. -/
  | keep
deriving DecidableEq, Repr

/-- What stands behind the sign of a scalar in a block. -/
structure BlockHeader where
  chomping : Chomping
  /-- How much further than the block around it the text is indented. -/
  increment : Option Nat

namespace BlockHeader

/-- The chomping that a sign asks for. -/
def chompingOf? (c : Char) : Option Chomping := if c = '+' then some .keep else if c = '-' then some .strip else none

/-- Reads a digit that tells an indentation, if one stands at the place. -/
def readIncrement (c : Cursor) : Outcome (Option Nat × Cursor) :=
  if c.head.isDigit then
    if c.head = '0' then .error (.yaml "while scanning a block scalar") else .ok (some (c.head.toNat - 48), c.next)
  else .ok (none, c)

/-- Reads the rest of the line of the sign. -/
def read (c : Cursor) : Outcome (BlockHeader × Cursor) := do
  let (header, c) ← match chompingOf? c.head with
    | some chomping => do
      let (increment, c) ← readIncrement c.next
      pure ((⟨chomping, increment⟩ : BlockHeader), c)
    | none => do
      let (increment, c) ← readIncrement c
      match increment.bind fun _ => chompingOf? c.head with
      | some chomping => pure (⟨chomping, increment⟩, c.next)
      | none => pure (⟨.clip, increment⟩, c)
  let behind := c.skipComment
  if !(isWordEnd c.head && isLineEnd behind.head) then throw (.yaml "while scanning a block scalar")
  return (header, behind.takeBreak.2)

end BlockHeader

/-- The place behind blanks up to a column. -/
def Cursor.skipTo (c : Cursor) (column : Nat) : Cursor := c.advance (min (c.run (· = ' ')) (column - c.column))

/-- Reads the empty lines in front of a scalar: their ends in reverse order, the place behind them, and the farthest
column of a blank.  The fuel bounds the number of steps. -/
def readLeading : Nat → List Char → Nat → Cursor → List Char × Nat × Cursor
  | 0, found, farthest, c => (found, farthest, c)
  | fuel + 1, found, farthest, c =>
    if c.head = ' ' then readLeading fuel found (max farthest c.next.column) c.next
    else if isBreak c.head then
      let read := c.takeBreak
      readLeading fuel (read.1.reverse ++ found) farthest read.2
    else (found, farthest, c)

/-- Reads empty lines in a scalar that is indented to a column: their ends in reverse order, and the place behind them
and behind the indentation.  The fuel bounds the number of lines. -/
def readBreaks (column : Nat) : Nat → List Char → Cursor → List Char × Cursor
  | 0, found, c => (found, c)
  | fuel + 1, found, c =>
    let c := c.skipTo column
    if isBreak c.head then
      let read := c.takeBreak
      readBreaks column fuel (read.1.reverse ++ found) read.2
    else (found, c)

/-- A blank stands at the start of the text of a line. -/
def isIndented (c : Cursor) : Bool := c.head = ' ' || c.head = '\t'

/-- Reads the lines of a scalar that is indented to a column, behind what was read in reverse order; `breaks` are the
ends of the empty lines in front, in reverse order too, and `last` is the end of the line before them.  The fuel bounds
the number of lines. -/
def readLines (folds : Bool) (chomping : Chomping) (column : Nat) :
    Nat → List Char → List Char → List Char → Cursor → List Char × Cursor
  | 0, found, _, _, c => (found.reverse, c)
  | fuel + 1, found, breaks, last, c =>
    if c.column = column && !isEnd c.head then
      let length := c.run fun a => !isBreak a
      let text := c.text length
      let read := (c.advance length).takeBreak
      let next := readBreaks column (c.rest.length + 1) [] read.2
      let found := text.reverse ++ (breaks ++ found)
      if next.2.column = column && !isEnd next.2.head then
        let joins := folds && read.1 == ['\n'] && !isIndented c && !isIndented next.2
        let between := if joins then (if next.1.isEmpty then [' '] else []) else read.1
        readLines folds chomping column fuel (between.reverse ++ found) next.1 read.1 next.2
      else finish chomping found next.1 read.1 next.2
    else finish chomping found breaks last c
where
  /-- The text of a scalar with the ends of lines at its end. -/
  finish (chomping : Chomping) (found breaks last : List Char) (c : Cursor) : List Char × Cursor :=
    match chomping with
    | .strip => (found.reverse, c)
    | .clip => ((last.reverse ++ found).reverse, c)
    | .keep => ((breaks ++ (last.reverse ++ found)).reverse, c)

/-- Reads a scalar in a block, whose sign stands at the place, inside a block with an indentation. -/
def readBlockScalar (folds : Bool) (indent : Int) (c : Cursor) : Outcome (List Char × Cursor) := do
  let (header, c) ← BlockHeader.read c.next
  let least := (max 1 (indent + 1)).toNat
  match header.increment with
  | some increment =>
    let column := least + increment - 1
    let breaks := readBreaks column (c.rest.length + 1) [] c
    return readLines folds header.chomping column (c.rest.length + 1) [] breaks.1 [] breaks.2
  | none =>
    let (breaks, farthest, c) := readLeading (c.rest.length + 1) [] 0 c
    return readLines folds header.chomping (max least farthest) (c.rest.length + 1) [] breaks [] c

end Formula.Yaml
