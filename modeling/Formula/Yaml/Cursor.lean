import Formula.Fault

/-!
# Places in a YAML text

A cursor is a place in a text: what follows it, and its position as an index and as a line and a column.  The null
character, which no YAML text holds, stands for the end of the text.
-/

namespace Formula.Yaml

/-- A place in a text. -/
structure Cursor where
  rest : List Char
  index : Nat := 0
  line : Nat := 0
  column : Nat := 0
deriving Inhabited

/-- A character that ends a line. -/
def isBreak (c : Char) : Bool := ['\n', '\r', '\u0085', '\u2028', '\u2029'].contains c

/-- The end of the text. -/
def isEnd (c : Char) : Bool := c = '\x00'

/-- A blank, a tab, the end of a line or the end of the text. -/
def isGap (c : Char) : Bool := c = ' ' || c = '\t' || isBreak c || isEnd c

/-- A blank, the end of a line or the end of the text. -/
def isWordEnd (c : Char) : Bool := isGap c && c ≠ '\t'

/-- The end of a line or the end of the text. -/
def isLineEnd (c : Char) : Bool := isBreak c || isEnd c

/-- A character that separates the parts of a flow collection. -/
def isFlowSign (c : Char) : Bool := [',', '[', ']', '\x7b', '\x7d'].contains c

namespace Cursor

/-- The character `n` places on. -/
def peek (c : Cursor) (n : Nat) : Char := c.rest.getD n '\x00'

/-- The next character. -/
def head (c : Cursor) : Char := c.peek 0

/-- The place behind the next character. -/
def next (c : Cursor) : Cursor :=
  match c.rest with
  | [] => c
  | a :: rest =>
    if isBreak a && !(a = '\r' && rest.head? == some '\n') then ⟨rest, c.index + 1, c.line + 1, 0⟩
    else if a = '\ufeff' then ⟨rest, c.index + 1, c.line, c.column⟩
    else ⟨rest, c.index + 1, c.line, c.column + 1⟩

/-- The place behind the next `n` characters. -/
def advance (c : Cursor) : Nat → Cursor
  | 0 => c
  | n + 1 => c.next.advance n

/-- The end of a line at the place, and the place behind it. -/
def takeBreak (c : Cursor) : List Char × Cursor :=
  let a := c.head
  if a = '\r' && c.peek 1 = '\n' then (['\n'], c.advance 2)
  else if a = '\u2028' || a = '\u2029' then ([a], c.next)
  else if isBreak a then (['\n'], c.next)
  else ([], c)

/-- The length of the run of characters of a kind at the place. -/
def run (p : Char → Bool) (c : Cursor) : Nat := (c.rest.takeWhile p).length

/-- The next `n` characters. -/
def text (c : Cursor) (n : Nat) : List Char := c.rest.take n

/-- The place behind blanks and a comment. -/
def skipComment (c : Cursor) : Cursor :=
  let c := c.advance (c.run (· = ' '))
  if c.head = '#' then c.advance (c.run fun a => !isBreak a) else c

/-- A mark between documents, three signs in a row, stands at the place. -/
def atMark (c : Cursor) (sign : Char) : Bool := c.text 3 == [sign, sign, sign] && isGap (c.peek 3)

/-- A mark between documents stands at the place. -/
def atAnyMark (c : Cursor) : Bool := c.atMark '-' || c.atMark '.'

end Cursor

end Formula.Yaml
