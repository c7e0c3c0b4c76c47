import Formula.Atom
import Formula.Catalog
import Formula.Expr
import Formula.Glyph

/-!
# What an atom does in a formula

An atom may be an operator, a function, the start or the end of a fence, half of a digraph, or a symbol.  All of this
hangs on its type, its spelling and the catalog.  A payload atom may have a spelling that is no text; a question that
needs a text then fails.
-/

namespace Formula

open Text

namespace Atom

/-! ### Operators and functions -/

/-- The canonical name, which a catalog may give as a value other than text. -/
def name (c : Catalog) (a : Atom) : Outcome Datum := do c.canonicalNameOf (← a.text)

/-- The types of atoms that may be operators. -/
def operatorTypes : List AtomType := [.binary, .relation, .ordinary, .textual, .operator, .punctuation]

/-- The precedence, if the atom is an operator. -/
def precedence (c : Catalog) (a : Atom) : Outcome (Option Int) := do
  if operatorTypes.contains a.type then c.precedenceOf (← a.name c) else return none

/-- The sign that the atom puts in front of an operand, if it is one. -/
def sign? (c : Catalog) (a : Atom) : Outcome (Option String) := do
  if a.type = .binary then
    return (← a.name c).text?.filter fun name => name == "+" || name == "-"
  else return none

/-- The atom is the name of a function: one of the catalog, or one in a command for such names. -/
def isFunction (c : Catalog) (a : Atom) : Outcome Bool := do
  let name ← a.name c
  if (← c.precedenceOf name).isSome then return false
  match a.type, ← a.text with
  | .operator, .text s => return beginsWith s "\\operatorname" || c.isFunction name
  | .operator, _ => throw .noOperation
  | _, _ => return c.isFunction name

/-! ### Fences -/

/-- What closes an open fence: an atom of a type, with a glyph if the fence asks for one. -/
structure Closer where
  type : AtomType
  glyph : Option String
deriving DecidableEq, Repr

/-- The glyph of a fence: the delimiter of a sized one, else the spelling. -/
def glyph (a : Atom) : Outcome Datum := if a.type = .sized then .ok a.delim else a.text

/-- The atom closes the fence that waits for the closer. -/
def closes (a : Atom) (closer : Closer) : Outcome Bool := do
  if a.type = closer.type then
    let glyph ← a.glyph
    return match closer.glyph with
      | none => true
      | some expected => glyph.isText expected
  else return false

/-- The atom closes one of the open fences. -/
def closesAny (a : Atom) : List Closer → Outcome Bool
  | [] => .ok false
  | closer :: rest => do if ← a.closes closer then return true else a.closesAny rest

/-- The left glyph and what closes the fence, if the atom opens one. -/
def opener? (a : Atom) : Outcome (Option (Datum × Closer)) := do
  match a.type with
  | .opening =>
    let text ← a.text
    return some (text, ⟨.closing, ← text.lookup Glyph.partners⟩)
  | .textual =>
    let text ← a.text
    return (← text.lookup Glyph.partners).map fun partner => (text, ⟨.textual, some partner⟩)
  | .sized => return (← a.delim.lookup Glyph.partners).map fun partner => (a.delim, ⟨.sized, some partner⟩)
  | _ => return none

/-- The types of atoms that start an operand, placeholders apart. -/
def operandTypes : List AtomType :=
  [.ordinary, .radical, .operator, .opening, .fenced, .fraction, .font, .text]

/-- The atom starts an operand that multiplies what stands before it.  A sized delimiter that can close closes. -/
def startsOperand (c : Catalog) (closers : List Closer) (a : Atom) : Outcome Bool := do
  if ← a.closesAny closers then return false
  if (← a.precedence c).isSome then return false
  if operandTypes.contains a.type then return !a.isPlaceholder
  match a.type with
  | .sized => return (← a.delim.lookup Glyph.partners).isSome && !(← a.delim.isOneOf Glyph.closers)
  | .textual => return (← (← a.text).lookup Glyph.partners).isSome
  | _ => return false

/-- The function of a pair of delimiters, which are written one behind the other. -/
def delimiterFunction? (left right : Datum) : Outcome (Option String) :=
  match left, right with
  | .text l, .text r => .ok (Glyph.delimiterFunctions.lookup (l ++ r))
  | .text _, d => .error (.notAppendable "str" d.kindName)
  | .list _, .list _ => .error (.notKey "list")
  | .tuple l, .tuple r => (Datum.tuple (l ++ r)).key.map fun _ => none
  | .list _, d => .error (.notAppendable "list" d.kindName)
  | .tuple _, d => .error (.notAppendable "tuple" d.kindName)
  | l, r => if l.isNumeric && r.isNumeric then .ok none else .error (.notCombinable "+" l.kindName r.kindName)

/-! ### Digraphs and postfix marks -/

/-- The function of two atoms, if they are a digraph.  The first of them carries no scripts. -/
def digraph? (first second : Atom) : Outcome (Option String) := do
  if first.hasScripts then return none
  let left ← first.text
  let right ← second.text
  let left ← left.key
  let right ← right.key
  match left, right with
  | .text l, .text r => return Glyph.digraphs.lookup (l, r)
  | _, _ => return none

/-- The function of the digraph in front of the atoms, if it is one of the given functions. -/
def startsWithDigraph? (names : List String) : List Atom → Outcome (Option String)
  | first :: second :: _ => do
    match ← digraph? first second with
    | some name => return if names.contains name then some name else none
    | none => return none
  | _ => .ok none

/-- The function of a postfix mark. -/
def postfixFunction? (a : Atom) : Outcome (Option String) := do
  if a.type = .textual then (← a.text).lookup Glyph.postfixFunctions else return none

/-! ### Symbols and texts -/

/-- Fonts with the variants of symbols that they give. -/
def variants : List (String × String) := [
  ("mathrm", "normal"), ("mathbb", "double-struck"), ("mathbf", "bold"), ("mathcal", "script"),
  ("mathfrak", "fraktur"), ("mathscr", "script"), ("mathsf", "sans-serif"), ("mathtt", "monospace")]

/-- Fonts of text. -/
def textFonts : List String := ["text", "textrm", "textup", "mbox"]

/-- The variant of a symbol in the font of the atom, null if it has none. -/
def variant (a : Atom) : Outcome Datum := do
  match ← (a.font.orElse "").lookup variants with
  | some v => return .text v
  | none => return .null

/-- The symbol of an ordinary atom: its canonical name, or its character if the name is a command. -/
def symbol (c : Catalog) (a : Atom) : Outcome Expr := do
  match ← a.name c with
  | .text name =>
    let name ← if beginsWith name "\\" && !a.value.isVoid then a.value.first else pure (.text name)
    return .ofSymbol name (← a.variant)
  | _ => throw .noOperation

/-- The parts of a text one behind the other, of which part `index` is the first. -/
def joinTexts (index : Nat) : List Datum → Outcome String
  | [] => .ok ""
  | .text s :: rest => do return s ++ (← joinTexts (index + 1) rest)
  | d :: _ => .error (.notTextPart index d.kindName)

/-- The text of the symbols and texts of a sequence. -/
def plainText (atoms : List Atom) : Outcome String := do
  let shown := atoms.filter fun a => a.type = .ordinary || a.type = .textual || a.type = .text
  let parts ← shown.mapM fun a => if a.value.isVoid then a.text else .ok a.value
  joinTexts 0 parts

/-- The expression of a font atom: a text, or a symbol in a variant. -/
def inFont (a : Atom) : Outcome Expr := do
  let content ← plainText (a.body.getD [])
  if ← a.font.isOneOf textFonts then return .ofText content
  else return .ofSymbol content (← a.variant)

/-- The expression of a text atom: its value, or the text of its body. -/
def asText (a : Atom) : Outcome Expr := do
  if a.value.isVoid then return .ofText (← plainText (a.body.getD [])) else return .ofText a.value

/-- An atom that nothing can be made of. -/
def unexpected (a : Atom) : Outcome Expr := do
  let text ← a.text
  return .unreadable text s!"unexpected token {a.type.tag}/{text.shown}"

end Atom

end Formula
