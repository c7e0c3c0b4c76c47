import Formula.Atom
import Formula.Catalog
import Formula.Glyph
import Formula.Token

/-!
# Atoms of LaTeX sources

`Source.read` turns a LaTeX source into the atoms that an editor would send for it: one atom per digit or letter,
commands sorted by the catalog, scripts on the atom before them, and bare braces flattened.  What is unbalanced is
passed over or closed at the end, so that every source has a reading, unless the catalog names a token by a value that
is no key.

Digits that the formatter has marked read back as digits: a block of digits under a line behind a decimal point is
written out as repeated digits, and an ellipsis right behind a digit is dropped.

A reading also tells how deep the groups between braces and the fences between `\left` and `\right` were nested in it.
-/

namespace Formula

open Text

namespace Source

/-! ## Commands -/

/-- Commands of fractions. -/
def fractions : List String := ["\\frac", "\\dfrac", "\\tfrac", "\\cfrac"]

/-- Commands of fonts, with the fonts. -/
def fonts : List (String × String) := [
  ("\\mathrm", "mathrm"), ("\\mathbb", "mathbb"), ("\\mathbf", "mathbf"), ("\\boldsymbol", "mathbf"),
  ("\\bm", "mathbf"), ("\\mathcal", "mathcal"), ("\\mathfrak", "mathfrak"), ("\\mathscr", "mathscr"),
  ("\\mathsf", "mathsf"), ("\\mathtt", "mathtt")]

/-- Commands that give the delimiter behind them a size. -/
def sizes : List String := [
  "\\big", "\\Big", "\\bigg", "\\Bigg", "\\bigl", "\\Bigl", "\\biggl", "\\Biggl", "\\bigr", "\\Bigr", "\\biggr",
  "\\Biggr", "\\bigm", "\\Bigm", "\\biggm", "\\Biggm"]

/-- Tokens of space. -/
def spaces : List String := [
  "\\,", "\\:", "\\;", "\\!", "\\ ", "\\>", "\\quad", "\\qquad", "\\thinspace", "\\medspace", "\\thickspace",
  "\\enspace", "~"]

/-- Commands of large operators. -/
def largeOperators : List String := [
  "\\sum", "\\prod", "\\coprod", "\\int", "\\iint", "\\iiint", "\\oint", "\\bigcup", "\\bigcap", "\\bigoplus",
  "\\bigotimes"]

/-- Tokens without a meaning of their own. -/
def ignored : List String := ["\\displaystyle", "\\textstyle", "\\limits", "\\nolimits", "\\middle", "&", "\\\\"]

/-- Commands of an ellipsis. -/
def ellipses : List String := ["\\ldots", "\\dots"]

/-- The types of characters that have a fixed one. -/
def charTypes : List (String × AtomType) := [
  ("(", .opening), ("[", .opening), (")", .closing), ("]", .closing), (",", .punctuation), (";", .punctuation),
  (":", .punctuation), ("|", .textual), ("!", .textual)]

/-- The token opens a fence and does not close it. -/
def isOpener (token : String) : Bool :=
  (Glyph.partners.map (·.1)).contains token && !Glyph.symmetric.contains token

/-- The token closes a fence and does not open it. -/
def isCloser (token : String) : Bool := Glyph.closers.contains token && !Glyph.symmetric.contains token

/-- The token is a command. -/
def isCommand (token : String) : Bool := beginsWith token "\\"

/-- The token is a mark that is text to the editor: a symmetric fence, a postfix mark, the nabla. -/
def isMark (token : String) : Bool :=
  Glyph.symmetric.contains token || (Glyph.postfixFunctions.map (·.1)).contains token || token == "\\nabla"

/-! ## Single atoms -/

/-- The atom of an operator: binary if it binds at least as tight as a sum, else a relation. -/
def operatorAtom (c : Catalog) (precedence : Int) (token : String) : Atom where
  type := if (c.precedence "+").getD 0 ≤ precedence then .binary else .relation
  value := token
  latex := if isCommand token then .text token else .null

/-- The atom of a token that takes no argument.  Only a catalog with a name that is no key makes it fail. -/
def symbolAtom (c : Catalog) (token : String) : Outcome Atom := do
  match charTypes.lookup token with
  | some type => return { type, value := token }
  | none =>
    if token = "'" then return { type := .textual, latex := "\\prime" }
    else if isMark token then return { type := .textual, value := c.canonicalName token, latex := token }
    else if isOpener token then return { type := .opening, latex := token }
    else if isCloser token then return { type := .closing, latex := token }
    else match ← c.precedenceOf (c.canonicalName token) with
      | some precedence => return operatorAtom c precedence token
      | none =>
        if largeOperators.contains token || (isCommand token && c.isFunction (c.canonicalName token)) then
          return { type := .operator, latex := token }
        else if isCommand token then
          return { type := .ordinary, value := (c.symbolValue token).orElse "", latex := token }
        else return { type := .ordinary, value := token }

/-! ## Scripts and digits -/

/-- The two kinds of scripts. -/
inductive Script where
  | super
  | sub
deriving DecidableEq, Repr

namespace Script

/-- The script of an atom. -/
def get (s : Script) (a : Atom) : Option (List Atom) :=
  match s with
  | super => a.superscript
  | sub => a.subscript

/-- The atom with a script. -/
def set (s : Script) (a : Atom) (atoms : List Atom) : Atom :=
  match s with
  | super => { a with superscript := some atoms }
  | sub => { a with subscript := some atoms }

/-- The types of atoms that take no scripts. -/
def refused : List AtomType := [.binary, .relation, .punctuation, .opening, .spacing]

/-- Attaches a script to the latest of the atoms, which come in reverse order, or to a placeholder behind them. -/
def attach (s : Script) (atoms : List Atom) (script : List Atom) : List Atom :=
  let placeholder := s.set { type := .ordinary, value := zeroWidth } script
  match atoms with
  | [] => [placeholder]
  | last :: before =>
    if (s.get last).isNone && !refused.contains last.type then s.set last script :: before
    else placeholder :: last :: before

end Script

/-- An ordinary atom without scripts that is spelled `s`. -/
def isPlain (a : Atom) (s : String) : Bool := a.type == .ordinary && !a.hasScripts && a.spelled s

/-- An ordinary atom without scripts that is a digit. -/
def isPlainDigit (a : Atom) : Bool := Atom.digits.any (isPlain a)

/-- The atoms, which come in reverse order, end in the digits behind a decimal point. -/
def afterPoint (atoms : List Atom) : Bool :=
  match atoms.dropWhile fun a => a.type == .spacing || isPlainDigit a with
  | [] => false
  | a :: _ => isPlain a "."

/-- The latest of the atoms, which come in reverse order, is a digit. -/
def afterDigit (atoms : List Atom) : Bool :=
  match atoms with
  | [] => false
  | a :: _ => isPlainDigit a

/-- A repeated block of digits is written out to at least this many digits, more than a number of 64 bits holds. -/
def repeatedDigits : Nat := 20

/-- The digits of a block, written out. -/
def repeatBlock (block : List Atom) : List Atom :=
  let plain := block.map fun a => ({ type := .ordinary, value := a.text.toOption.getD "" } : Atom)
  (List.replicate ((repeatedDigits + block.length - 1) / block.length) plain).flatten

/-! ## Reading -/

/-- Where a sequence of atoms stops: at the end of the source, behind a closing brace or bracket, or at `\right`. -/
inductive Stop where
  | sourceEnd
  | brace
  | bracket
  | right
deriving DecidableEq, Repr

/-- What was read: the tokens behind it, its value, and how deep groups and fences were nested in it. -/
structure Reading (α : Type) where
  rest : List Token
  value : α
  depth : Nat := 0
deriving Inhabited

/-- The type of the script that a token introduces. -/
def scriptOf? : Token → Option Script
  | .char '^' => some .super
  | .char '_' => some .sub
  | _ => none

mutual

/-- Reads atoms up to a stop.  `atoms` holds those read before, in reverse order, and `depth` their nesting.  The fuel
bounds the number of steps; four for every token are enough. -/
def readSequence (c : Catalog) : Nat → Stop → List Atom → Nat → List Token → Outcome (Reading (List Atom))
  | 0, _, atoms, depth, tokens => .ok ⟨tokens, atoms.reverse, depth⟩
  | _ + 1, _, atoms, depth, [] => .ok ⟨[], atoms.reverse, depth⟩
  | fuel + 1, stop, atoms, depth, token :: rest =>
    if token = .char '\x7d' then
      if stop = .brace then .ok ⟨rest, atoms.reverse, depth⟩ else readSequence c fuel stop atoms depth rest
    else if token = .char ']' ∧ stop = .bracket then .ok ⟨rest, atoms.reverse, depth⟩
    else if token = .command "right" then
      if stop = .sourceEnd then readSequence c fuel stop atoms depth rest
      else .ok ⟨token :: rest, atoms.reverse, depth⟩
    else match scriptOf? token with
      | some script => do
        let read ← readArgument c fuel rest
        readSequence c fuel stop (script.attach atoms read.value) (max depth read.depth) read.rest
      | none => do
        if token = .char '\x7b' then
          let read ← readSequence c fuel .brace [] 0 rest
          readSequence c fuel stop (read.value.reverse ++ atoms) (max depth (read.depth + 1)) read.rest
        else match ← readBlock c fuel atoms token rest with
          | some block =>
            readSequence c fuel stop ((repeatBlock block.value).reverse ++ atoms) (max depth block.depth) block.rest
          | none =>
            if ellipses.contains token.text && afterDigit atoms then readSequence c fuel stop atoms depth rest
            else
              let read ← readAtom c fuel token rest
              readSequence c fuel stop (read.value.toList ++ atoms) (max depth read.depth) read.rest

/-- Reads the digits under a line behind a decimal point. -/
def readBlock (c : Catalog) : Nat → List Atom → Token → List Token → Outcome (Option (Reading (List Atom)))
  | 0, _, _, _ => .ok none
  | fuel + 1, atoms, token, rest =>
    if token = .command "overline" ∧ afterPoint atoms then do
      let block ← readArgument c fuel rest
      return if !block.value.isEmpty && block.value.all isPlainDigit then some block else none
    else .ok none

/-- Reads an argument: a group between braces or a single atom. -/
def readArgument (c : Catalog) : Nat → List Token → Outcome (Reading (List Atom))
  | 0, tokens => .ok ⟨tokens, [], 0⟩
  | _ + 1, [] => .ok ⟨[], [], 0⟩
  | fuel + 1, token :: rest => do
    if token = .char '\x7b' then
      let read ← readSequence c fuel .brace [] 0 rest
      return ⟨read.rest, read.value, read.depth + 1⟩
    else
      let read ← readAtom c fuel token rest
      return ⟨read.rest, read.value.toList, read.depth⟩

/-- Reads the index of a root, if it has one. -/
def readIndex (c : Catalog) : Nat → List Token → Outcome (Reading (Option (List Atom)))
  | 0, tokens => .ok ⟨tokens, none, 0⟩
  | fuel + 1, tokens =>
    match tokens with
    | .char '[' :: rest => do
      let read ← readSequence c fuel .bracket [] 0 rest
      return ⟨read.rest, some read.value, read.depth⟩
    | _ => .ok ⟨tokens, none, 0⟩

/-- Reads the atom that starts with a token, if the token makes one. -/
def readAtom (c : Catalog) : Nat → Token → List Token → Outcome (Reading (Option Atom))
  | 0, _, rest => .ok ⟨rest, none, 0⟩
  | fuel + 1, token, rest => do
    match token with
    | .verbatim name content =>
      if name = "operatorname" then return ⟨rest, some { type := .operator, latex := token.text }, 0⟩
      else return ⟨rest, some { type := .text, value := content, latex := token.text }, 0⟩
    | _ =>
      if ignored.contains token.text then return ⟨rest, none, 0⟩
      else if spaces.contains token.text then return ⟨rest, some { type := .spacing, latex := token.text }, 0⟩
      else if fractions.contains token.text then
        let numerator ← readArgument c fuel rest
        let denominator ← readArgument c fuel numerator.rest
        return ⟨denominator.rest, some {
          type := .fraction, latex := token.text
          numerator := some numerator.value, denominator := some denominator.value },
          max numerator.depth denominator.depth⟩
      else if token.text = "\\sqrt" then
        let index ← readIndex c fuel rest
        let body ← readArgument c fuel index.rest
        return ⟨body.rest, some {
          type := .radical, latex := token.text, body := some body.value, index := index.value },
          max index.depth body.depth⟩
      else if token.text = "\\left" then
        let left := match rest with
          | delimiter :: _ => delimiter.text
          | [] => "."
        let body ← readSequence c fuel .right [] 0 (rest.drop 1)
        let right := match body.rest with
          | _ :: delimiter :: _ => delimiter.text
          | _ => "."
        return ⟨body.rest.drop 2, some {
          type := .fenced, body := some body.value, leftDelim := left, rightDelim := right }, body.depth + 1⟩
      else if sizes.contains token.text then
        match rest with
        | [] => return ⟨[], none, 0⟩
        | delimiter :: more =>
          return ⟨more, some { type := .sized, latex := token.text, delim := delimiter.text }, 0⟩
      else match fonts.lookup token.text with
        | some font =>
          let body ← readArgument c fuel rest
          return ⟨body.rest, some { type := .font, latex := token.text, body := some body.value, font := font },
            body.depth⟩
        | none => return ⟨rest, some (← symbolAtom c token.text), 0⟩

end

/-- The reading of a sequence of tokens. -/
def readTokens (c : Catalog) (tokens : List Token) : Outcome (Reading (List Atom)) :=
  readSequence c (4 * tokens.length + 4) .sourceEnd [] 0 tokens

/-- The reading of a source. -/
def read (c : Catalog) (source : String) : Outcome (Reading (List Atom)) := readTokens c (Token.scan source)

/-- The atoms of a source. -/
def atoms (c : Catalog) (source : String) : Outcome (List Atom) := do return (← read c source).value

end Source

end Formula
