import Formula.Atom.Numeral
import Formula.Atom.Role
import Formula.Expr.Sign

/-!
# Expressions of atoms

`Expr.ofAtoms` reads a sequence of atoms as an expression, by this grammar.

    sequence   := expression (stray expression)*
    expression := primary (operator primary)*          by precedence
    primary    := digraph primary
                | ('+' | '-') primary                  the sign is folded into a number
                | number [fraction]                    a mixed number
                | fraction | radical | font | text
                | function primary                     sin x, \log_2 x
                | fence sequence fence                 (x), |x|, \lfloor x\rfloor
                | symbol

A primary is followed by scripts, postfix marks and neighbours that multiply it.

Every step takes the atoms from its place on and gives those behind what it read.  No sequence is refused: atoms that
fit no rule become error nodes, and the reading goes on behind them.  Only a payload atom whose spelling is no text can
make a step fail, or digits that are no number.

Every call passes on less fuel than it has.  Between two calls of one function on a path at least one atom has been
read, so that `stepsPerAtom` for every atom, nested ones included, are enough.
-/

namespace Formula

open Atom (Closer)

namespace Expr

/-- What a step read: the expression and the atoms behind it. -/
structure Reading where
  rest : List Atom
  expr : Expr
deriving Inhabited

/-- The precedence of the first of the atoms, if it is an operator. -/
def operator? (c : Catalog) : List Atom → Outcome (Option Int)
  | [] => .ok none
  | a :: _ => a.precedence c

/-- The number that the characters of a numeral write. -/
def literalOf (chars : List Char) : Outcome Expr := do
  return ofNumber (.float (← Datum.toDouble (.text (String.ofList chars))))

/-- The first of the atoms starts a number: a digit, or a point with a digit behind it. -/
def startsNumber : List Atom → Outcome Bool
  | [] => .ok false
  | a :: rest => do
    if ← a.isDigit then return true
    if a.type = .ordinary then
      if (← a.text).isText "." && !a.hasScripts then Atom.startsWithDigit rest else return false
    else return false

/-- The fence around an expression: the function that its delimiters stand for, or a group. -/
def delimited (left right : Datum) (inner : Expr) : Outcome Expr := do
  match ← Atom.delimiterFunction? left right with
  | some name => return apply name inner
  | none => return fenced inner (.tuple [left, right])

/-- A fence is a group or a call of its expression, without scripts. -/
theorem delimited_eq_ok {left right : Datum} {e e' : Expr} (h : delimited left right e = .ok e') :
    (∃ name : String, Atom.delimiterFunction? left right = .ok (some name) ∧ e' = apply name e) ∨
      e' = fenced e (.tuple [left, right]) := by
  obtain ⟨_ | name, hname, h⟩ := Outcome.bind_eq_ok.mp h
  · cases h
    exact .inr rfl
  · cases h
    exact .inl ⟨name, hname, rfl⟩

/-- The atoms up to the one that closes `depth` open fences, that one, and the atoms behind it. -/
def splitAtCloser (depth : Nat) : List Atom → Option (List Atom × Atom × List Atom)
  | [] => none
  | a :: rest =>
    if a.type = .closing ∧ depth = 0 then some ([], a, rest)
    else
      let next := if a.type = .opening then depth + 1 else if a.type = .closing then depth - 1 else depth
      (splitAtCloser next rest).map fun s => (a :: s.1, s.2)

/-- The argument lists of a call that start the atoms, the atom that ends them, and the atoms behind it. -/
def callArguments? : List Atom → Outcome (Option (List Atom × Atom × List Atom))
  | [] => .ok none
  | a :: rest =>
    match a.type with
    | .fenced =>
      if a.leftDelim.isText "(" && a.rightDelim.isText ")" then .ok (some (a.body.getD [], a, rest)) else .ok none
    | .opening => do if (← a.text).isText "(" then return splitAtCloser 0 rest else return none
    | _ => .ok none

/-- Splits atoms at the commas outside of fences.  `part` is the part being read, in reverse order. -/
def splitAtCommas (depth : Int) (part : List Atom) : List Atom → Outcome (List (List Atom))
  | [] => .ok [part.reverse]
  | a :: rest => do
    let next := if a.type = .opening then depth + 1 else if a.type = .closing then depth - 1 else depth
    let comma ← if next = 0 ∧ a.type = .punctuation then (a.text).map (·.isText ",") else pure false
    if comma then return part.reverse :: (← splitAtCommas next [] rest)
    else splitAtCommas next (a :: part) rest

/-- One argument stays as it is; of several, the empty ones are left out. -/
def argumentsOf : List Expr → Expr
  | [e] => e
  | items => tuple (items.filter fun e => !e.isMissing)

/-- Names that are read as functions in front of parentheses. -/
def callNames : List String := ["f", "g"]

/-- The name of the symbol, if it is read as a function in front of parentheses. -/
def callName? : Expr → Outcome Bool
  | symbol name _ _ _ => name.isOneOf callNames
  | _ => .ok false

mutual

/-- Reads a whole sequence. -/
def ofSequence (c : Catalog) : Nat → List Atom → Outcome Expr
  | 0, _ => .error .recursion
  | fuel + 1, atoms => do
    let read ← readSequence c fuel [] (atoms.filter fun a => a.type ≠ .spacing)
    return read.expr

/-- Reads a nested sequence, of which an empty one has no expression. -/
def ofNested (c : Catalog) : Nat → Option (List Atom) → Outcome Expr
  | 0, _ => .error .recursion
  | _ + 1, none | _ + 1, some [] => .ok missing
  | fuel + 1, some atoms => ofSequence c fuel atoms

/-- Reads a list of nested sequences. -/
def ofParts (c : Catalog) : Nat → List (List Atom) → Outcome (List Expr)
  | 0, _ => .error .recursion
  | _ + 1, [] => .ok []
  | fuel + 1, part :: rest => do
    let e ← ofNested c fuel (some part)
    return e :: (← ofParts c fuel rest)

/-- The expression of an atom on its own, missing if its type has none. -/
def ofAtom (c : Catalog) : Nat → Atom → Outcome Expr
  | 0, _ => .error .recursion
  | fuel + 1, a =>
    match a.type with
    | .fraction => do
      let numerator ← ofSequence c fuel (a.numerator.getD [])
      let denominator ← ofSequence c fuel (a.denominator.getD [])
      return quotient numerator denominator
    | .radical => do
      let radicand ← ofSequence c fuel (a.body.getD [])
      let index ← ofSequence c fuel (a.index.getD [])
      if index.isMissing then return squareRoot radicand
      else return apply "pow" (tuple [radicand, quotient (ofNumber (.int 1)) index])
    | .font => a.inFont
    | .text => a.asText
    | .ordinary | .textual => a.symbol c
    | _ => .ok missing

/-- Reads up to the end or to an atom that closes one of the open fences. -/
def readSequence (c : Catalog) : Nat → List Closer → List Atom → Outcome Reading
  | 0, _, _ => .error .recursion
  | fuel + 1, closers, atoms => do
    let first ← readPrimary c fuel closers atoms
    let read ← readExpression c fuel closers 0 first.expr first.rest
    readStray c fuel closers read.expr read.rest

/-- Reads on behind an expression: what stands there multiplies it, and an atom that starts nothing is an error. -/
def readStray (c : Catalog) : Nat → List Closer → Expr → List Atom → Outcome Reading
  | 0, _, _, _ => .error .recursion
  | _ + 1, _, e, [] => .ok ⟨[], e⟩
  | fuel + 1, closers, e, a :: rest => do
    if ← a.closesAny closers then return ⟨a :: rest, e⟩
    let read ← readPrimary c fuel closers (a :: rest)
    let first : Reading ←
      if read.rest.length = (a :: rest).length then a.unexpected.map fun u => ⟨rest, u⟩ else pure read
    let read ← readExpression c fuel closers 0 first.expr first.rest
    readStray c fuel closers (juxtapose e read.expr) read.rest

/-- Reads on behind an operand: operators of at least the precedence `least`, with their right operands. -/
def readExpression (c : Catalog) : Nat → List Closer → Int → Expr → List Atom → Outcome Reading
  | 0, _, _, _, _ => .error .recursion
  | _ + 1, _, _, left, [] => .ok ⟨[], left⟩
  | fuel + 1, closers, least, left, a :: rest => do
    match ← a.precedence c with
    | none => return ⟨a :: rest, left⟩
    | some precedence =>
      if precedence < least then return ⟨a :: rest, left⟩
      else
        let op ← a.name c
        let first ← readPrimary c fuel closers rest
        let right ← readTighter c fuel closers precedence first.expr first.rest
        readExpression c fuel closers least (between op left right.expr) right.rest

/-- Reads on behind a right operand: the operators that bind tighter than the one before it. -/
def readTighter (c : Catalog) : Nat → List Closer → Int → Expr → List Atom → Outcome Reading
  | 0, _, _, _, _ => .error .recursion
  | fuel + 1, closers, precedence, right, atoms => do
    match ← operator? c atoms with
    | none => return ⟨atoms, right⟩
    | some next =>
      if next ≤ precedence then return ⟨atoms, right⟩
      else
        let read ← readExpression c fuel closers next right atoms
        readTighter c fuel closers precedence read.expr read.rest

/-- Reads a primary and the neighbours that multiply it. -/
def readPrimary (c : Catalog) : Nat → List Closer → List Atom → Outcome Reading
  | 0, _, _ => .error .recursion
  | _ + 1, _, [] => .ok ⟨[], missing⟩
  | fuel + 1, closers, a :: rest => do
    if ← a.closesAny closers then return ⟨a :: rest, missing⟩
    let read ← readOperand c fuel closers a rest
    if read.expr.isMissing then return read
    readNeighbours c fuel closers read.expr read.rest

/-- Reads one operand that starts with an atom.  Only an operator without a left operand gives none, and is not read. -/
def readOperand (c : Catalog) : Nat → List Closer → Atom → List Atom → Outcome Reading
  | 0, _, _, _ => .error .recursion
  | fuel + 1, closers, a, rest => do
    match ← Atom.startsWithDigraph? Glyph.prefixDigraphs (a :: rest) with
    | some name =>
      let read ← readPrimary c fuel closers (rest.drop 1)
      return ⟨read.rest, apply name read.expr⟩
    | none => match ← a.sign? c with
      | some sign =>
        let read ← readPrimary c fuel closers rest
        return ⟨read.rest, withSign sign read.expr⟩
      | none =>
        if a.isPlaceholder then
          readScripts c fuel (some a) (unreadable "" "sub/superscript without a base") rest
        else if ← startsNumber (a :: rest) then readNumber c fuel a rest
        else
          match a.type with
          | .fraction | .radical | .font | .text => readMarked c fuel a rest
          | .fenced | .opening | .sized => readFence c fuel closers a rest
          | .operator =>
            if ← a.isFunction c then readFunction c fuel closers a rest else readSymbol c fuel a rest
          | .ordinary =>
            if ← a.isFunction c then readFunction c fuel closers a rest else readSymbol c fuel a rest
          | .textual =>
            if ← a.isFunction c then readFunction c fuel closers a rest
            else match ← a.opener? with
              | some _ => readFence c fuel closers a rest
              | none => readSymbol c fuel a rest
          | _ => readSymbol c fuel a rest

/-- Reads a symbol, or else an atom that starts no operand: an operator is left where it is. -/
def readSymbol (c : Catalog) : Nat → Atom → List Atom → Outcome Reading
  | 0, _, _ => .error .recursion
  | fuel + 1, a, rest => do
    match ← a.precedence c with
    | some _ => return ⟨a :: rest, missing⟩
    | none =>
      if a.type = .ordinary ∨ a.type = .textual then readMarked c fuel a rest
      else return ⟨rest, ← a.unexpected⟩

/-- Reads an atom that is an operand of its own, with its scripts and postfix marks. -/
def readMarked (c : Catalog) : Nat → Atom → List Atom → Outcome Reading
  | 0, _, _ => .error .recursion
  | fuel + 1, a, rest => do
    let e ← ofAtom c fuel a
    let read ← readScripts c fuel (some a) e rest
    readPostfix c fuel read.expr read.rest

/-- Reads a number, and a fraction behind it that makes it a mixed number. -/
def readNumber (c : Catalog) : Nat → Atom → List Atom → Outcome Reading
  | 0, _, _ => .error .recursion
  | fuel + 1, a, rest => do
    let numeral ← Atom.scanNumeral (a :: rest)
    if !numeral.chars.any Char.isDigit then readMarked c fuel a rest
    else
      let literal ← literalOf numeral.chars
      match ← readMixed c fuel literal numeral with
      | some read => return read
      | none =>
        let read ← readScripts c fuel numeral.last literal numeral.rest
        readPostfix c fuel read.expr read.rest

/-- Reads the fraction of a mixed number, which keeps its own scripts and postfix marks. -/
def readMixed (c : Catalog) : Nat → Expr → Atom.NumeralReading → Outcome (Option Reading)
  | 0, _, _ => .error .recursion
  | fuel + 1, literal, numeral =>
    match numeral.rest with
    | [] => .ok none
    | following :: rest =>
      if following.type = .fraction ∧ !(numeral.last.map Atom.hasScripts).getD false then do
        let fraction ← ofAtom c fuel following
        match ← mixedNumber literal fraction with
        | none => return none
        | some _ =>
          let read ← readScripts c fuel (some following) fraction rest
          let read ← readPostfix c fuel read.expr read.rest
          return some ⟨read.rest, between "+" literal read.expr⟩
      else .ok none

/-- Reads a function with its scripts and its argument. -/
def readFunction (c : Catalog) : Nat → List Closer → Atom → List Atom → Outcome Reading
  | 0, _, _, _ => .error .recursion
  | fuel + 1, closers, a, rest => do
    let name ← a.name c
    let head ← readScripts c fuel (some a) (apply name missing) rest
    let argument ← readPrimary c fuel closers head.rest
    match head.expr with
    | call name _ fence s t =>
      return ⟨argument.rest, ← applyInverse (call name argument.expr fence s t)⟩
    | e => return ⟨argument.rest, juxtapose e argument.expr⟩

/-- Reads what starts with an atom that opens a fence, up to what closes it.  A fence that is not closed keeps what was
read. -/
def readFence (c : Catalog) : Nat → List Closer → Atom → List Atom → Outcome Reading
  | 0, _, _, _ => .error .recursion
  | fuel + 1, closers, a, rest => do
    if a.type = .fenced then
      let inner ← ofNested c fuel a.body
      let e ← delimited (a.leftDelim.orElse ".") (a.rightDelim.orElse ".") inner
      let read ← readScripts c fuel (some a) e rest
      readPostfix c fuel read.expr read.rest
    else match ← a.opener? with
      | none => readSymbol c fuel a rest
      | some (left, closer) =>
        let inner ← readSequence c fuel (closers ++ [closer]) rest
        let read ← readClosing c fuel left closer inner.expr inner.rest
        readPostfix c fuel read.expr read.rest

/-- Reads the atom that closes a fence, if it is there, with its scripts. -/
def readClosing (c : Catalog) : Nat → Datum → Closer → Expr → List Atom → Outcome Reading
  | 0, _, _, _, _ => .error .recursion
  | fuel + 1, left, closer, inner, atoms => do
    let unclosed : Outcome Reading := do
      readScripts c fuel none (← delimited left (.text (closer.glyph.getD "")) inner) atoms
    match atoms with
    | [] => unclosed
    | a :: rest =>
      if ← a.closes closer then
        readScripts c fuel (some a) (← delimited left (← a.glyph) inner) rest
      else unclosed

/-- Attaches the scripts of an atom, if there is one, and of the placeholders that follow. -/
def readScripts (c : Catalog) : Nat → Option Atom → Expr → List Atom → Outcome Reading
  | 0, _, _, _ => .error .recursion
  | fuel + 1, own, e, atoms => do
    let e ← match own with
      | some a => if a.hasScripts then attachScripts c fuel a e else pure e
      | none => pure e
    match atoms with
    | [] => return ⟨[], e⟩
    | a :: rest =>
      if a.isPlaceholder && a.hasScripts then readScripts c fuel (some a) e rest else return ⟨a :: rest, e⟩

/-- Attaches the scripts of an atom to an expression. -/
def attachScripts (c : Catalog) : Nat → Atom → Expr → Outcome Expr
  | 0, _, _ => .error .recursion
  | fuel + 1, a, e => do
    let sup ← ofNested c fuel a.superscript
    let sub ← ofNested c fuel a.subscript
    return e.attach sup sub

/-- Reads the postfix marks behind an operand. -/
def readPostfix (c : Catalog) : Nat → Expr → List Atom → Outcome Reading
  | 0, _, _ => .error .recursion
  | _ + 1, e, [] => .ok ⟨[], e⟩
  | fuel + 1, e, a :: rest => do
    match ← Atom.startsWithDigraph? Glyph.postfixDigraphs (a :: rest) with
    | some name =>
      let read ← readScripts c fuel rest.head? (apply name e) (rest.drop 1)
      readPostfix c fuel read.expr read.rest
    | none => match ← a.postfixFunction? with
      | some name =>
        let read ← readScripts c fuel (some a) (apply name e) rest
        readPostfix c fuel read.expr read.rest
      | none => return ⟨a :: rest, e⟩

/-- Reads the operands behind an expression that multiply it.  Parentheses behind `f` and `g` are arguments. -/
def readNeighbours (c : Catalog) : Nat → List Closer → Expr → List Atom → Outcome Reading
  | 0, _, _, _ => .error .recursion
  | _ + 1, _, e, [] => .ok ⟨[], e⟩
  | fuel + 1, closers, e, a :: rest => do
    if ← a.startsOperand c closers then
      match ← readCall c fuel e (a :: rest) with
      | some read => readNeighbours c fuel closers read.expr read.rest
      | none =>
        let read ← readOperand c fuel closers a rest
        if read.expr.isMissing || read.rest.length = (a :: rest).length then return ⟨read.rest, e⟩
        else readNeighbours c fuel closers (between "*" e read.expr) read.rest
    else return ⟨a :: rest, e⟩

/-- Reads the arguments behind the name of a function that is a symbol, with the scripts and postfix marks of the
call. -/
def readCall (c : Catalog) : Nat → Expr → List Atom → Outcome (Option Reading)
  | 0, _, _ => .error .recursion
  | fuel + 1, e, atoms => do
    if ← callName? e then
      match ← callArguments? atoms, e with
      | some (inner, last, rest), symbol name _ s t =>
        let items ← ofParts c fuel (← splitAtCommas 0 [] inner)
        let read ← readScripts c fuel (some last) (call name (argumentsOf items) parentheses s t) rest
        return some (← readPostfix c fuel read.expr read.rest)
      | _, _ => return none
    else return none

end

/-- The number of steps that one atom may take. -/
def stepsPerAtom : Nat := 32

/-- Steps that are enough for a number of atoms. -/
def stepsFor (atoms : Nat) : Nat := stepsPerAtom * (atoms + 1)

/-- The expression of a sequence of atoms, missing if there are none but spaces. -/
def ofAtoms (c : Catalog) (atoms : List Atom) : Outcome Expr := ofSequence c (stepsFor (Atom.listSize atoms)) atoms

/-- The expression of an atom on its own, missing if its type has none. -/
def ofSingle (c : Catalog) (a : Atom) : Outcome Expr := ofAtom c (stepsFor a.size) a

end Expr

end Formula
