import Formula.Proofs.Reader.Discipline

/-!
# Calls of the reader

A call of the reader of atoms is one of its functions with what it is called on.  `Call.need` is the fuel that the call
needs: thirty-two for every unit of the weight of what is left to read, and a rank that orders the functions which call
one another on the same row.  The functions of `Grammar` are those of the reader with the fuel that they need, and
`Call.Settled` says of a call that more fuel changes nothing, and that its answer keeps a discipline: what is left is the
end of the row, and the expression is of the kind that the discipline asks for.

That every call settles is proved by induction on the need; there is one lemma for every function, which goes along its
text.
-/

namespace Formula

open Atom Expr

/-- A call of the reader. -/
inductive Call where
  | whole (atoms : List Atom)
  | nested (field : Option (List Atom))
  | parts (rows : List (List Atom))
  | atom (a : Atom)
  | sequence (closers : List Closer) (atoms : List Atom)
  | stray (closers : List Closer) (e : Expr) (atoms : List Atom)
  | expression (closers : List Closer) (least : Int) (left : Expr) (atoms : List Atom)
  | tighter (closers : List Closer) (precedence : Int) (right : Expr) (atoms : List Atom)
  | primary (closers : List Closer) (atoms : List Atom)
  | operand (closers : List Closer) (a : Atom) (rest : List Atom)
  | symbol (a : Atom) (rest : List Atom)
  | marked (a : Atom) (rest : List Atom)
  | number (a : Atom) (rest : List Atom)
  | mixed (literal : Expr) (numeral : NumeralReading)
  | function (closers : List Closer) (a : Atom) (rest : List Atom)
  | fence (closers : List Closer) (a : Atom) (rest : List Atom)
  | closing (left : Datum) (closer : Closer) (inner : Expr) (atoms : List Atom)
  | scripts (own : Option Atom) (e : Expr) (atoms : List Atom)
  | attached (a : Atom) (e : Expr)
  | marks (e : Expr) (atoms : List Atom)
  | neighbours (closers : List Closer) (e : Expr) (atoms : List Atom)
  | application (e : Expr) (atoms : List Atom)

/-- The fuel that a call needs. -/
def Call.need : Call → Nat
  | whole atoms => 32 * listSize atoms + 10
  | nested field => 32 * fieldSize field + 11
  | parts rows => 32 * partsSize rows + rows.length + 12
  | atom a => 32 * a.weight
  | sequence _ atoms => 32 * rowWeight atoms + 9
  | stray _ _ atoms => 32 * rowWeight atoms + 8
  | expression _ _ _ atoms => 32 * rowWeight atoms + 1
  | tighter _ _ _ atoms => 32 * rowWeight atoms + 2
  | primary _ atoms => 32 * rowWeight atoms + 7
  | operand _ a rest => 32 * (a.weight + rowWeight rest) + 6
  | symbol a rest => 32 * (a.weight + rowWeight rest) + 4
  | marked a rest => 32 * (a.weight + rowWeight rest) + 3
  | number a rest => 32 * (a.weight + rowWeight rest) + 4
  | mixed _ numeral => 32 * rowWeight numeral.rest + 3
  | function _ a rest => 32 * (a.weight + rowWeight rest) + 3
  | fence _ a rest => 32 * (a.weight + rowWeight rest) + 5
  | closing _ _ _ atoms => 32 * rowWeight atoms + 4
  | scripts none _ atoms => 32 * rowWeight atoms + 3
  | scripts (some a) _ atoms => 32 * (a.weight + rowWeight atoms) + 2
  | attached a _ => 32 * a.weight
  | marks _ atoms => 32 * rowWeight atoms + 3
  | neighbours _ _ atoms => 32 * rowWeight atoms + 7
  | application _ atoms => 32 * rowWeight atoms + 3

/-! ### The reader without fuel -/

namespace Grammar

variable (c : Catalog)

/-- Reads a whole sequence. -/
def whole (atoms : List Atom) : Outcome Expr := ofSequence c (Call.whole atoms).need atoms

/-- Reads a nested sequence. -/
def nested (field : Option (List Atom)) : Outcome Expr := ofNested c (Call.nested field).need field

/-- Reads a list of nested sequences. -/
def parts (rows : List (List Atom)) : Outcome (List Expr) := ofParts c (Call.parts rows).need rows

/-- The expression of an atom on its own. -/
def atom (a : Atom) : Outcome Expr := ofAtom c (Call.atom a).need a

/-- Reads up to the end or to an atom that closes one of the open fences. -/
def sequence (closers : List Closer) (atoms : List Atom) : Outcome Reading :=
  readSequence c (Call.sequence closers atoms).need closers atoms

/-- Reads on behind an expression. -/
def stray (closers : List Closer) (e : Expr) (atoms : List Atom) : Outcome Reading :=
  readStray c (Call.stray closers e atoms).need closers e atoms

/-- Reads operators of at least the precedence `least`, with their right operands. -/
def expression (closers : List Closer) (least : Int) (left : Expr) (atoms : List Atom) : Outcome Reading :=
  readExpression c (Call.expression closers least left atoms).need closers least left atoms

/-- Reads the operators that bind tighter than the one before the operand. -/
def tighter (closers : List Closer) (precedence : Int) (right : Expr) (atoms : List Atom) : Outcome Reading :=
  readTighter c (Call.tighter closers precedence right atoms).need closers precedence right atoms

/-- Reads a primary and the neighbours that multiply it. -/
def primary (closers : List Closer) (atoms : List Atom) : Outcome Reading :=
  readPrimary c (Call.primary closers atoms).need closers atoms

/-- Reads one operand. -/
def operand (closers : List Closer) (a : Atom) (rest : List Atom) : Outcome Reading :=
  readOperand c (Call.operand closers a rest).need closers a rest

/-- Reads a symbol, or else an atom that starts no operand. -/
def symbol (a : Atom) (rest : List Atom) : Outcome Reading := readSymbol c (Call.symbol a rest).need a rest

/-- Reads an atom that is an operand of its own. -/
def marked (a : Atom) (rest : List Atom) : Outcome Reading := readMarked c (Call.marked a rest).need a rest

/-- Reads a number. -/
def number (a : Atom) (rest : List Atom) : Outcome Reading := readNumber c (Call.number a rest).need a rest

/-- Reads the fraction of a mixed number. -/
def mixed (literal : Expr) (numeral : NumeralReading) : Outcome (Option Reading) :=
  readMixed c (Call.mixed literal numeral).need literal numeral

/-- Reads a function with its scripts and its argument. -/
def function (closers : List Closer) (a : Atom) (rest : List Atom) : Outcome Reading :=
  readFunction c (Call.function closers a rest).need closers a rest

/-- Reads a fence. -/
def fence (closers : List Closer) (a : Atom) (rest : List Atom) : Outcome Reading :=
  readFence c (Call.fence closers a rest).need closers a rest

/-- Reads the atom that closes a fence. -/
def closing (left : Datum) (closer : Closer) (inner : Expr) (atoms : List Atom) : Outcome Reading :=
  readClosing c (Call.closing left closer inner atoms).need left closer inner atoms

/-- Attaches the scripts of an atom and of the placeholders that follow. -/
def scripts (own : Option Atom) (e : Expr) (atoms : List Atom) : Outcome Reading :=
  readScripts c (Call.scripts own e atoms).need own e atoms

/-- Attaches the scripts of the placeholders in front of the row. -/
def placeholders (e : Expr) : List Atom → Outcome Reading
  | [] => .ok ⟨[], e⟩
  | a :: rest => if a.isPlaceholder && a.hasScripts then scripts c (some a) e rest else .ok ⟨a :: rest, e⟩

/-- Attaches the scripts of an atom. -/
def attached (a : Atom) (e : Expr) : Outcome Expr := attachScripts c (Call.attached a e).need a e

/-- Reads the postfix marks behind an operand. -/
def marks (e : Expr) (atoms : List Atom) : Outcome Reading := readPostfix c (Call.marks e atoms).need e atoms

/-- Reads the operands behind an expression that multiply it. -/
def neighbours (closers : List Closer) (e : Expr) (atoms : List Atom) : Outcome Reading :=
  readNeighbours c (Call.neighbours closers e atoms).need closers e atoms

/-- Reads the arguments behind the name of a function that is a symbol. -/
def application (e : Expr) (atoms : List Atom) : Outcome (Option Reading) :=
  readCall c (Call.application e atoms).need e atoms

end Grammar

/-! ### What settles -/

/-- What is left of a row behind a reading is its end, and the expression is in `E`. -/
structure After (E : Expr → Prop) (atoms : List Atom) (read : Reading) : Prop where
  rest : read.rest <:+ atoms
  expr : E read.expr

/-- Behind an operand its atom is read, or it gave no expression and the row is as it was. -/
def AfterOperand (E : Expr → Prop) (a : Atom) (rest : List Atom) (read : Reading) : Prop :=
  After E rest read ∨ read = ⟨a :: rest, missing⟩

/-- The call settles, and keeps the discipline. -/
def Call.Settled (c : Catalog) (F : Fault → Prop) (L : List Atom → Prop) (E : Expr → Prop) (call : Call) : Prop :=
  match call with
  | whole atoms => L (unspaced atoms) → Settles F E call.need (Grammar.whole c atoms) fun n => ofSequence c n atoms
  | nested field =>
    L (unspaced (field.getD [])) → Settles F E call.need (Grammar.nested c field) fun n => ofNested c n field
  | parts rows =>
    (∀ row ∈ rows, L (unspaced row)) →
      Settles F (fun items => ∀ e ∈ items, E e) call.need (Grammar.parts c rows) fun n => ofParts c n rows
  | atom a => L [a] → Settles F E call.need (Grammar.atom c a) fun n => ofAtom c n a
  | sequence closers atoms =>
    L atoms → Settles F (After E atoms) call.need (Grammar.sequence c closers atoms)
      fun n => readSequence c n closers atoms
  | stray closers e atoms =>
    L atoms → E e → Settles F (After E atoms) call.need (Grammar.stray c closers e atoms)
      fun n => readStray c n closers e atoms
  | expression closers least left atoms =>
    L atoms → E left → Settles F
      (fun read => After E atoms read ∧
        ∀ p, operator? c atoms = .ok (some p) → least ≤ p → read.rest.length < atoms.length)
      call.need (Grammar.expression c closers least left atoms) fun n => readExpression c n closers least left atoms
  | tighter closers precedence right atoms =>
    L atoms → E right → Settles F (After E atoms) call.need (Grammar.tighter c closers precedence right atoms)
      fun n => readTighter c n closers precedence right atoms
  | primary closers atoms =>
    L atoms → Settles F (After E atoms) call.need (Grammar.primary c closers atoms)
      fun n => readPrimary c n closers atoms
  | operand closers a rest =>
    L (a :: rest) → Settles F (AfterOperand E a rest) call.need (Grammar.operand c closers a rest)
      fun n => readOperand c n closers a rest
  | symbol a rest =>
    L (a :: rest) → Settles F (AfterOperand E a rest) call.need (Grammar.symbol c a rest)
      fun n => readSymbol c n a rest
  | marked a rest =>
    L (a :: rest) → Settles F (After E rest) call.need (Grammar.marked c a rest) fun n => readMarked c n a rest
  | number a rest =>
    L (a :: rest) → a.isPlaceholder = false → Expr.startsNumber (a :: rest) = .ok true →
      Settles F (After E rest) call.need (Grammar.number c a rest) fun n => readNumber c n a rest
  | mixed literal numeral =>
    L numeral.rest → literalOf numeral.chars = .ok literal → E literal →
      Settles F (fun found => ∀ read, found = some read → After E numeral.rest read) call.need
        (Grammar.mixed c literal numeral) fun n => readMixed c n literal numeral
  | function closers a rest =>
    L (a :: rest) → a.isFunction c = .ok true → Settles F (After E rest) call.need (Grammar.function c closers a rest)
      fun n => readFunction c n closers a rest
  | fence closers a rest =>
    L (a :: rest) → Settles F (AfterOperand E a rest) call.need (Grammar.fence c closers a rest)
      fun n => readFence c n closers a rest
  | closing left closer inner atoms =>
    (∃ a, L [a] ∧ a.opener? = .ok (some (left, closer))) → L atoms → E inner →
      Settles F (After E atoms) call.need (Grammar.closing c left closer inner atoms)
        fun n => readClosing c n left closer inner atoms
  | scripts own e atoms =>
    (∀ a ∈ own, L [a]) → L atoms → E e → Settles F (After E atoms) call.need (Grammar.scripts c own e atoms)
      fun n => readScripts c n own e atoms
  | attached a e =>
    L [a] → E e → Settles F E call.need (Grammar.attached c a e) fun n => attachScripts c n a e
  | marks e atoms =>
    L atoms → E e → Settles F (After E atoms) call.need (Grammar.marks c e atoms) fun n => readPostfix c n e atoms
  | neighbours closers e atoms =>
    L atoms → E e → Settles F (After E atoms) call.need (Grammar.neighbours c closers e atoms)
      fun n => readNeighbours c n closers e atoms
  | application e atoms =>
    L atoms → E e →
      Settles F (fun found => ∀ read, found = some read → E read.expr ∧ read.rest <:+ atoms.tail) call.need
        (Grammar.application c e atoms) fun n => readCall c n e atoms

end Formula
