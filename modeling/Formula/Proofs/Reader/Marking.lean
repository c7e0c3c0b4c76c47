import Formula.Proofs.Expr.Marks
import Formula.Proofs.Reader.Progress

/-!
# The reader with marks

A bracket is a fence that an opening atom opens.  The reader is written down here a second time, in the same words but for
one thing: it puts a mark on the node of every bracket, where the node is made.  That includes the call of `f` or `g` that
takes its arguments from between brackets.  So the marked tree tells what the tree leaves open, which of its nodes were read
from brackets.

The marks change nothing else (`Unmarks`): with them taken off, what is read here is what the reader reads, faults
included.  One more unit of fuel keeps this; there is one lemma for every function, which goes along its text.
-/

namespace Formula

open Atom Expr Outcome

namespace Marking

/-! ### The functions of the reader -/

/-- The fence around an expression, with a mark if it is a bracket. -/
def bracketed (closer : Closer) (left right : Datum) (inner : Expr) : Outcome Expr :=
  (delimited left right inner).map fun e => if closer.type = .closing then e.marked else e

/-- A call whose arguments start the atoms, with a mark if they stand in a bracket. -/
def calling (atoms : List Atom) (e : Expr) : Expr :=
  if atoms.head?.any (·.type == .opening) then e.marked else e

mutual

def ofSequence (c : Catalog) : Nat → List Atom → Outcome Expr
  | 0, _ => .error .recursion
  | fuel + 1, atoms => do
    let read ← readSequence c fuel [] (atoms.filter fun a => a.type ≠ .spacing)
    return read.expr

def ofNested (c : Catalog) : Nat → Option (List Atom) → Outcome Expr
  | 0, _ => .error .recursion
  | _ + 1, none | _ + 1, some [] => .ok missing
  | fuel + 1, some atoms => ofSequence c fuel atoms

def ofParts (c : Catalog) : Nat → List (List Atom) → Outcome (List Expr)
  | 0, _ => .error .recursion
  | _ + 1, [] => .ok []
  | fuel + 1, part :: rest => do
    let e ← ofNested c fuel (some part)
    return e :: (← ofParts c fuel rest)

def ofAtom (c : Catalog) : Nat → Atom → Outcome Expr
  | 0, _ => .error .recursion
  | fuel + 1, a =>
    match a.type with
    | .fraction => do
      let numerator ← ofSequence c fuel (a.numerator.getD [])
      let denominator ← ofSequence c fuel (a.denominator.getD [])
      return quotient numerator denominator
    | .radical => do
      let radicand ← ofSequence c fuel (a.body.getD [])
      let index ← ofSequence c fuel (a.index.getD [])
      if index.isMissing then return squareRoot radicand
      else return apply "pow" (tuple [radicand, quotient (ofNumber (.int 1)) index])
    | .font => a.inFont
    | .text => a.asText
    | .ordinary | .textual => a.symbol c
    | _ => .ok missing

def readSequence (c : Catalog) : Nat → List Closer → List Atom → Outcome Reading
  | 0, _, _ => .error .recursion
  | fuel + 1, closers, atoms => do
    let first ← readPrimary c fuel closers atoms
    let read ← readExpression c fuel closers 0 first.expr first.rest
    readStray c fuel closers read.expr read.rest

def readStray (c : Catalog) : Nat → List Closer → Expr → List Atom → Outcome Reading
  | 0, _, _, _ => .error .recursion
  | _ + 1, _, e, [] => .ok ⟨[], e⟩
  | fuel + 1, closers, e, a :: rest => do
    if ← a.closesAny closers then return ⟨a :: rest, e⟩
    let read ← readPrimary c fuel closers (a :: rest)
    let first : Reading ←
      if read.rest.length = (a :: rest).length then a.unexpected.map fun u => ⟨rest, u⟩ else pure read
    let read ← readExpression c fuel closers 0 first.expr first.rest
    readStray c fuel closers (juxtapose e read.expr) read.rest

def readExpression (c : Catalog) : Nat → List Closer → Int → Expr → List Atom → Outcome Reading
  | 0, _, _, _, _ => .error .recursion
  | _ + 1, _, _, left, [] => .ok ⟨[], left⟩
  | fuel + 1, closers, least, left, a :: rest => do
    match ← a.precedence c with
    | none => return ⟨a :: rest, left⟩
    | some precedence =>
      if precedence < least then return ⟨a :: rest, left⟩
      else
        let op ← a.name c
        let first ← readPrimary c fuel closers rest
        let right ← readTighter c fuel closers precedence first.expr first.rest
        readExpression c fuel closers least (between op left right.expr) right.rest

def readTighter (c : Catalog) : Nat → List Closer → Int → Expr → List Atom → Outcome Reading
  | 0, _, _, _, _ => .error .recursion
  | fuel + 1, closers, precedence, right, atoms => do
    match ← operator? c atoms with
    | none => return ⟨atoms, right⟩
    | some next =>
      if next ≤ precedence then return ⟨atoms, right⟩
      else
        let read ← readExpression c fuel closers next right atoms
        readTighter c fuel closers precedence read.expr read.rest

def readPrimary (c : Catalog) : Nat → List Closer → List Atom → Outcome Reading
  | 0, _, _ => .error .recursion
  | _ + 1, _, [] => .ok ⟨[], missing⟩
  | fuel + 1, closers, a :: rest => do
    if ← a.closesAny closers then return ⟨a :: rest, missing⟩
    let read ← readOperand c fuel closers a rest
    if read.expr.isMissing then return read
    readNeighbours c fuel closers read.expr read.rest

def readOperand (c : Catalog) : Nat → List Closer → Atom → List Atom → Outcome Reading
  | 0, _, _, _ => .error .recursion
  | fuel + 1, closers, a, rest => do
    match ← Atom.startsWithDigraph? Glyph.prefixDigraphs (a :: rest) with
    | some name =>
      let read ← readPrimary c fuel closers (rest.drop 1)
      return ⟨read.rest, apply name read.expr⟩
    | none => match ← a.sign? c with
      | some sign =>
        let read ← readPrimary c fuel closers rest
        return ⟨read.rest, withSign sign read.expr⟩
      | none =>
        if a.isPlaceholder then
          readScripts c fuel (some a) (unreadable "" "sub/superscript without a base") rest
        else if ← startsNumber (a :: rest) then readNumber c fuel a rest
        else
          match a.type with
          | .fraction | .radical | .font | .text => readMarked c fuel a rest
          | .fenced | .opening | .sized => readFence c fuel closers a rest
          | .operator =>
            if ← a.isFunction c then readFunction c fuel closers a rest else readSymbol c fuel a rest
          | .ordinary =>
            if ← a.isFunction c then readFunction c fuel closers a rest else readSymbol c fuel a rest
          | .textual =>
            if ← a.isFunction c then readFunction c fuel closers a rest
            else match ← a.opener? with
              | some _ => readFence c fuel closers a rest
              | none => readSymbol c fuel a rest
          | _ => readSymbol c fuel a rest

def readSymbol (c : Catalog) : Nat → Atom → List Atom → Outcome Reading
  | 0, _, _ => .error .recursion
  | fuel + 1, a, rest => do
    match ← a.precedence c with
    | some _ => return ⟨a :: rest, missing⟩
    | none =>
      if a.type = .ordinary ∨ a.type = .textual then readMarked c fuel a rest
      else return ⟨rest, ← a.unexpected⟩

def readMarked (c : Catalog) : Nat → Atom → List Atom → Outcome Reading
  | 0, _, _ => .error .recursion
  | fuel + 1, a, rest => do
    let e ← ofAtom c fuel a
    let read ← readScripts c fuel (some a) e rest
    readPostfix c fuel read.expr read.rest

def readNumber (c : Catalog) : Nat → Atom → List Atom → Outcome Reading
  | 0, _, _ => .error .recursion
  | fuel + 1, a, rest => do
    let numeral ← Atom.scanNumeral (a :: rest)
    if !numeral.chars.any Char.isDigit then readMarked c fuel a rest
    else
      let literal ← literalOf numeral.chars
      match ← readMixed c fuel literal numeral with
      | some read => return read
      | none =>
        let read ← readScripts c fuel numeral.last literal numeral.rest
        readPostfix c fuel read.expr read.rest

def readMixed (c : Catalog) : Nat → Expr → Atom.NumeralReading → Outcome (Option Reading)
  | 0, _, _ => .error .recursion
  | fuel + 1, literal, numeral =>
    match numeral.rest with
    | [] => .ok none
    | following :: rest =>
      if following.type = .fraction ∧ !(numeral.last.map Atom.hasScripts).getD false then do
        let fraction ← ofAtom c fuel following
        match ← mixedNumber literal fraction with
        | none => return none
        | some _ =>
          let read ← readScripts c fuel (some following) fraction rest
          let read ← readPostfix c fuel read.expr read.rest
          return some ⟨read.rest, between "+" literal read.expr⟩
      else .ok none

def readFunction (c : Catalog) : Nat → List Closer → Atom → List Atom → Outcome Reading
  | 0, _, _, _ => .error .recursion
  | fuel + 1, closers, a, rest => do
    let name ← a.name c
    let head ← readScripts c fuel (some a) (apply name missing) rest
    let argument ← readPrimary c fuel closers head.rest
    match head.expr with
    | call name _ fence s t =>
      return ⟨argument.rest, ← applyInverse (call name argument.expr fence s t)⟩
    | e => return ⟨argument.rest, juxtapose e argument.expr⟩

def readFence (c : Catalog) : Nat → List Closer → Atom → List Atom → Outcome Reading
  | 0, _, _, _ => .error .recursion
  | fuel + 1, closers, a, rest => do
    if a.type = .fenced then
      let inner ← ofNested c fuel a.body
      let e ← delimited (a.leftDelim.orElse ".") (a.rightDelim.orElse ".") inner
      let read ← readScripts c fuel (some a) e rest
      readPostfix c fuel read.expr read.rest
    else match ← a.opener? with
      | none => readSymbol c fuel a rest
      | some (left, closer) =>
        let inner ← readSequence c fuel (closers ++ [closer]) rest
        let read ← readClosing c fuel left closer inner.expr inner.rest
        readPostfix c fuel read.expr read.rest

def readClosing (c : Catalog) : Nat → Datum → Closer → Expr → List Atom → Outcome Reading
  | 0, _, _, _, _ => .error .recursion
  | fuel + 1, left, closer, inner, atoms => do
    let unclosed : Outcome Reading := do
      readScripts c fuel none (← bracketed closer left (.text (closer.glyph.getD "")) inner) atoms
    match atoms with
    | [] => unclosed
    | a :: rest =>
      if ← a.closes closer then
        readScripts c fuel (some a) (← bracketed closer left (← a.glyph) inner) rest
      else unclosed

def readScripts (c : Catalog) : Nat → Option Atom → Expr → List Atom → Outcome Reading
  | 0, _, _, _ => .error .recursion
  | fuel + 1, own, e, atoms => do
    let e ← match own with
      | some a => if a.hasScripts then attachScripts c fuel a e else pure e
      | none => pure e
    match atoms with
    | [] => return ⟨[], e⟩
    | a :: rest =>
      if a.isPlaceholder && a.hasScripts then readScripts c fuel (some a) e rest else return ⟨a :: rest, e⟩

def attachScripts (c : Catalog) : Nat → Atom → Expr → Outcome Expr
  | 0, _, _ => .error .recursion
  | fuel + 1, a, e => do
    let sup ← ofNested c fuel a.superscript
    let sub ← ofNested c fuel a.subscript
    return e.attach sup sub

def readPostfix (c : Catalog) : Nat → Expr → List Atom → Outcome Reading
  | 0, _, _ => .error .recursion
  | _ + 1, e, [] => .ok ⟨[], e⟩
  | fuel + 1, e, a :: rest => do
    match ← Atom.startsWithDigraph? Glyph.postfixDigraphs (a :: rest) with
    | some name =>
      let read ← readScripts c fuel rest.head? (apply name e) (rest.drop 1)
      readPostfix c fuel read.expr read.rest
    | none => match ← a.postfixFunction? with
      | some name =>
        let read ← readScripts c fuel (some a) (apply name e) rest
        readPostfix c fuel read.expr read.rest
      | none => return ⟨a :: rest, e⟩

def readNeighbours (c : Catalog) : Nat → List Closer → Expr → List Atom → Outcome Reading
  | 0, _, _, _ => .error .recursion
  | _ + 1, _, e, [] => .ok ⟨[], e⟩
  | fuel + 1, closers, e, a :: rest => do
    if ← a.startsOperand c closers then
      match ← readCall c fuel e (a :: rest) with
      | some read => readNeighbours c fuel closers read.expr read.rest
      | none =>
        let read ← readOperand c fuel closers a rest
        if read.expr.isMissing || read.rest.length = (a :: rest).length then return ⟨read.rest, e⟩
        else readNeighbours c fuel closers (between "*" e read.expr) read.rest
    else return ⟨a :: rest, e⟩

def readCall (c : Catalog) : Nat → Expr → List Atom → Outcome (Option Reading)
  | 0, _, _ => .error .recursion
  | fuel + 1, e, atoms => do
    if ← callName? e then
      match ← callArguments? atoms, e with
      | some (inner, last, rest), Expr.symbol name _ s t =>
        let items ← ofParts c fuel (← splitAtCommas 0 [] inner)
        let read ← readScripts c fuel (some last) (calling atoms (call name (argumentsOf items) parentheses s t)) rest
        return some (← readPostfix c fuel read.expr read.rest)
      | _, _ => return none
    else return none

end

/-- The marked tree of a sequence of atoms. -/
def ofAtoms (c : Catalog) (atoms : List Atom) : Outcome Expr := ofSequence c (stepsFor (Atom.listSize atoms)) atoms

end Marking

/-! ### Taking the marks off -/

/-- A reading without its marks. -/
def Expr.Reading.unmarked (read : Reading) : Reading := ⟨read.rest, read.expr.unmarked⟩

namespace Outcome

variable {α β γ δ : Type} {g : γ → δ} {r : Outcome α} {k : α → Outcome γ}

/-- A question that is asked on both sides. -/
theorem map_ask {k' : α → Outcome δ} (h : ∀ v, r = .ok v → (k v).map g = k' v) : (r >>= k).map g = r >>= k' := by
  cases r with
  | ok v => exact h v rfl
  | error fault => rfl

/-- A step that has been compared before. -/
theorem map_step {f : α → β} {r' : Outcome β} {k' : β → Outcome δ} (hr : r.map f = r')
    (h : ∀ v, (k v).map g = k' (f v)) : (r >>= k).map g = r' >>= k' := by
  subst hr
  cases r with
  | ok v => exact h v
  | error fault => rfl

/-- A step of which it matters only whether it finds anything. -/
theorem map_found {r : Outcome (Option α)} {r' : Outcome (Option β)} {k : Option α → Outcome γ} {k' : Option β → Outcome δ}
    (hr : r.map Option.isSome = r'.map Option.isSome) (hnone : (k none).map g = k' none)
    (hsome : ∀ v w, (k (some v)).map g = k' (some w)) : (r >>= k).map g = r' >>= k' := by
  cases r with
  | error fault =>
    cases r' with
    | error fault' => exact congrArg Except.error (Except.error.inj hr)
    | ok w => cases hr
  | ok v =>
    cases r' with
    | error fault' => cases hr
    | ok w =>
      have hv : v.isSome = w.isSome := Except.ok.inj hr
      cases v with
      | none =>
        cases w with
        | none => exact hnone
        | some w => cases hv
      | some v =>
        cases w with
        | none => cases hv
        | some w => exact hsome v w

/-- A choice that is made alike on both sides. -/
theorem map_choice {b : Prop} [Decidable b] {r r' : Outcome γ} {s s' : Outcome δ} (h : r.map g = s) (h' : r'.map g = s') :
    (if b then r else r').map g = if b then s else s' := by
  subst h h'
  split
  · rfl
  · rfl

end Outcome

theorem unmarked_bracketed (closer : Closer) (left right : Datum) (t : Expr) :
    (Marking.bracketed closer left right t).map unmarked = delimited left right t.unmarked := by
  unfold Marking.bracketed
  by_cases h : closer.type = .closing
  · simp only [h, if_true]
    exact unmarked_marked_delimited left right t
  · simp only [h, if_false]
    rw [← unmarked_delimited]
    cases delimited left right t <;> rfl

theorem unmarked_calling (atoms : List Atom) (name : Datum) (e s t : Expr) :
    (Marking.calling atoms (call name e parentheses s t)).unmarked =
      call name e.unmarked parentheses s.unmarked t.unmarked := by
  unfold Marking.calling
  split
  · rfl
  · rfl

/-- With the fuel, the functions read what the reader reads, but for the marks. -/
structure Unmarks (c : Catalog) (fuel : Nat) : Prop where
  whole : ∀ atoms, (Marking.ofSequence c fuel atoms).map unmarked = Expr.ofSequence c fuel atoms
  nested : ∀ field, (Marking.ofNested c fuel field).map unmarked = Expr.ofNested c fuel field
  parts : ∀ parts, (Marking.ofParts c fuel parts).map (List.map unmarked) = Expr.ofParts c fuel parts
  atom : ∀ a, (Marking.ofAtom c fuel a).map unmarked = Expr.ofAtom c fuel a
  sequence : ∀ closers atoms, (Marking.readSequence c fuel closers atoms).map Reading.unmarked =
    Expr.readSequence c fuel closers atoms
  stray : ∀ closers t atoms, (Marking.readStray c fuel closers t atoms).map Reading.unmarked =
    Expr.readStray c fuel closers t.unmarked atoms
  expression : ∀ closers least t atoms, (Marking.readExpression c fuel closers least t atoms).map Reading.unmarked =
    Expr.readExpression c fuel closers least t.unmarked atoms
  tighter : ∀ closers precedence t atoms, (Marking.readTighter c fuel closers precedence t atoms).map Reading.unmarked =
    Expr.readTighter c fuel closers precedence t.unmarked atoms
  primary : ∀ closers atoms, (Marking.readPrimary c fuel closers atoms).map Reading.unmarked =
    Expr.readPrimary c fuel closers atoms
  operand : ∀ closers a rest, (Marking.readOperand c fuel closers a rest).map Reading.unmarked =
    Expr.readOperand c fuel closers a rest
  symbol : ∀ a rest, (Marking.readSymbol c fuel a rest).map Reading.unmarked = Expr.readSymbol c fuel a rest
  marked : ∀ a rest, (Marking.readMarked c fuel a rest).map Reading.unmarked = Expr.readMarked c fuel a rest
  number : ∀ a rest, (Marking.readNumber c fuel a rest).map Reading.unmarked = Expr.readNumber c fuel a rest
  mixed : ∀ value numeral, (Marking.readMixed c fuel (ofNumber value) numeral).map (Option.map Reading.unmarked) =
    Expr.readMixed c fuel (ofNumber value) numeral
  function : ∀ closers a rest, (Marking.readFunction c fuel closers a rest).map Reading.unmarked =
    Expr.readFunction c fuel closers a rest
  fence : ∀ closers a rest, (Marking.readFence c fuel closers a rest).map Reading.unmarked =
    Expr.readFence c fuel closers a rest
  closing : ∀ left closer t atoms, (Marking.readClosing c fuel left closer t atoms).map Reading.unmarked =
    Expr.readClosing c fuel left closer t.unmarked atoms
  scripts : ∀ own t atoms, (Marking.readScripts c fuel own t atoms).map Reading.unmarked =
    Expr.readScripts c fuel own t.unmarked atoms
  attached : ∀ a t, (Marking.attachScripts c fuel a t).map unmarked = Expr.attachScripts c fuel a t.unmarked
  marks : ∀ t atoms, (Marking.readPostfix c fuel t atoms).map Reading.unmarked = Expr.readPostfix c fuel t.unmarked atoms
  neighbours : ∀ closers t atoms, (Marking.readNeighbours c fuel closers t atoms).map Reading.unmarked =
    Expr.readNeighbours c fuel closers t.unmarked atoms
  application : ∀ t atoms, (Marking.readCall c fuel t atoms).map (Option.map Reading.unmarked) =
    Expr.readCall c fuel t.unmarked atoms

section

variable {c : Catalog} {fuel : Nat}

/-! ### Sequences and atoms on their own -/

section

variable (ih : Unmarks c fuel)
include ih

theorem unmarks_whole (atoms : List Atom) :
    (Marking.ofSequence c (fuel + 1) atoms).map unmarked = Expr.ofSequence c (fuel + 1) atoms := by
  simp only [Marking.ofSequence, Expr.ofSequence]
  exact map_step (ih.sequence [] _) fun read => rfl

theorem unmarks_nested (field : Option (List Atom)) :
    (Marking.ofNested c (fuel + 1) field).map unmarked = Expr.ofNested c (fuel + 1) field := by
  rcases field with _ | _ | ⟨a, rest⟩
  · rfl
  · rfl
  · exact ih.whole (a :: rest)

theorem unmarks_parts (parts : List (List Atom)) :
    (Marking.ofParts c (fuel + 1) parts).map (List.map unmarked) = Expr.ofParts c (fuel + 1) parts := by
  cases parts with
  | nil => rfl
  | cons part rest =>
    simp only [Marking.ofParts, Expr.ofParts]
    exact map_step (ih.nested (some part)) fun e => map_step (ih.parts rest) fun items => rfl

theorem unmarks_attached (a : Atom) (t : Expr) :
    (Marking.attachScripts c (fuel + 1) a t).map unmarked = Expr.attachScripts c (fuel + 1) a t.unmarked := by
  simp only [Marking.attachScripts, Expr.attachScripts]
  refine map_step (ih.nested a.superscript) fun sup => map_step (ih.nested a.subscript) fun sub => ?_
  exact congrArg Except.ok (unmarked_attach t sup sub)

theorem unmarks_scripts (own : Option Atom) (t : Expr) (atoms : List Atom) :
    (Marking.readScripts c (fuel + 1) own t atoms).map Reading.unmarked =
      Expr.readScripts c (fuel + 1) own t.unmarked atoms := by
  simp only [Marking.readScripts, Expr.readScripts]
  cases atoms with
  | nil =>
    cases own with
    | none => rfl
    | some a => exact map_choice (map_step (ih.attached a t) fun t => rfl) rfl
  | cons b rest =>
    -- Behind the scripts of its own, the expression gets those of the placeholder.
    have behind : ∀ t : Expr, Except.map Reading.unmarked (if (b.isPlaceholder && b.hasScripts) = true then
        Marking.readScripts c fuel (some b) t rest else pure ⟨b :: rest, t⟩) =
        if (b.isPlaceholder && b.hasScripts) = true then Expr.readScripts c fuel (some b) t.unmarked rest
        else pure ⟨b :: rest, t.unmarked⟩ := fun t => map_choice (ih.scripts (some b) t rest) rfl
    cases own with
    | none => exact behind t
    | some a => exact map_choice (map_step (ih.attached a t) behind) (behind t)

theorem unmarks_marks (t : Expr) (atoms : List Atom) :
    (Marking.readPostfix c (fuel + 1) t atoms).map Reading.unmarked = Expr.readPostfix c (fuel + 1) t.unmarked atoms := by
  cases atoms with
  | nil => rfl
  | cons a rest =>
    simp only [Marking.readPostfix, Expr.readPostfix]
    refine map_ask fun found _ => ?_
    cases found with
    | some name => exact map_step (ih.scripts rest.head? (apply (.text name) t) (rest.drop 1)) fun read => ih.marks read.expr read.rest
    | none =>
      refine map_ask fun mark _ => ?_
      cases mark with
      | some name => exact map_step (ih.scripts (some a) (apply (.text name) t) rest) fun read => ih.marks read.expr read.rest
      | none => rfl

/-- Scripts and postfix marks stand behind an operand. -/
theorem unmarks_behind (own : Option Atom) (t : Expr) (atoms : List Atom) :
    Except.map Reading.unmarked (Marking.readScripts c fuel own t atoms >>= fun read => Marking.readPostfix c fuel read.expr read.rest) =
      Expr.readScripts c fuel own t.unmarked atoms >>= fun read => Expr.readPostfix c fuel read.expr read.rest :=
  map_step (ih.scripts own t atoms) fun read => ih.marks read.expr read.rest

/-! ### Operands -/

theorem unmarks_atom (a : Atom) : (Marking.ofAtom c (fuel + 1) a).map unmarked = Expr.ofAtom c (fuel + 1) a := by
  simp only [Marking.ofAtom, Expr.ofAtom]
  cases a.type with
  | fraction =>
    exact map_step (ih.whole (a.numerator.getD [])) fun numerator => map_step (ih.whole (a.denominator.getD [])) fun denominator => rfl
  | radical =>
    refine map_step (ih.whole (a.body.getD [])) fun radicand => map_step (ih.whole (a.index.getD [])) fun index => ?_
    rw [isMissing_unmarked]
    exact map_choice rfl rfl
  | font => exact map_unmarked_of_leaf fun e => isLeaf_inFont
  | text => exact map_unmarked_of_leaf fun e => isLeaf_asText
  | ordinary | textual => exact map_unmarked_of_leaf fun e => isLeaf_symbol
  | _ => rfl

theorem unmarks_marked (a : Atom) (rest : List Atom) :
    (Marking.readMarked c (fuel + 1) a rest).map Reading.unmarked = Expr.readMarked c (fuel + 1) a rest := by
  simp only [Marking.readMarked, Expr.readMarked]
  exact map_step (ih.atom a) fun t => unmarks_behind ih (some a) t rest

theorem unmarks_symbol (a : Atom) (rest : List Atom) :
    (Marking.readSymbol c (fuel + 1) a rest).map Reading.unmarked = Expr.readSymbol c (fuel + 1) a rest := by
  simp only [Marking.readSymbol, Expr.readSymbol]
  refine map_ask fun precedence _ => ?_
  cases precedence with
  | some p => rfl
  | none => exact map_choice (ih.marked a rest) (map_step (map_unmarked_of_leaf fun e => isLeaf_unexpected) fun t => rfl)

theorem unmarks_mixed (value : Datum) (numeral : NumeralReading) :
    (Marking.readMixed c (fuel + 1) (ofNumber value) numeral).map (Option.map Reading.unmarked) =
      Expr.readMixed c (fuel + 1) (ofNumber value) numeral := by
  simp only [Marking.readMixed, Expr.readMixed]
  cases numeral.rest with
  | nil => rfl
  | cons following rest =>
    refine map_choice (map_step (ih.atom following) fun t => ?_) rfl
    refine map_found (mixedNumber_unmarked value t).symm rfl fun _ _ => ?_
    refine map_step (ih.scripts (some following) t rest) fun read => map_step (ih.marks read.expr read.rest) fun read => rfl

theorem unmarks_number (a : Atom) (rest : List Atom) :
    (Marking.readNumber c (fuel + 1) a rest).map Reading.unmarked = Expr.readNumber c (fuel + 1) a rest := by
  simp only [Marking.readNumber, Expr.readNumber]
  refine map_ask fun numeral _ => map_choice (ih.marked a rest) (map_ask fun literal hliteral => ?_)
  obtain ⟨value, rfl⟩ := number_of_literalOf hliteral
  refine map_step (ih.mixed value numeral) fun found => ?_
  cases found with
  | some read => rfl
  | none => exact unmarks_behind ih numeral.last (ofNumber value) numeral.rest

theorem unmarks_function (closers : List Closer) (a : Atom) (rest : List Atom) :
    (Marking.readFunction c (fuel + 1) closers a rest).map Reading.unmarked =
      Expr.readFunction c (fuel + 1) closers a rest := by
  simp only [Marking.readFunction, Expr.readFunction]
  refine map_ask fun name _ => map_step (ih.scripts (some a) (apply name missing) rest) fun head => ?_
  refine map_step (ih.primary closers head.rest) fun argument => ?_
  have apart : ∀ e : Expr, (Except.ok (⟨argument.rest, juxtapose e argument.expr⟩ : Reading)).map Reading.unmarked =
      (Except.ok ⟨argument.rest, juxtapose e.unmarked argument.expr.unmarked⟩ : Outcome Reading) := fun e =>
    congrArg (fun e => Except.ok (⟨argument.rest, e⟩ : Reading)) (unmarked_juxtapose e argument.expr)
  obtain ⟨rest, e⟩ := head
  cases e with
  | call name e fence s t => exact map_step (unmarked_applyInverse name fence argument.expr s t) fun e => rfl
  | _ => exact apart _

theorem unmarks_closing (left : Datum) (closer : Closer) (t : Expr) (atoms : List Atom) :
    (Marking.readClosing c (fuel + 1) left closer t atoms).map Reading.unmarked =
      Expr.readClosing c (fuel + 1) left closer t.unmarked atoms := by
  have fenced : ∀ (own : Option Atom) (right : Datum) (atoms : List Atom),
      Except.map Reading.unmarked (Marking.bracketed closer left right t >>= fun e => Marking.readScripts c fuel own e atoms) =
        delimited left right t.unmarked >>= fun e => Expr.readScripts c fuel own e atoms :=
    fun own right atoms => map_step (unmarked_bracketed closer left right t) fun e => ih.scripts own e atoms
  simp only [Marking.readClosing, Expr.readClosing]
  cases atoms with
  | nil => exact fenced none _ []
  | cons a rest =>
    refine map_ask fun closed _ => map_choice ?_ (fenced none _ (a :: rest))
    exact map_ask fun right _ => fenced (some a) right rest

theorem unmarks_fence (closers : List Closer) (a : Atom) (rest : List Atom) :
    (Marking.readFence c (fuel + 1) closers a rest).map Reading.unmarked = Expr.readFence c (fuel + 1) closers a rest := by
  simp only [Marking.readFence, Expr.readFence]
  refine map_choice ?_ (map_ask fun opened _ => ?_)
  · refine map_step (ih.nested a.body) fun inner => ?_
    exact map_step (unmarked_delimited _ _ inner) fun e => unmarks_behind ih (some a) e rest
  · cases opened with
    | none => exact ih.symbol a rest
    | some opened =>
      obtain ⟨left, closer⟩ := opened
      refine map_step (ih.sequence (closers ++ [closer]) rest) fun inner => ?_
      exact map_step (ih.closing left closer inner.expr inner.rest) fun read => ih.marks read.expr read.rest

theorem unmarks_operand (closers : List Closer) (a : Atom) (rest : List Atom) :
    (Marking.readOperand c (fuel + 1) closers a rest).map Reading.unmarked =
      Expr.readOperand c (fuel + 1) closers a rest := by
  simp only [Marking.readOperand, Expr.readOperand]
  refine map_ask fun found _ => ?_
  cases found with
  | some name => exact map_step (ih.primary closers (rest.drop 1)) fun read => rfl
  | none =>
    refine map_ask fun sign _ => ?_
    cases sign with
    | some sign =>
      refine map_step (ih.primary closers rest) fun read => ?_
      exact congrArg (fun e => Except.ok (⟨read.rest, e⟩ : Reading)) (unmarked_withSign _ read.expr)
    | none =>
      refine map_choice (ih.scripts (some a) (unreadable (.text "") (.text "sub/superscript without a base")) rest) ?_
      refine map_ask fun starts _ => map_choice (ih.number a rest) ?_
      cases a.type with
      | fraction | radical | font | text => exact ih.marked a rest
      | fenced | opening | sized => exact ih.fence closers a rest
      | operator | ordinary => exact map_ask fun is _ => map_choice (ih.function closers a rest) (ih.symbol a rest)
      | textual =>
        refine map_ask fun is _ => map_choice (ih.function closers a rest) (map_ask fun opened _ => ?_)
        cases opened with
        | some opened => exact ih.fence closers a rest
        | none => exact ih.symbol a rest
      | _ => exact ih.symbol a rest

theorem unmarks_application (t : Expr) (atoms : List Atom) :
    (Marking.readCall c (fuel + 1) t atoms).map (Option.map Reading.unmarked) =
      Expr.readCall c (fuel + 1) t.unmarked atoms := by
  simp only [Marking.readCall, Expr.readCall]
  rw [callName?_unmarked]
  refine map_ask fun is _ => map_choice (map_ask fun found _ => ?_) rfl
  rcases found with _ | ⟨inner, last, rest⟩
  · rfl
  · cases t with
    | symbol name variant s t =>
      refine map_ask fun parts _ => map_step (ih.parts parts) fun items => ?_
      have hscripts := ih.scripts (some last) (Marking.calling atoms (call name (argumentsOf items) parentheses s t)) rest
      rw [unmarked_calling, unmarked_argumentsOf] at hscripts
      exact map_step hscripts fun read => map_step (ih.marks read.expr read.rest) fun read => rfl
    | _ => rfl

/-! ### Rows -/

theorem unmarks_neighbours (closers : List Closer) (t : Expr) (atoms : List Atom) :
    (Marking.readNeighbours c (fuel + 1) closers t atoms).map Reading.unmarked =
      Expr.readNeighbours c (fuel + 1) closers t.unmarked atoms := by
  cases atoms with
  | nil => rfl
  | cons a rest =>
    simp only [Marking.readNeighbours, Expr.readNeighbours]
    refine map_ask fun starts _ => map_choice (map_step (ih.application t (a :: rest)) fun found => ?_) rfl
    cases found with
    | some read => exact ih.neighbours closers read.expr read.rest
    | none =>
      refine map_step (ih.operand closers a rest) fun read => ?_
      simp only [Reading.unmarked, isMissing_unmarked]
      exact map_choice rfl (ih.neighbours closers (between (.text "*") t read.expr) read.rest)

theorem unmarks_primary (closers : List Closer) (atoms : List Atom) :
    (Marking.readPrimary c (fuel + 1) closers atoms).map Reading.unmarked =
      Expr.readPrimary c (fuel + 1) closers atoms := by
  cases atoms with
  | nil => rfl
  | cons a rest =>
    simp only [Marking.readPrimary, Expr.readPrimary]
    refine map_ask fun closed _ => map_choice rfl (map_step (ih.operand closers a rest) fun read => ?_)
    simp only [Reading.unmarked, isMissing_unmarked]
    exact map_choice rfl (ih.neighbours closers read.expr read.rest)

theorem unmarks_expression (closers : List Closer) (least : Int) (t : Expr) (atoms : List Atom) :
    (Marking.readExpression c (fuel + 1) closers least t atoms).map Reading.unmarked =
      Expr.readExpression c (fuel + 1) closers least t.unmarked atoms := by
  cases atoms with
  | nil => rfl
  | cons a rest =>
    simp only [Marking.readExpression, Expr.readExpression]
    refine map_ask fun precedence _ => ?_
    cases precedence with
    | none => rfl
    | some p =>
      refine map_choice rfl (map_ask fun op _ => map_step (ih.primary closers rest) fun first => ?_)
      refine map_step (ih.tighter closers p first.expr first.rest) fun right => ?_
      exact ih.expression closers least (between op t right.expr) right.rest

theorem unmarks_tighter (closers : List Closer) (precedence : Int) (t : Expr) (atoms : List Atom) :
    (Marking.readTighter c (fuel + 1) closers precedence t atoms).map Reading.unmarked =
      Expr.readTighter c (fuel + 1) closers precedence t.unmarked atoms := by
  simp only [Marking.readTighter, Expr.readTighter]
  refine map_ask fun next _ => ?_
  cases next with
  | none => rfl
  | some next =>
    refine map_choice rfl (map_step (ih.expression closers next t atoms) fun read => ?_)
    exact ih.tighter closers precedence read.expr read.rest

theorem unmarks_stray (closers : List Closer) (t : Expr) (atoms : List Atom) :
    (Marking.readStray c (fuel + 1) closers t atoms).map Reading.unmarked =
      Expr.readStray c (fuel + 1) closers t.unmarked atoms := by
  cases atoms with
  | nil => rfl
  | cons a rest =>
    have on : ∀ first : Reading, Except.map Reading.unmarked (Marking.readExpression c fuel closers 0 first.expr first.rest >>=
        fun read => Marking.readStray c fuel closers (juxtapose t read.expr) read.rest) =
          Expr.readExpression c fuel closers 0 first.expr.unmarked first.rest >>=
            fun read => Expr.readStray c fuel closers (juxtapose t.unmarked read.expr) read.rest := by
      intro first
      refine map_step (ih.expression closers 0 first.expr first.rest) fun read => ?_
      rw [ih.stray, unmarked_juxtapose]
      rfl
    simp only [Marking.readStray, Expr.readStray]
    refine map_ask fun closed _ => map_choice rfl (map_step (ih.primary closers (a :: rest)) fun read => ?_)
    refine map_choice (map_step (f := Reading.unmarked) ?_ on) (on read)
    cases hu : a.unexpected with
    | error fault => rfl
    | ok u => exact congrArg (fun e => Except.ok (⟨rest, e⟩ : Reading)) (isLeaf_unexpected hu).unmarked_eq

theorem unmarks_sequence (closers : List Closer) (atoms : List Atom) :
    (Marking.readSequence c (fuel + 1) closers atoms).map Reading.unmarked =
      Expr.readSequence c (fuel + 1) closers atoms := by
  simp only [Marking.readSequence, Expr.readSequence]
  refine map_step (ih.primary closers atoms) fun first => ?_
  exact map_step (ih.expression closers 0 first.expr first.rest) fun read => ih.stray closers read.expr read.rest

end

/-- One more unit of fuel changes nothing but marks. -/
theorem Unmarks.succ (ih : Unmarks c fuel) : Unmarks c (fuel + 1) where
  whole := unmarks_whole ih
  nested := unmarks_nested ih
  parts := unmarks_parts ih
  atom := unmarks_atom ih
  sequence := unmarks_sequence ih
  stray := unmarks_stray ih
  expression := unmarks_expression ih
  tighter := unmarks_tighter ih
  primary := unmarks_primary ih
  operand := unmarks_operand ih
  symbol := unmarks_symbol ih
  marked := unmarks_marked ih
  number := unmarks_number ih
  mixed := unmarks_mixed ih
  function := unmarks_function ih
  fence := unmarks_fence ih
  closing := unmarks_closing ih
  scripts := unmarks_scripts ih
  attached := unmarks_attached ih
  marks := unmarks_marks ih
  neighbours := unmarks_neighbours ih
  application := unmarks_application ih

theorem Unmarks.zero (c : Catalog) : Unmarks c 0 := by
  constructor
  all_goals
    intros
    rfl

theorem Unmarks.all (c : Catalog) : ∀ fuel, Unmarks c fuel
  | 0 => .zero c
  | fuel + 1 => (Unmarks.all c fuel).succ

end

/-- The marked tree is the tree that is read, with marks. -/
theorem unmarked_ofAtoms (c : Catalog) (atoms : List Atom) : (Marking.ofAtoms c atoms).map unmarked = Expr.ofAtoms c atoms :=
  (Unmarks.all c _).whole atoms

end Formula
