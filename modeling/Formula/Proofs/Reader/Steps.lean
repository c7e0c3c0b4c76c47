import Formula.Proofs.Reader.Pieces
import Formula.Proofs.Reader.Worded

/-!
# The steps of the reader

What a function of the reader gives with one more unit of fuel is told here once.  Where there are several ways through
its text there is an inductive relation with a constructor for each of them: what was asked of the atoms, which functions
were called with what, and what was made of their readings.  What is shown of all readings is shown by cases on these
steps, so that the text of the reader is opened nowhere else for it.
-/

namespace Formula

open Atom Expr Outcome

variable {c : Catalog} {fuel : Nat} {closers : List Closer} {a : Atom} {rest atoms : List Atom} {e e' : Expr}
  {read : Reading}

/-! ### Sequences and atoms on their own -/

theorem of_ofSequence (h : Expr.ofSequence c (fuel + 1) atoms = .ok e) :
    ∃ read, readSequence c fuel [] (unspaced atoms) = .ok read ∧ e = read.expr := by
  simp only [Expr.ofSequence] at h
  obtain ⟨read, hread, h⟩ := bind_eq_ok.mp h
  exact ⟨read, hread, (Except.ok.inj h).symm⟩

/-- A nested sequence is read as a whole one, unless it is empty. -/
inductive NestedStep (c : Catalog) (fuel : Nat) : Option (List Atom) → Expr → Prop
  | none : NestedStep c fuel none missing
  | nil : NestedStep c fuel (some []) missing
  | whole {a : Atom} {rest : List Atom} {e : Expr} : Expr.ofSequence c fuel (a :: rest) = .ok e →
    NestedStep c fuel (some (a :: rest)) e

theorem nestedStep_of_ofNested {field : Option (List Atom)} (h : ofNested c (fuel + 1) field = .ok e) :
    NestedStep c fuel field e := by
  rcases field with _ | _ | ⟨a, rest⟩
  · cases h
    exact .none
  · cases h
    exact .nil
  · exact .whole h

/-- The parts are read one after the other. -/
inductive PartsStep (c : Catalog) (fuel : Nat) : List (List Atom) → List Expr → Prop
  | nil : PartsStep c fuel [] []
  | cons {part : List Atom} {rest : List (List Atom)} {e : Expr} {more : List Expr} : ofNested c fuel (some part) = .ok e →
    ofParts c fuel rest = .ok more → PartsStep c fuel (part :: rest) (e :: more)

theorem partsStep_of_ofParts {parts : List (List Atom)} {items : List Expr} (h : ofParts c (fuel + 1) parts = .ok items) :
    PartsStep c fuel parts items := by
  cases parts with
  | nil =>
    cases h
    exact .nil
  | cons part rest =>
    simp only [ofParts] at h
    obtain ⟨e, he, h⟩ := bind_eq_ok.mp h
    obtain ⟨more, hmore, h⟩ := bind_eq_ok.mp h
    cases h
    exact .cons he hmore

/-- How an atom on its own is read. -/
inductive AtomStep (c : Catalog) (fuel : Nat) (a : Atom) : Expr → Prop
  | fraction {numerator denominator : Expr} : a.type = .fraction →
    Expr.ofSequence c fuel (a.numerator.getD []) = .ok numerator →
    Expr.ofSequence c fuel (a.denominator.getD []) = .ok denominator → AtomStep c fuel a (quotient numerator denominator)
  | squareRoot {radicand index : Expr} : a.type = .radical → Expr.ofSequence c fuel (a.body.getD []) = .ok radicand →
    Expr.ofSequence c fuel (a.index.getD []) = .ok index → index.isMissing = true → AtomStep c fuel a (squareRoot radicand)
  | root {radicand index : Expr} : a.type = .radical → Expr.ofSequence c fuel (a.body.getD []) = .ok radicand →
    Expr.ofSequence c fuel (a.index.getD []) = .ok index → index.isMissing = false →
    AtomStep c fuel a (apply "pow" (tuple [radicand, quotient (ofNumber (.int 1)) index]))
  | font {e : Expr} : a.type = .font → a.inFont = .ok e → AtomStep c fuel a e
  | text {e : Expr} : a.type = .text → a.asText = .ok e → AtomStep c fuel a e
  | symbol {e : Expr} : a.type ∈ [.ordinary, .textual] → a.symbol c = .ok e → AtomStep c fuel a e
  | other : a.type ∉ [.fraction, .radical, .font, .text, .ordinary, .textual] → AtomStep c fuel a missing

theorem atomStep_of_ofAtom (h : ofAtom c (fuel + 1) a = .ok e) : AtomStep c fuel a e := by
  simp only [ofAtom] at h
  split at h
  · rename_i ht
    obtain ⟨numerator, hn, h⟩ := bind_eq_ok.mp h
    obtain ⟨denominator, hd, h⟩ := bind_eq_ok.mp h
    cases h
    exact .fraction ht hn hd
  · rename_i ht
    obtain ⟨radicand, hr, h⟩ := bind_eq_ok.mp h
    obtain ⟨index, hi, h⟩ := bind_eq_ok.mp h
    split at h
    · cases h
      exact .squareRoot ht hr hi ‹_›
    · cases h
      exact .root ht hr hi (Bool.eq_false_iff.mpr ‹_›)
  · exact .font ‹_› h
  · exact .text ‹_› h
  · exact .symbol (by simp [*]) h
  · exact .symbol (by simp [*]) h
  · cases h
    exact .other (by simp_all)

/-! ### Scripts and marks -/

theorem of_attachScripts (h : attachScripts c (fuel + 1) a e = .ok e') : ∃ sup sub,
    ofNested c fuel a.superscript = .ok sup ∧ ofNested c fuel a.subscript = .ok sub ∧ e' = e.attach sup sub := by
  simp only [attachScripts] at h
  obtain ⟨sup, hsup, h⟩ := bind_eq_ok.mp h
  obtain ⟨sub, hsub, h⟩ := bind_eq_ok.mp h
  exact ⟨sup, sub, hsup, hsub, (Except.ok.inj h).symm⟩

/-- Without scripts of its own an expression gets those of a placeholder behind it. -/
theorem of_readScripts_none (h : readScripts c (fuel + 1) none e atoms = .ok read) : read = ⟨atoms, e⟩ ∨
    ∃ a rest, atoms = a :: rest ∧ a.isPlaceholder = true ∧ readScripts c fuel (some a) e rest = .ok read := by
  simp only [readScripts, pure_bind] at h
  cases atoms with
  | nil =>
    cases h
    exact .inl rfl
  | cons a rest =>
    dsimp only at h
    split at h
    · rename_i hplaceholder
      exact .inr ⟨a, rest, rfl, (Bool.and_eq_true_iff.mp hplaceholder).1, h⟩
    · cases h
      exact .inl rfl

/-- Scripts of its own change the expression alone; behind them a placeholder is read with its scripts. -/
theorem of_readScripts {own : Option Atom} (h : readScripts c (fuel + 1) own e atoms = .ok read) : ∃ e',
    ((e' = e ∧ ∀ a ∈ own, a.hasScripts = false) ∨ ∃ a, own = some a ∧ attachScripts c fuel a e = .ok e') ∧
      (read = ⟨atoms, e'⟩ ∨ ∃ a rest, atoms = a :: rest ∧ a.isPlaceholder = true ∧
        readScripts c fuel (some a) e' rest = .ok read) := by
  cases own with
  | none => exact ⟨e, .inl ⟨rfl, fun a ha => by cases ha⟩, of_readScripts_none h⟩
  | some a =>
    have hbehind := fun e' => @of_readScripts_none c fuel atoms e' read
    simp only [readScripts, pure_bind] at hbehind h
    split at h
    · obtain ⟨e', he', h⟩ := bind_eq_ok.mp h
      exact ⟨e', .inr ⟨a, rfl, he'⟩, hbehind e' h⟩
    · rename_i hbare
      refine ⟨e, .inl ⟨rfl, ?_⟩, hbehind e h⟩
      rintro _ ⟨⟩
      exact Bool.eq_false_iff.mpr hbare

/-- Behind an expression scripts are read, and then postfix marks. -/
def ReadsBehind (c : Catalog) (fuel : Nat) (own : Option Atom) (e : Expr) (atoms : List Atom) (read : Reading) : Prop :=
  ∃ scripted, readScripts c fuel own e atoms = .ok scripted ∧ readPostfix c fuel scripted.expr scripted.rest = .ok read

/-- A postfix mark is one atom or two, and has scripts and marks behind it. -/
inductive MarksStep (c : Catalog) (fuel : Nat) (e : Expr) : List Atom → Reading → Prop
  | none {atoms : List Atom} : MarksStep c fuel e atoms ⟨atoms, e⟩
  | digraph {a b : Atom} {rest : List Atom} {name : String} {read : Reading} :
    startsWithDigraph? Glyph.postfixDigraphs (a :: b :: rest) = .ok (some name) →
    ReadsBehind c fuel (some b) (apply name e) rest read → MarksStep c fuel e (a :: b :: rest) read
  | mark {a : Atom} {rest : List Atom} {name : String} {read : Reading} : a.postfixFunction? = .ok (some name) →
    ReadsBehind c fuel (some a) (apply name e) rest read → MarksStep c fuel e (a :: rest) read

theorem marksStep_of_readPostfix (h : readPostfix c (fuel + 1) e atoms = .ok read) : MarksStep c fuel e atoms read := by
  cases atoms with
  | nil =>
    cases h
    exact .none
  | cons a rest =>
    simp only [readPostfix] at h
    obtain ⟨_ | name, hfound, h⟩ := bind_eq_ok.mp h
    · obtain ⟨_ | name, hmark, h⟩ := bind_eq_ok.mp h
      · cases h
        exact .none
      · exact .mark hmark (bind_eq_ok.mp h)
    · obtain ⟨_, b, behind, heq, -, -⟩ := digraph_of_startsWithDigraph? hfound
      obtain ⟨rfl, rfl⟩ := List.cons.inj heq
      exact .digraph hfound (bind_eq_ok.mp h)

/-! ### Operands -/

theorem of_readMarked (h : readMarked c (fuel + 1) a rest = .ok read) :
    ∃ e, ofAtom c fuel a = .ok e ∧ ReadsBehind c fuel (some a) e rest read := by
  simp only [readMarked] at h
  obtain ⟨e, he, h⟩ := bind_eq_ok.mp h
  exact ⟨e, he, bind_eq_ok.mp h⟩

/-- A symbol is an operand.  An operator is left where it is, any other atom is an error. -/
inductive SymbolStep (c : Catalog) (fuel : Nat) (a : Atom) (rest : List Atom) : Reading → Prop
  | operator {p : Int} : a.precedence c = .ok (some p) → SymbolStep c fuel a rest ⟨a :: rest, missing⟩
  | symbol {read : Reading} : a.precedence c = .ok none → a.type ∈ [.ordinary, .textual] →
    readMarked c fuel a rest = .ok read → SymbolStep c fuel a rest read
  | unexpected {u : Expr} : a.precedence c = .ok none → a.type ∉ [.ordinary, .textual] → a.unexpected = .ok u →
    SymbolStep c fuel a rest ⟨rest, u⟩

theorem symbolStep_of_readSymbol (h : readSymbol c (fuel + 1) a rest = .ok read) : SymbolStep c fuel a rest read := by
  simp only [readSymbol] at h
  obtain ⟨_ | p, hp, h⟩ := bind_eq_ok.mp h
  · dsimp only at h
    split at h
    · rename_i ht
      exact .symbol hp (by simpa using ht) h
    · rename_i ht
      obtain ⟨u, hu, h⟩ := bind_eq_ok.mp h
      cases h
      exact .unexpected hp (by simpa using ht) hu
  · cases h
    exact .operator hp

/-- A mixed number is a fraction behind a numeral without scripts, which keeps scripts and marks of its own. -/
theorem of_readMixed {literal : Expr} {numeral : NumeralReading}
    (h : readMixed c (fuel + 1) literal numeral = .ok (some read)) : ∃ following rest fraction behind,
      numeral.rest = following :: rest ∧ following.type = .fraction ∧ (numeral.last.map hasScripts).getD false = false ∧
      ofAtom c fuel following = .ok fraction ∧ ReadsBehind c fuel (some following) fraction rest behind ∧
      read = ⟨behind.rest, between "+" literal behind.expr⟩ := by
  simp only [readMixed] at h
  split at h
  · cases h
  · rename_i following rest hrest
    split at h
    · rename_i hmixed
      obtain ⟨ht, hbare⟩ := hmixed
      obtain ⟨fraction, hfraction, h⟩ := bind_eq_ok.mp h
      obtain ⟨_ | _, -, h⟩ := bind_eq_ok.mp h
      · cases h
      · obtain ⟨scripted, hscripts, h⟩ := bind_eq_ok.mp h
        obtain ⟨behind, hmarks, h⟩ := bind_eq_ok.mp h
        cases h
        exact ⟨following, rest, fraction, behind, hrest, ht, by simpa using hbare, hfraction, ⟨scripted, hscripts, hmarks⟩, rfl⟩
    · cases h

/-- What starts like a number is a numeral, up to its last atom, or a symbol if it has no digit. -/
inductive NumberStep (c : Catalog) (fuel : Nat) (a : Atom) (rest : List Atom) : Reading → Prop
  | symbol {read : Reading} : readMarked c fuel a rest = .ok read → NumberStep c fuel a rest read
  | mixed {numeral : NumeralReading} {last : Atom} {literal : Expr} {read : Reading} :
    scanNumeral (a :: rest) = .ok numeral → numeral.last = some last → last :: numeral.rest <:+ a :: rest →
    literalOf numeral.chars = .ok literal → readMixed c fuel literal numeral = .ok (some read) →
    NumberStep c fuel a rest read
  | plain {numeral : NumeralReading} {last : Atom} {literal : Expr} {read : Reading} :
    scanNumeral (a :: rest) = .ok numeral → numeral.last = some last → last :: numeral.rest <:+ a :: rest →
    literalOf numeral.chars = .ok literal → ReadsBehind c fuel (some last) literal numeral.rest read →
    NumberStep c fuel a rest read

theorem numberStep_of_readNumber (h : readNumber c (fuel + 1) a rest = .ok read) : NumberStep c fuel a rest read := by
  simp only [readNumber] at h
  obtain ⟨numeral, hscan, h⟩ := bind_eq_ok.mp h
  split at h
  · exact .symbol h
  · rename_i hdigit
    obtain ⟨last, hlast, hsuffix⟩ := scanNumeral_last hscan (by simpa using hdigit)
    obtain ⟨literal, hliteral, h⟩ := bind_eq_ok.mp h
    obtain ⟨_ | read', hmixed, h⟩ := bind_eq_ok.mp h
    · dsimp only at h
      rw [hlast] at h
      exact .plain hscan hlast hsuffix hliteral (bind_eq_ok.mp h)
    · cases h
      exact .mixed hscan hlast hsuffix hliteral hmixed

/-- A function is applied to the primary behind its scripts; what is no call with its scripts is multiplied by it. -/
inductive FunctionStep (c : Catalog) (fuel : Nat) (closers : List Closer) (a : Atom) (rest : List Atom) : Reading → Prop
  | call {name name' fence : Datum} {head argument : Reading} {x s t e : Expr} : a.name c = .ok name →
    readScripts c fuel (some a) (apply name missing) rest = .ok head → readPrimary c fuel closers head.rest = .ok argument →
    head.expr = call name' x fence s t → applyInverse (call name' argument.expr fence s t) = .ok e →
    FunctionStep c fuel closers a rest ⟨argument.rest, e⟩
  | product {name : Datum} {head argument : Reading} : a.name c = .ok name →
    readScripts c fuel (some a) (apply name missing) rest = .ok head → readPrimary c fuel closers head.rest = .ok argument →
    FunctionStep c fuel closers a rest ⟨argument.rest, juxtapose head.expr argument.expr⟩

theorem functionStep_of_readFunction (h : readFunction c (fuel + 1) closers a rest = .ok read) :
    FunctionStep c fuel closers a rest read := by
  simp only [readFunction] at h
  obtain ⟨name, hname, h⟩ := bind_eq_ok.mp h
  obtain ⟨head, hhead, h⟩ := bind_eq_ok.mp h
  obtain ⟨argument, hargument, h⟩ := bind_eq_ok.mp h
  split at h
  · obtain ⟨e, he, h⟩ := bind_eq_ok.mp h
    cases h
    exact .call hname hhead hargument ‹_› he
  · cases h
    exact .product hname hhead hargument

/-- A fence is closed by the atom in front, which has scripts, or by nothing. -/
inductive ClosingStep (c : Catalog) (fuel : Nat) (left : Datum) (closer : Closer) (inner : Expr) :
    List Atom → Reading → Prop
  | unclosed {atoms : List Atom} {e : Expr} {read : Reading} :
    delimited left (.text (closer.glyph.getD "")) inner = .ok e → readScripts c fuel none e atoms = .ok read →
    (∀ a ∈ atoms.head?, a.closes closer = .ok false) → ClosingStep c fuel left closer inner atoms read
  | closed {a : Atom} {rest : List Atom} {right : Datum} {e : Expr} {read : Reading} : a.closes closer = .ok true →
    delimited left right inner = .ok e → readScripts c fuel (some a) e rest = .ok read →
    ClosingStep c fuel left closer inner (a :: rest) read

theorem closingStep_of_readClosing {left : Datum} {closer : Closer} {inner : Expr}
    (h : readClosing c (fuel + 1) left closer inner atoms = .ok read) : ClosingStep c fuel left closer inner atoms read := by
  cases atoms with
  | nil =>
    simp only [readClosing] at h
    obtain ⟨e, he, h⟩ := bind_eq_ok.mp h
    exact .unclosed he h fun a ha => by cases ha
  | cons a rest =>
    simp only [readClosing] at h
    obtain ⟨_ | _, hcloses, h⟩ := bind_eq_ok.mp h
    · obtain ⟨e, he, h⟩ := bind_eq_ok.mp h
      exact .unclosed he h fun b hb => by cases hb; exact hcloses
    · obtain ⟨right, -, h⟩ := bind_eq_ok.mp h
      obtain ⟨e, he, h⟩ := bind_eq_ok.mp h
      exact .closed hcloses he h

/-- A fence is one atom, or it goes from an opener to what closes it; an atom that opens nothing is a symbol. -/
inductive FenceStep (c : Catalog) (fuel : Nat) (closers : List Closer) (a : Atom) (rest : List Atom) : Reading → Prop
  | fenced {left right : Datum} {inner e : Expr} {read : Reading} : a.type = .fenced → ofNested c fuel a.body = .ok inner →
    delimited left right inner = .ok e → ReadsBehind c fuel (some a) e rest read → FenceStep c fuel closers a rest read
  | symbol {read : Reading} : a.type ≠ .fenced → a.opener? = .ok none → readSymbol c fuel a rest = .ok read →
    FenceStep c fuel closers a rest read
  | opened {left : Datum} {closer : Closer} {inner closed read : Reading} : a.opener? = .ok (some (left, closer)) →
    readSequence c fuel (closers ++ [closer]) rest = .ok inner →
    readClosing c fuel left closer inner.expr inner.rest = .ok closed → readPostfix c fuel closed.expr closed.rest = .ok read →
    FenceStep c fuel closers a rest read

theorem fenceStep_of_readFence (h : readFence c (fuel + 1) closers a rest = .ok read) :
    FenceStep c fuel closers a rest read := by
  simp only [readFence] at h
  split at h
  · obtain ⟨inner, hinner, h⟩ := bind_eq_ok.mp h
    obtain ⟨e, he, h⟩ := bind_eq_ok.mp h
    exact .fenced ‹_› hinner he (bind_eq_ok.mp h)
  · obtain ⟨_ | ⟨left, closer⟩, hopener, h⟩ := bind_eq_ok.mp h
    · exact .symbol ‹_› hopener h
    · obtain ⟨inner, hinner, h⟩ := bind_eq_ok.mp h
      obtain ⟨closed, hclosed, h⟩ := bind_eq_ok.mp h
      exact .opened hopener hinner hclosed h

/-- What an operand starts with tells how it is read. -/
inductive OperandStep (c : Catalog) (fuel : Nat) (closers : List Closer) (a : Atom) : List Atom → Reading → Prop
  | digraph {b : Atom} {rest : List Atom} {name : String} {read : Reading} :
    startsWithDigraph? Glyph.prefixDigraphs (a :: b :: rest) = .ok (some name) →
    readPrimary c fuel closers rest = .ok read → OperandStep c fuel closers a (b :: rest) ⟨read.rest, apply name read.expr⟩
  | sign {rest : List Atom} {sign : String} {read : Reading} : a.sign? c = .ok (some sign) →
    readPrimary c fuel closers rest = .ok read → OperandStep c fuel closers a rest ⟨read.rest, withSign sign read.expr⟩
  | placeholder {rest : List Atom} {read : Reading} : a.isPlaceholder = true →
    readScripts c fuel (some a) (unreadable "" "sub/superscript without a base") rest = .ok read →
    OperandStep c fuel closers a rest read
  | number {rest : List Atom} {read : Reading} : startsNumber (a :: rest) = .ok true → readNumber c fuel a rest = .ok read →
    OperandStep c fuel closers a rest read
  | marked {rest : List Atom} {read : Reading} : a.type ∈ [.fraction, .radical, .font, .text] →
    readMarked c fuel a rest = .ok read → OperandStep c fuel closers a rest read
  | fence {rest : List Atom} {read : Reading} : a.type ∈ [.fenced, .opening, .textual, .sized] →
    readFence c fuel closers a rest = .ok read → OperandStep c fuel closers a rest read
  | function {rest : List Atom} {read : Reading} : a.type ∈ [.operator, .ordinary, .textual] → a.isFunction c = .ok true →
    readFunction c fuel closers a rest = .ok read → OperandStep c fuel closers a rest read
  | symbol {rest : List Atom} {read : Reading} : a.type ∉ [.fraction, .radical, .font, .text, .fenced] →
    (a.type = .operator → a.isFunction c = .ok false) → a.opener? = .ok none → readSymbol c fuel a rest = .ok read →
    OperandStep c fuel closers a rest read

theorem operandStep_of_readOperand (h : readOperand c (fuel + 1) closers a rest = .ok read) :
    OperandStep c fuel closers a rest read := by
  simp only [readOperand] at h
  obtain ⟨_ | name, hfound, h⟩ := bind_eq_ok.mp h
  · obtain ⟨_ | sign, hsign, h⟩ := bind_eq_ok.mp h
    · dsimp only at h
      split at h
      · exact .placeholder ‹_› h
      obtain ⟨_ | _, hstarts, h⟩ := bind_eq_ok.mp h
      · simp only [Bool.false_eq_true, if_false] at h
        split at h
        case h_1 | h_2 | h_3 | h_4 => exact .marked (by simp [*]) h
        case h_5 | h_6 | h_7 => exact .fence (by simp [*]) h
        case h_8 | h_9 =>
          obtain ⟨_ | _, hf, h⟩ := bind_eq_ok.mp h
          · exact .symbol (by simp [*]) (fun _ => hf) (opener?_of_type (by simp [*])) h
          · exact .function (by simp [*]) hf h
        case h_10 =>
          obtain ⟨_ | _, hf, h⟩ := bind_eq_ok.mp h
          · obtain ⟨_ | _, hopener, h⟩ := bind_eq_ok.mp h
            · exact .symbol (by simp [*]) (fun _ => hf) hopener h
            · exact .fence (by simp [*]) h
          · exact .function (by simp [*]) hf h
        case h_11 => exact .symbol (by simp_all) (fun ht => by simp_all) (opener?_of_type (by simp_all)) h
      · exact .number hstarts h
    · obtain ⟨read', hread, h⟩ := bind_eq_ok.mp h
      cases h
      exact .sign hsign hread
  · obtain ⟨_, b, behind, heq, -, -⟩ := digraph_of_startsWithDigraph? hfound
    obtain ⟨rfl, rfl⟩ := List.cons.inj heq
    obtain ⟨read', hread, h⟩ := bind_eq_ok.mp h
    cases h
    exact .digraph hfound hread

/-! ### What stands around an operand -/

/-- The arguments of a call stand between commas, and the call has the scripts and marks behind them. -/
theorem of_readCall (h : readCall c (fuel + 1) e atoms = .ok (some read)) :
    ∃ (name variant : Datum) (s t : Expr) (inner : List Atom) (last : Atom) (rest : List Atom) (parts : List (List Atom))
      (items : List Expr), e = symbol name variant s t ∧ callName? e = .ok true ∧
      callArguments? atoms = .ok (some (inner, last, rest)) ∧ splitAtCommas 0 [] inner = .ok parts ∧
      ofParts c fuel parts = .ok items ∧
      ReadsBehind c fuel (some last) (call name (argumentsOf items) parentheses s t) rest read := by
  simp only [readCall] at h
  obtain ⟨_ | _, hname, h⟩ := bind_eq_ok.mp h
  · cases h
  · obtain ⟨found, hfound, h⟩ := bind_eq_ok.mp h
    split at h
    · obtain ⟨parts, hparts, h⟩ := bind_eq_ok.mp h
      obtain ⟨items, hitems, h⟩ := bind_eq_ok.mp h
      obtain ⟨scripted, hscripts, h⟩ := bind_eq_ok.mp h
      obtain ⟨read', hmarks, h⟩ := bind_eq_ok.mp h
      cases h
      exact ⟨_, _, _, _, _, _, _, _, _, rfl, hname, hfound, hparts, hitems, scripted, hscripts, hmarks⟩
    · cases h

/-- The operands behind an expression multiply it, unless they are the arguments of a call. -/
inductive NeighboursStep (c : Catalog) (fuel : Nat) (closers : List Closer) (e : Expr) : List Atom → Reading → Prop
  | none {atoms : List Atom} : NeighboursStep c fuel closers e atoms ⟨atoms, e⟩
  | call {a : Atom} {rest : List Atom} {called read : Reading} : a.startsOperand c closers = .ok true →
    readCall c fuel e (a :: rest) = .ok (some called) →
    readNeighbours c fuel closers called.expr called.rest = .ok read → NeighboursStep c fuel closers e (a :: rest) read
  | stopped {a : Atom} {rest : List Atom} {operand : Reading} : a.startsOperand c closers = .ok true →
    readOperand c fuel closers a rest = .ok operand →
    (operand.expr.isMissing || decide (operand.rest.length = (a :: rest).length)) = true →
    NeighboursStep c fuel closers e (a :: rest) ⟨operand.rest, e⟩
  | product {a : Atom} {rest : List Atom} {operand read : Reading} : a.startsOperand c closers = .ok true →
    readOperand c fuel closers a rest = .ok operand → operand.expr.isMissing = false →
    readNeighbours c fuel closers (between "*" e operand.expr) operand.rest = .ok read →
    NeighboursStep c fuel closers e (a :: rest) read

theorem neighboursStep_of_readNeighbours (h : readNeighbours c (fuel + 1) closers e atoms = .ok read) :
    NeighboursStep c fuel closers e atoms read := by
  cases atoms with
  | nil =>
    cases h
    exact .none
  | cons a rest =>
    simp only [readNeighbours] at h
    obtain ⟨_ | _, hstarts, h⟩ := bind_eq_ok.mp h
    · cases h
      exact .none
    · obtain ⟨_ | called, hcall, h⟩ := bind_eq_ok.mp h
      · obtain ⟨operand, hoperand, h⟩ := bind_eq_ok.mp h
        split at h
        · cases h
          exact .stopped hstarts hoperand ‹_›
        · rename_i hread
          rw [Bool.not_eq_true, Bool.or_eq_false_iff] at hread
          exact .product hstarts hoperand hread.1 h
      · exact .call hstarts hcall h

/-- A primary is an operand with its neighbours.  There is none where an atom closes a fence, or starts no operand. -/
inductive PrimaryStep (c : Catalog) (fuel : Nat) (closers : List Closer) : List Atom → Reading → Prop
  | nil : PrimaryStep c fuel closers [] ⟨[], missing⟩
  | closed {a : Atom} {rest : List Atom} : a.closesAny closers = .ok true →
    PrimaryStep c fuel closers (a :: rest) ⟨a :: rest, missing⟩
  | none {a : Atom} {rest : List Atom} {read : Reading} : a.closesAny closers = .ok false →
    readOperand c fuel closers a rest = .ok read → read.expr.isMissing = true → PrimaryStep c fuel closers (a :: rest) read
  | operand {a : Atom} {rest : List Atom} {operand read : Reading} : a.closesAny closers = .ok false →
    readOperand c fuel closers a rest = .ok operand → operand.expr.isMissing = false →
    readNeighbours c fuel closers operand.expr operand.rest = .ok read → PrimaryStep c fuel closers (a :: rest) read

theorem primaryStep_of_readPrimary (h : readPrimary c (fuel + 1) closers atoms = .ok read) :
    PrimaryStep c fuel closers atoms read := by
  cases atoms with
  | nil =>
    cases h
    exact .nil
  | cons a rest =>
    simp only [readPrimary] at h
    obtain ⟨_ | _, hclosed, h⟩ := bind_eq_ok.mp h
    · obtain ⟨operand, hoperand, h⟩ := bind_eq_ok.mp h
      split at h
      · cases h
        exact .none hclosed hoperand ‹_›
      · exact .operand hclosed hoperand (Bool.eq_false_iff.mpr ‹_›) h
    · cases h
      exact .closed hclosed

/-! ### Operators and rows -/

/-- An operator that binds tightly enough makes a node of what stands before it and its right operand. -/
inductive ExpressionStep (c : Catalog) (fuel : Nat) (closers : List Closer) (least : Int) (left : Expr) :
    List Atom → Reading → Prop
  | none {atoms : List Atom} : ExpressionStep c fuel closers least left atoms ⟨atoms, left⟩
  | operator {a : Atom} {rest : List Atom} {p : Int} {op : Datum} {first right read : Reading} :
    a.precedence c = .ok (some p) → least ≤ p → a.name c = .ok op → readPrimary c fuel closers rest = .ok first →
    readTighter c fuel closers p first.expr first.rest = .ok right →
    readExpression c fuel closers least (between op left right.expr) right.rest = .ok read →
    ExpressionStep c fuel closers least left (a :: rest) read

theorem expressionStep_of_readExpression {least : Int} {left : Expr}
    (h : readExpression c (fuel + 1) closers least left atoms = .ok read) :
    ExpressionStep c fuel closers least left atoms read := by
  cases atoms with
  | nil =>
    cases h
    exact .none
  | cons a rest =>
    simp only [readExpression] at h
    obtain ⟨_ | p, hp, h⟩ := bind_eq_ok.mp h
    · cases h
      exact .none
    · dsimp only at h
      split at h
      · cases h
        exact .none
      · obtain ⟨op, hop, h⟩ := bind_eq_ok.mp h
        obtain ⟨first, hfirst, h⟩ := bind_eq_ok.mp h
        obtain ⟨right, hright, h⟩ := bind_eq_ok.mp h
        exact .operator hp (Int.not_lt.mp ‹_›) hop hfirst hright h

/-- A tighter operator behind a right operand takes it as its left one. -/
inductive TighterStep (c : Catalog) (fuel : Nat) (closers : List Closer) (precedence : Int) (right : Expr)
    (atoms : List Atom) : Reading → Prop
  | none : TighterStep c fuel closers precedence right atoms ⟨atoms, right⟩
  | tighter {next : Int} {operand read : Reading} : operator? c atoms = .ok (some next) → precedence < next →
    readExpression c fuel closers next right atoms = .ok operand →
    readTighter c fuel closers precedence operand.expr operand.rest = .ok read →
    TighterStep c fuel closers precedence right atoms read

theorem tighterStep_of_readTighter {precedence : Int} {right : Expr}
    (h : readTighter c (fuel + 1) closers precedence right atoms = .ok read) :
    TighterStep c fuel closers precedence right atoms read := by
  simp only [readTighter] at h
  obtain ⟨_ | next, hnext, h⟩ := bind_eq_ok.mp h
  · cases h
    exact .none
  · dsimp only at h
    split at h
    · cases h
      exact .none
    · obtain ⟨operand, hoperand, h⟩ := bind_eq_ok.mp h
      exact .tighter hnext (Int.not_le.mp ‹_›) hoperand h

/-- One round of the loop behind an expression: a primary, or the atom as an error, with the operators behind it. -/
def strayStep (c : Catalog) (fuel : Nat) (closers : List Closer) (a : Atom) (rest : List Atom) : Outcome Reading := do
  let read ← readPrimary c fuel closers (a :: rest)
  let first : Reading ←
    if read.rest.length = (a :: rest).length then a.unexpected.map fun u => ⟨rest, u⟩ else pure read
  readExpression c fuel closers 0 first.expr first.rest

/-- The loop goes round until an atom closes a fence. -/
theorem readStray_cons (c : Catalog) (fuel : Nat) (closers : List Closer) (e : Expr) (a : Atom) (rest : List Atom) :
    readStray c (fuel + 1) closers e (a :: rest) = (do
      if ← a.closesAny closers then return ⟨a :: rest, e⟩
      let read ← strayStep c fuel closers a rest
      readStray c fuel closers (juxtapose e read.expr) read.rest) := by
  simp only [readStray, strayStep, bind_assoc]
  refine bind_congr fun closed => ?_
  split
  · rfl
  · refine bind_congr fun read => ?_
    split
    · simp only [bind_assoc]
    · simp only [pure_bind]

/-- A round starts with a primary; where that reads nothing, the atom is an error. -/
inductive RoundStep (c : Catalog) (fuel : Nat) (closers : List Closer) (a : Atom) (rest : List Atom) : Reading → Prop
  | primary {first read : Reading} : readPrimary c fuel closers (a :: rest) = .ok first →
    first.rest.length ≠ (a :: rest).length → readExpression c fuel closers 0 first.expr first.rest = .ok read →
    RoundStep c fuel closers a rest read
  | unexpected {first read : Reading} {u : Expr} : readPrimary c fuel closers (a :: rest) = .ok first →
    first.rest.length = (a :: rest).length → a.unexpected = .ok u → readExpression c fuel closers 0 u rest = .ok read →
    RoundStep c fuel closers a rest read

theorem roundStep_of_strayStep (h : strayStep c fuel closers a rest = .ok read) : RoundStep c fuel closers a rest read := by
  unfold strayStep at h
  obtain ⟨primary, hprimary, h⟩ := bind_eq_ok.mp h
  split at h
  · obtain ⟨first, hfirst, h⟩ := bind_eq_ok.mp h
    obtain ⟨u, hu, rfl⟩ := map_eq_ok.mp hfirst
    exact .unexpected hprimary ‹_› hu h
  · exact .primary hprimary ‹_› h

/-- The loop ends with the row or at an atom that closes a fence, or it goes round once more. -/
inductive LoopStep (c : Catalog) (fuel : Nat) (closers : List Closer) (e : Expr) : List Atom → Reading → Prop
  | nil : LoopStep c fuel closers e [] ⟨[], e⟩
  | closed {a : Atom} {rest : List Atom} : a.closesAny closers = .ok true →
    LoopStep c fuel closers e (a :: rest) ⟨a :: rest, e⟩
  | round {a : Atom} {rest : List Atom} {round read : Reading} : a.closesAny closers = .ok false →
    strayStep c fuel closers a rest = .ok round →
    readStray c fuel closers (juxtapose e round.expr) round.rest = .ok read → LoopStep c fuel closers e (a :: rest) read

theorem loopStep_of_readStray (h : readStray c (fuel + 1) closers e atoms = .ok read) :
    LoopStep c fuel closers e atoms read := by
  cases atoms with
  | nil =>
    cases h
    exact .nil
  | cons a rest =>
    rw [readStray_cons] at h
    obtain ⟨_ | _, hclosed, h⟩ := bind_eq_ok.mp h
    · obtain ⟨round, hround, h⟩ := bind_eq_ok.mp h
      exact .round hclosed hround h
    · cases h
      exact .closed hclosed

theorem of_readSequence (h : readSequence c (fuel + 1) closers atoms = .ok read) : ∃ first behind,
    readPrimary c fuel closers atoms = .ok first ∧ readExpression c fuel closers 0 first.expr first.rest = .ok behind ∧
      readStray c fuel closers behind.expr behind.rest = .ok read := by
  simp only [readSequence] at h
  obtain ⟨first, hfirst, h⟩ := bind_eq_ok.mp h
  obtain ⟨behind, hbehind, h⟩ := bind_eq_ok.mp h
  exact ⟨first, behind, hfirst, hbehind, h⟩

end Formula
