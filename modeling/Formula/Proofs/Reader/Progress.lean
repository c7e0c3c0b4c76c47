import Formula.Proofs.Reader.Halting
import Formula.Proofs.Reader.Steps

/-!
# The reader moves forward

A place of a row is what is left of the row from there on, so that a reading moves forward if it leaves an end of what it
was given.  `Forward` says for every function of the reader how far it moves: it never goes back, it gives no expression
only where it stays, and a sequence is left at its end or at an atom that closes an open fence.  What makes this true of
operators of every precedence is that the loop behind an expression which sees an atom refused takes the atom itself
(`strayStep`).

`Forward` holds of a reader that has run out of fuel, and one more unit of fuel keeps it: there is one lemma for every
function, by cases on its steps.
-/

namespace Formula

open Atom Expr Outcome

/-! ### How far a function reads -/

/-- The row is at its end, or at an atom that closes one of the fences. -/
def StopsAt (closers : List Closer) (row : List Atom) : Prop :=
  row = [] ∨ ∃ a rest, row = a :: rest ∧ a.closesAny closers = .ok true

/-- The reading goes on behind `e`.  It gives an expression if there was one, or if it went on at all. -/
structure Continues (e : Expr) (atoms : List Atom) (read : Reading) : Prop where
  rest : read.rest <:+ atoms
  found : read.expr.isMissing = true → e.isMissing = true ∧ read.rest = atoms

/-- The reading goes on behind `e`, and gives an expression if there was one. -/
structure Keeps (e : Expr) (atoms : List Atom) (read : Reading) : Prop where
  rest : read.rest <:+ atoms
  found : e.isMissing = false → read.expr.isMissing = false

/-- The atom was read and gave an expression, or it is an operator and nothing was read. -/
def ReadsOperand (c : Catalog) (a : Atom) (rest : List Atom) (read : Reading) : Prop :=
  (read.rest <:+ rest ∧ read.expr.isMissing = false) ∨
    (read = ⟨a :: rest, missing⟩ ∧ ∃ p, a.precedence c = .ok (some p))

/-- An atom was read and gave an expression, or nothing was read: there is no atom, or one that closes a fence, or an
operator. -/
def ReadsPrimary (c : Catalog) (closers : List Closer) (atoms : List Atom) (read : Reading) : Prop :=
  (∃ a rest, atoms = a :: rest ∧ read.rest <:+ rest ∧ read.expr.isMissing = false) ∨
    (read = ⟨atoms, missing⟩ ∧
      ∀ a ∈ atoms.head?, a.closesAny closers = .ok true ∨ ∃ p, a.precedence c = .ok (some p))

/-- How far the functions of the reader go with the fuel. -/
structure Forward (c : Catalog) (fuel : Nat) : Prop where
  primary : ∀ {closers atoms read}, readPrimary c fuel closers atoms = .ok read → ReadsPrimary c closers atoms read
  expression : ∀ {closers least left atoms read}, readExpression c fuel closers least left atoms = .ok read →
    Continues left atoms read
  tighter : ∀ {closers precedence right atoms read}, readTighter c fuel closers precedence right atoms = .ok read →
    Continues right atoms read
  stray : ∀ {closers e atoms read}, readStray c fuel closers e atoms = .ok read →
    Continues e atoms read ∧ StopsAt closers read.rest
  sequence : ∀ {closers atoms read}, readSequence c fuel closers atoms = .ok read →
    Continues missing atoms read ∧ StopsAt closers read.rest
  operand : ∀ {closers a rest read}, readOperand c fuel closers a rest = .ok read → ReadsOperand c a rest read
  symbol : ∀ {a rest read}, readSymbol c fuel a rest = .ok read → ReadsOperand c a rest read
  marked : ∀ {a rest read}, readMarked c fuel a rest = .ok read →
    read.rest <:+ rest ∧ (a.type ∈ [.fraction, .radical, .font, .text, .ordinary, .textual] → read.expr.isMissing = false)
  number : ∀ {a rest read}, readNumber c fuel a rest = .ok read →
    read.rest <:+ rest ∧ (a.type = .ordinary → read.expr.isMissing = false)
  mixed : ∀ {literal numeral read}, readMixed c fuel literal numeral = .ok (some read) →
    read.rest <:+ numeral.rest ∧ read.expr.isMissing = false
  function : ∀ {closers a rest read}, readFunction c fuel closers a rest = .ok read →
    read.rest <:+ rest ∧ read.expr.isMissing = false
  fence : ∀ {closers a rest read}, readFence c fuel closers a rest = .ok read → ReadsOperand c a rest read
  closing : ∀ {left closer inner atoms read}, readClosing c fuel left closer inner atoms = .ok read →
    read.rest <:+ atoms ∧ read.expr.isMissing = false
  scripts : ∀ {own e atoms read}, readScripts c fuel own e atoms = .ok read → Keeps e atoms read
  marks : ∀ {e atoms read}, readPostfix c fuel e atoms = .ok read → Keeps e atoms read
  neighbours : ∀ {closers e atoms read}, readNeighbours c fuel closers e atoms = .ok read → Keeps e atoms read
  application : ∀ {e atoms read}, readCall c fuel e atoms = .ok (some read) →
    read.rest <:+ atoms.tail ∧ read.expr.isMissing = false
  atom : ∀ {a e}, ofAtom c fuel a = .ok e →
    a.type ∈ [.fraction, .radical, .font, .text, .ordinary, .textual] → e.isMissing = false
  attached : ∀ {a e e'}, attachScripts c fuel a e = .ok e' → e.isMissing = false → e'.isMissing = false

/-! ### Expressions that are there -/

namespace Expr

theorem isMissing_juxtapose {l r : Expr} (h : (juxtapose l r).isMissing = true) : l.isMissing = true ∧ r.isMissing = true := by
  unfold juxtapose at h
  split at h
  · exact ⟨‹_›, h⟩
  · split at h
    · rename_i hl _
      exact absurd h hl
    · cases h

theorem isMissing_applyInverse {e e' : Expr} (h : applyInverse e = .ok e') : e'.isMissing = false := by
  cases invertsTo_of_applyInverse h with
  | unchanged he => exact he
  | inverse _ _ => rfl

theorem isMissing_delimited {left right : Datum} {e e' : Expr} (h : delimited left right e = .ok e') :
    e'.isMissing = false := by
  obtain ⟨name, -, rfl⟩ | rfl := delimited_eq_ok h
  · rfl
  · rfl

theorem isMissing_literalOf {chars : List Char} {e : Expr} (h : literalOf chars = .ok e) : e.isMissing = false := by
  obtain ⟨x, -, h⟩ := bind_eq_ok.mp h
  cases h
  rfl

/-- What starts a number is an ordinary atom. -/
theorem type_of_startsNumber {a : Atom} {rest : List Atom} (h : startsNumber (a :: rest) = .ok true) :
    a.type = .ordinary := by
  by_cases ht : a.type = .ordinary
  · exact ht
  · rw [startsNumber, isDigit_of_ne_ordinary ht] at h
    simp only [bind, Except.bind, Bool.false_eq_true, if_false, ht] at h
    cases h

end Expr

namespace Atom

theorem isMissing_symbol {c : Catalog} {a : Atom} {e : Expr} (h : a.symbol c = .ok e) : e.isMissing = false := by
  obtain ⟨name, -, h⟩ := bind_eq_ok.mp h
  cases name with
  | text name =>
    dsimp only at h
    split at h
    all_goals
      obtain ⟨name', -, h⟩ := bind_eq_ok.mp h
      obtain ⟨variant, -, h⟩ := bind_eq_ok.mp h
      cases h
      rfl
  | _ => cases h

theorem isMissing_inFont {a : Atom} {e : Expr} (h : a.inFont = .ok e) : e.isMissing = false := by
  obtain ⟨content, -, h⟩ := bind_eq_ok.mp h
  obtain ⟨is, -, h⟩ := bind_eq_ok.mp h
  split at h
  · cases h
    rfl
  · obtain ⟨variant, -, h⟩ := bind_eq_ok.mp h
    cases h
    rfl

theorem isMissing_asText {a : Atom} {e : Expr} (h : a.asText = .ok e) : e.isMissing = false := by
  unfold asText at h
  split at h
  · obtain ⟨content, -, h⟩ := bind_eq_ok.mp h
    cases h
    rfl
  · cases h
    rfl

theorem isMissing_unexpected {a : Atom} {e : Expr} (h : a.unexpected = .ok e) : e.isMissing = false := by
  obtain ⟨text, -, h⟩ := bind_eq_ok.mp h
  cases h
  rfl

end Atom

/-! ### Readings one behind the other -/

theorem Continues.refl (e : Expr) (atoms : List Atom) : Continues e atoms ⟨atoms, e⟩ :=
  ⟨List.suffix_rfl, fun h => ⟨h, rfl⟩⟩

theorem Keeps.refl (e : Expr) (atoms : List Atom) : Keeps e atoms ⟨atoms, e⟩ := ⟨List.suffix_rfl, fun h => h⟩

theorem ReadsPrimary.continues {c : Catalog} {closers : List Closer} {atoms : List Atom} {read : Reading}
    (h : ReadsPrimary c closers atoms read) : Continues missing atoms read := by
  rcases h with ⟨a, rest, rfl, hs, hfound⟩ | ⟨rfl, -⟩
  · exact ⟨hs.trans (List.suffix_cons a rest), fun hm => absurd hm (by simp [hfound])⟩
  · exact .refl missing atoms

theorem Continues.trans {e : Expr} {atoms : List Atom} {read read' : Reading} (h : Continues e atoms read)
    (h' : Continues read.expr read.rest read') : Continues e atoms read' := by
  refine ⟨h'.rest.trans h.rest, fun hm => ?_⟩
  obtain ⟨hm', hrest'⟩ := h'.found hm
  obtain ⟨hm, hrest⟩ := h.found hm'
  exact ⟨hm, hrest'.trans hrest⟩

theorem Keeps.trans {e : Expr} {atoms : List Atom} {read read' : Reading} (h : Keeps e atoms read)
    (h' : Keeps read.expr read.rest read') : Keeps e atoms read' :=
  ⟨h'.rest.trans h.rest, fun hm => h'.found (h.found hm)⟩

/-! ### One function after the other -/

section

variable {c : Catalog} {fuel : Nat} {closers : List Closer} {a : Atom} {rest atoms : List Atom} {e e' : Expr}
  {read : Reading}

theorem forward_atom (h : ofAtom c (fuel + 1) a = .ok e)
    (ht : a.type ∈ [.fraction, .radical, .font, .text, .ordinary, .textual]) : e.isMissing = false := by
  cases atomStep_of_ofAtom h with
  | fraction _ _ _ => rfl
  | squareRoot _ _ _ _ => rfl
  | root _ _ _ _ => rfl
  | font _ h => exact isMissing_inFont h
  | text _ h => exact isMissing_asText h
  | symbol _ h => exact isMissing_symbol h
  | other hno => exact absurd ht hno

theorem forward_attached (h : attachScripts c (fuel + 1) a e = .ok e') (he : e.isMissing = false) :
    e'.isMissing = false := by
  obtain ⟨sup, sub, -, -, rfl⟩ := of_attachScripts h
  exact isMissing_attach he _ _

variable (ih : Forward c fuel)
include ih

theorem forward_scripts {own : Option Atom} (h : readScripts c (fuel + 1) own e atoms = .ok read) : Keeps e atoms read := by
  obtain ⟨e', hown, hread⟩ := of_readScripts h
  have he : e.isMissing = false → e'.isMissing = false := by
    rcases hown with ⟨rfl, -⟩ | ⟨a, -, he'⟩
    · exact fun hm => hm
    · exact ih.attached he'
  rcases hread with rfl | ⟨a, rest, rfl, -, h⟩
  · exact ⟨List.suffix_rfl, he⟩
  · have hkeeps := ih.scripts h
    exact ⟨hkeeps.rest.trans (List.suffix_cons a rest), fun hm => hkeeps.found (he hm)⟩

theorem forward_behind {own : Option Atom} (h : ReadsBehind c fuel own e atoms read) : Keeps e atoms read := by
  obtain ⟨scripted, hscripts, hmarks⟩ := h
  exact (ih.scripts hscripts).trans (ih.marks hmarks)

theorem forward_marks (h : readPostfix c (fuel + 1) e atoms = .ok read) : Keeps e atoms read := by
  -- A mark gives a call, which is there whatever it is applied to.
  cases marksStep_of_readPostfix h with
  | none => exact .refl e atoms
  | @digraph a b rest _ _ _ h =>
    have hkeeps := forward_behind ih h
    exact ⟨hkeeps.rest.trans (List.suffix_append [a, b] rest), fun _ => hkeeps.found rfl⟩
  | @mark a rest _ _ _ h =>
    have hkeeps := forward_behind ih h
    exact ⟨hkeeps.rest.trans (List.suffix_cons a rest), fun _ => hkeeps.found rfl⟩

theorem forward_marked (h : readMarked c (fuel + 1) a rest = .ok read) : read.rest <:+ rest ∧
    (a.type ∈ [.fraction, .radical, .font, .text, .ordinary, .textual] → read.expr.isMissing = false) := by
  obtain ⟨e, he, h⟩ := of_readMarked h
  have hkeeps := forward_behind ih h
  exact ⟨hkeeps.rest, fun ht => hkeeps.found (ih.atom he ht)⟩

theorem forward_symbol (h : readSymbol c (fuel + 1) a rest = .ok read) : ReadsOperand c a rest read := by
  cases symbolStep_of_readSymbol h with
  | operator hp => exact .inr ⟨rfl, _, hp⟩
  | symbol _ ht h =>
    obtain ⟨hrest, hfound⟩ := ih.marked h
    exact .inl ⟨hrest, hfound (List.mem_append_right [AtomType.fraction, .radical, .font, .text] ht)⟩
  | unexpected _ _ hu => exact .inl ⟨List.suffix_rfl, isMissing_unexpected hu⟩

theorem forward_mixed {literal : Expr} {numeral : NumeralReading}
    (h : readMixed c (fuel + 1) literal numeral = .ok (some read)) :
    read.rest <:+ numeral.rest ∧ read.expr.isMissing = false := by
  obtain ⟨following, rest, fraction, behind, hrest, -, -, -, hbehind, rfl⟩ := of_readMixed h
  rw [hrest]
  exact ⟨(forward_behind ih hbehind).rest.trans (List.suffix_cons following rest), rfl⟩

theorem forward_number (h : readNumber c (fuel + 1) a rest = .ok read) :
    read.rest <:+ rest ∧ (a.type = .ordinary → read.expr.isMissing = false) := by
  -- Behind the last atom of a numeral is an end of what is behind its first one.
  have behind : ∀ {last : Atom} {s : List Atom}, last :: s <:+ a :: rest → s <:+ rest := by
    intro last s hs
    rcases List.suffix_cons_iff.mp hs with heq | hs
    · exact (List.cons.inj heq).2 ▸ List.suffix_rfl
    · exact (List.suffix_cons last s).trans hs
  cases numberStep_of_readNumber h with
  | symbol h =>
    obtain ⟨hrest, hfound⟩ := ih.marked h
    exact ⟨hrest, fun ht => hfound (by simp [ht])⟩
  | mixed _ _ hsuffix _ h =>
    obtain ⟨hrest, hfound⟩ := ih.mixed h
    exact ⟨hrest.trans (behind hsuffix), fun _ => hfound⟩
  | plain _ _ hsuffix hliteral h =>
    have hkeeps := forward_behind ih h
    exact ⟨hkeeps.rest.trans (behind hsuffix), fun _ => hkeeps.found (isMissing_literalOf hliteral)⟩

theorem forward_function (h : readFunction c (fuel + 1) closers a rest = .ok read) :
    read.rest <:+ rest ∧ read.expr.isMissing = false := by
  cases functionStep_of_readFunction h with
  | call _ hhead hargument _ he =>
    exact ⟨(ih.primary hargument).continues.rest.trans (ih.scripts hhead).rest, isMissing_applyInverse he⟩
  | @product _ head argument _ hhead hargument =>
    have hkeeps := ih.scripts hhead
    refine ⟨(ih.primary hargument).continues.rest.trans hkeeps.rest, Bool.eq_false_iff.mpr fun hm => ?_⟩
    have hhead := (isMissing_juxtapose hm).1
    rw [hkeeps.found rfl] at hhead
    cases hhead

theorem forward_closing {left : Datum} {closer : Closer} {inner : Expr}
    (h : readClosing c (fuel + 1) left closer inner atoms = .ok read) :
    read.rest <:+ atoms ∧ read.expr.isMissing = false := by
  cases closingStep_of_readClosing h with
  | unclosed he h _ =>
    have hkeeps := ih.scripts h
    exact ⟨hkeeps.rest, hkeeps.found (isMissing_delimited he)⟩
  | @closed a rest _ _ _ _ he h =>
    have hkeeps := ih.scripts h
    exact ⟨hkeeps.rest.trans (List.suffix_cons a rest), hkeeps.found (isMissing_delimited he)⟩

theorem forward_fence (h : readFence c (fuel + 1) closers a rest = .ok read) : ReadsOperand c a rest read := by
  cases fenceStep_of_readFence h with
  | fenced _ _ he h =>
    have hkeeps := forward_behind ih h
    exact .inl ⟨hkeeps.rest, hkeeps.found (isMissing_delimited he)⟩
  | symbol _ _ h => exact ih.symbol h
  | opened _ hinner hclosed h =>
    obtain ⟨hrest, hfound⟩ := ih.closing hclosed
    have hkeeps := ih.marks h
    exact .inl ⟨(hkeeps.rest.trans hrest).trans (ih.sequence hinner).1.rest, hkeeps.found hfound⟩

theorem forward_operand (h : readOperand c (fuel + 1) closers a rest = .ok read) : ReadsOperand c a rest read := by
  cases operandStep_of_readOperand h with
  | @digraph b rest _ _ _ hread => exact .inl ⟨(ih.primary hread).continues.rest.trans (List.suffix_cons b rest), rfl⟩
  | sign _ hread => exact .inl ⟨(ih.primary hread).continues.rest, isMissing_withSign _ _⟩
  | placeholder _ h =>
    have hkeeps := ih.scripts h
    exact .inl ⟨hkeeps.rest, hkeeps.found rfl⟩
  | number hstarts h =>
    obtain ⟨hrest, hfound⟩ := ih.number h
    exact .inl ⟨hrest, hfound (type_of_startsNumber hstarts)⟩
  | marked ht h =>
    obtain ⟨hrest, hfound⟩ := ih.marked h
    exact .inl ⟨hrest, hfound (List.mem_append_left [AtomType.ordinary, .textual] ht)⟩
  | fence _ h => exact ih.fence h
  | function _ _ h => exact .inl (ih.function h)
  | symbol _ _ _ h => exact ih.symbol h

theorem forward_application (h : readCall c (fuel + 1) e atoms = .ok (some read)) :
    read.rest <:+ atoms.tail ∧ read.expr.isMissing = false := by
  obtain ⟨name, variant, s, t, inner, last, rest, parts, items, rfl, -, hfound, -, -, hbehind⟩ := of_readCall h
  have hrest : rest <:+ atoms.tail := by
    rcases callArguments?_eq hfound with ⟨heq, -⟩ | ⟨a, heq⟩
    · rw [heq]
      exact List.suffix_rfl
    · rw [heq]
      exact ⟨inner ++ [last], by simp⟩
  have hkeeps := forward_behind ih hbehind
  exact ⟨hkeeps.rest.trans hrest, hkeeps.found rfl⟩

theorem forward_neighbours (h : readNeighbours c (fuel + 1) closers e atoms = .ok read) : Keeps e atoms read := by
  cases neighboursStep_of_readNeighbours h with
  | none => exact .refl e atoms
  | call _ hcall h =>
    obtain ⟨hs, he⟩ := ih.application hcall
    have hkeeps := ih.neighbours h
    exact ⟨(hkeeps.rest.trans hs).trans (List.tail_suffix _), fun _ => hkeeps.found he⟩
  | @stopped a rest operand _ hoperand _ =>
    rcases ih.operand hoperand with ⟨hs, -⟩ | ⟨rfl, -⟩
    · exact ⟨hs.trans (List.suffix_cons a rest), fun hm => hm⟩
    · exact .refl e _
  | @product a rest operand read _ hoperand hfound h =>
    have hkeeps := ih.neighbours h
    rcases ih.operand hoperand with ⟨hs, -⟩ | ⟨rfl, -⟩
    · exact ⟨(hkeeps.rest.trans hs).trans (List.suffix_cons a rest), fun _ => hkeeps.found rfl⟩
    · cases hfound

theorem forward_primary (h : readPrimary c (fuel + 1) closers atoms = .ok read) : ReadsPrimary c closers atoms read := by
  cases primaryStep_of_readPrimary h with
  | nil => exact .inr ⟨rfl, fun a ha => by cases ha⟩
  | closed hclosed =>
    refine .inr ⟨rfl, ?_⟩
    rintro _ ⟨⟩
    exact .inl hclosed
  | none _ hoperand hmissing =>
    rcases ih.operand hoperand with ⟨-, he⟩ | ⟨rfl, hp⟩
    · rw [hmissing] at he
      cases he
    · refine .inr ⟨rfl, ?_⟩
      rintro _ ⟨⟩
      exact .inr hp
  | @operand a rest operand _ _ hoperand hfound h =>
    rcases ih.operand hoperand with ⟨hs, he⟩ | ⟨rfl, -⟩
    · have hkeeps := ih.neighbours h
      exact .inl ⟨a, rest, rfl, hkeeps.rest.trans hs, hkeeps.found he⟩
    · cases hfound

theorem forward_expression {least : Int} {left : Expr}
    (h : readExpression c (fuel + 1) closers least left atoms = .ok read) : Continues left atoms read := by
  cases expressionStep_of_readExpression h with
  | none => exact .refl left atoms
  | @operator a rest _ _ _ _ _ _ _ _ hfirst hright h =>
    have hs := (ih.tighter hright).rest.trans (ih.primary hfirst).continues.rest
    have hread := ih.expression h
    refine ⟨(hread.rest.trans hs).trans (List.suffix_cons a rest), fun hm => ?_⟩
    cases (hread.found hm).1

theorem forward_tighter {precedence : Int} {right : Expr}
    (h : readTighter c (fuel + 1) closers precedence right atoms = .ok read) : Continues right atoms read := by
  cases tighterStep_of_readTighter h with
  | none => exact .refl right atoms
  | tighter _ _ hoperand h => exact (ih.expression hoperand).trans (ih.tighter h)

theorem forward_sequence (h : readSequence c (fuel + 1) closers atoms = .ok read) :
    Continues missing atoms read ∧ StopsAt closers read.rest := by
  obtain ⟨first, behind, hfirst, hbehind, h⟩ := of_readSequence h
  obtain ⟨hstray, hstops⟩ := ih.stray h
  exact ⟨((ih.primary hfirst).continues.trans (ih.expression hbehind)).trans hstray, hstops⟩

/-- A round of the loop reads at least one atom: the primary goes on, or the atom is an error. -/
theorem forward_round (h : strayStep c fuel closers a rest = .ok read) :
    read.rest <:+ rest ∧ read.expr.isMissing = false := by
  have on : ∀ {first : Expr} {s : List Atom}, s <:+ rest → first.isMissing = false →
      readExpression c fuel closers 0 first s = .ok read → read.rest <:+ rest ∧ read.expr.isMissing = false := by
    intro first s hs hfirst h
    have hread := ih.expression h
    refine ⟨hread.rest.trans hs, Bool.eq_false_iff.mpr fun hm => ?_⟩
    rw [(hread.found hm).1] at hfirst
    cases hfirst
  cases roundStep_of_strayStep h with
  | primary hprimary hlength h =>
    rcases ih.primary hprimary with ⟨_, _, heq, hs, hfound⟩ | ⟨rfl, -⟩
    · cases heq
      exact on hs hfound h
    · exact absurd rfl hlength
  | unexpected _ _ hu h => exact on List.suffix_rfl (isMissing_unexpected hu) h

theorem forward_stray (h : readStray c (fuel + 1) closers e atoms = .ok read) :
    Continues e atoms read ∧ StopsAt closers read.rest := by
  cases loopStep_of_readStray h with
  | nil => exact ⟨.refl e [], .inl rfl⟩
  | @closed a rest hclosed => exact ⟨.refl e _, .inr ⟨a, rest, rfl, hclosed⟩⟩
  | @round a rest round _ _ hround h =>
    obtain ⟨hs, hfound⟩ := forward_round ih hround
    obtain ⟨hread, hstops⟩ := ih.stray h
    refine ⟨⟨(hread.rest.trans hs).trans (List.suffix_cons a rest), fun hm => ?_⟩, hstops⟩
    have hround := (isMissing_juxtapose (hread.found hm).1).2
    rw [hfound] at hround
    cases hround

end

/-- One more unit of fuel keeps all functions moving forward. -/
theorem Forward.succ {c : Catalog} {fuel : Nat} (ih : Forward c fuel) : Forward c (fuel + 1) where
  primary := forward_primary ih
  expression := forward_expression ih
  tighter := forward_tighter ih
  stray := forward_stray ih
  sequence := forward_sequence ih
  operand := forward_operand ih
  symbol := forward_symbol ih
  marked := forward_marked ih
  number := forward_number ih
  mixed := forward_mixed ih
  function := forward_function ih
  fence := forward_fence ih
  closing := forward_closing ih
  scripts := forward_scripts ih
  marks := forward_marks ih
  neighbours := forward_neighbours ih
  application := forward_application ih
  atom := forward_atom
  attached := forward_attached

/-- Without fuel nothing is read. -/
theorem Forward.zero (c : Catalog) : Forward c 0 := by
  constructor
  case atom | attached =>
    intros
    rename_i h _
    cases h
  all_goals
    intros
    rename_i h
    cases h

theorem Forward.all (c : Catalog) : ∀ fuel, Forward c fuel
  | 0 => .zero c
  | fuel + 1 => (Forward.all c fuel).succ

/-! ### Whether a reading went on -/

/-- An operand that is there was read. -/
theorem ReadsOperand.test {c : Catalog} {a : Atom} {rest : List Atom} {read : Reading} (h : ReadsOperand c a rest read) :
    (read.expr.isMissing || decide (read.rest.length = (a :: rest).length)) = read.expr.isMissing := by
  rcases h with ⟨hs, he⟩ | ⟨rfl, -⟩
  · have := hs.length_le
    rw [he, Bool.false_or, decide_eq_false (by rw [List.length_cons]; omega)]
  · rfl

/-- Where the reading does not go on, the atom was left where it is. -/
theorem ReadsOperand.eq_of_stopped {c : Catalog} {a : Atom} {rest : List Atom} {read : Reading}
    (h : ReadsOperand c a rest read)
    (hstopped : (read.expr.isMissing || decide (read.rest.length = (a :: rest).length)) = true) :
    read = ⟨a :: rest, missing⟩ := by
  rw [h.test] at hstopped
  rcases h with ⟨-, he⟩ | ⟨rfl, -⟩
  · cases hstopped.symm.trans he
  · rfl

/-- A primary that is there was read. -/
theorem ReadsPrimary.test {c : Catalog} {closers : List Closer} {atoms : List Atom} {read : Reading}
    (h : ReadsPrimary c closers atoms read) : read.rest.length = atoms.length ↔ read.expr.isMissing = true := by
  rcases h with ⟨a, rest, rfl, hs, he⟩ | ⟨rfl, -⟩
  · have := hs.length_le
    rw [he, List.length_cons]
    exact ⟨fun h => by omega, fun h => by cases h⟩
  · exact ⟨fun _ => rfl, fun _ => rfl⟩

/-! ### Whole sequences -/

/-- With no fence open a sequence is read to its end. -/
theorem StopsAt.nil_of_no_closers {row : List Atom} (h : StopsAt [] row) : row = [] := by
  rcases h with rfl | ⟨a, rest, -, hclosed⟩
  · rfl
  · cases hclosed

theorem readSequence_rest {c : Catalog} {fuel : Nat} {atoms : List Atom} {read : Reading}
    (h : readSequence c fuel [] atoms = .ok read) : read.rest = [] :=
  ((Forward.all c fuel).sequence h).2.nil_of_no_closers

/-- Only an empty sequence has no expression. -/
theorem ofSequence_missing {c : Catalog} {fuel : Nat} {atoms : List Atom} (h : ofSequence c fuel atoms = .ok missing) :
    unspaced atoms = [] := by
  cases fuel with
  | zero => cases h
  | succ fuel =>
    obtain ⟨read, hread, hmissing⟩ := of_ofSequence h
    have hfound := ((Forward.all c fuel).sequence hread).1.found (by rw [← hmissing]; rfl)
    exact hfound.2.symm.trans (readSequence_rest hread)

/-- Spaces alone have no expression. -/
theorem Grammar.whole_spaces {c : Catalog} {atoms : List Atom} (h : unspaced atoms = []) :
    Grammar.whole c atoms = .ok missing := by
  rw [Grammar.whole_eq, h, Grammar.sequence_eq, Grammar.primary_nil]
  show (Grammar.expression c [] 0 missing [] >>= _) = _
  rw [Grammar.expression_nil]
  show (Grammar.stray c [] missing [] >>= _) = _
  rw [Grammar.stray_nil]
  rfl

/-- A nested sequence is read as a whole one. -/
theorem Grammar.nested_eq (c : Catalog) (field : Option (List Atom)) :
    Grammar.nested c field = Grammar.whole c (field.getD []) := by
  rcases field with _ | _ | ⟨a, rest⟩
  · exact (Grammar.nested_none c).trans (Grammar.whole_spaces rfl).symm
  · exact (Grammar.nested_nil c).trans (Grammar.whole_spaces rfl).symm
  · exact Grammar.nested_cons c a rest

theorem ofAtoms_missing_iff (c : Catalog) (atoms : List Atom) : ofAtoms c atoms = .ok missing ↔ unspaced atoms = [] := by
  refine ⟨ofSequence_missing, fun h => ?_⟩
  rw [ofAtoms_eq]
  exact Grammar.whole_spaces h

/-- The functions of the reader halt on every row, in front of every stack of fences. -/
structure ReaderHalts (c : Catalog) : Prop where
  sequence : ∀ closers atoms, Halts fun n => readSequence c n closers atoms
  stray : ∀ closers e atoms, Halts fun n => readStray c n closers e atoms
  expression : ∀ closers least left atoms, Halts fun n => readExpression c n closers least left atoms
  tighter : ∀ closers precedence right atoms, Halts fun n => readTighter c n closers precedence right atoms
  primary : ∀ closers atoms, Halts fun n => readPrimary c n closers atoms
  operand : ∀ closers a rest, Halts fun n => readOperand c n closers a rest
  fence : ∀ closers a rest, Halts fun n => readFence c n closers a rest
  scripts : ∀ own e atoms, Halts fun n => readScripts c n own e atoms
  marks : ∀ e atoms, Halts fun n => readPostfix c n e atoms
  neighbours : ∀ closers e atoms, Halts fun n => readNeighbours c n closers e atoms
  whole : ∀ atoms, Halts fun n => ofSequence c n atoms

theorem ReaderHalts.all (c : Catalog) : ReaderHalts c where
  sequence closers atoms := (Call.settled (.halting c) (.sequence closers atoms) trivial).halts
  stray closers e atoms := (Call.settled (.halting c) (.stray closers e atoms) trivial trivial).halts
  expression closers least left atoms :=
    (Call.settled (.halting c) (.expression closers least left atoms) trivial trivial).halts
  tighter closers precedence right atoms :=
    (Call.settled (.halting c) (.tighter closers precedence right atoms) trivial trivial).halts
  primary closers atoms := (Call.settled (.halting c) (.primary closers atoms) trivial).halts
  operand closers a rest := (Call.settled (.halting c) (.operand closers a rest) trivial).halts
  fence closers a rest := (Call.settled (.halting c) (.fence closers a rest) trivial).halts
  scripts own e atoms := (Call.settled (.halting c) (.scripts own e atoms) (fun _ _ => trivial) trivial trivial).halts
  marks e atoms := (Call.settled (.halting c) (.marks e atoms) trivial trivial).halts
  neighbours closers e atoms := (Call.settled (.halting c) (.neighbours closers e atoms) trivial trivial).halts
  whole atoms := (Call.settled (.halting c) (.whole atoms) trivial).halts

/-- **The reader moves forward and reads everything.**  For every catalog, whatever its precedences are, and with any
fuel: the functions of the reader leave an end of what they were given, an operand without an expression leaves all of it,
each round of the loop behind an expression reads an atom, and a sequence is left at its end or at an atom that closes
one of the given fences.  Hence all of them halt; a whole sequence is read to its end, and it gives no expression exactly
if there is nothing in it but spaces. -/
theorem reader_moves_forward (c : Catalog) :
    (∀ fuel, Forward c fuel ∧ ∀ closers a rest read, strayStep c fuel closers a rest = .ok read → read.rest <:+ rest) ∧
    ReaderHalts c ∧
    (∀ fuel atoms read, readSequence c fuel [] atoms = .ok read → read.rest = []) ∧
    ∀ atoms, ofAtoms c atoms ≠ .error .recursion ∧ (ofAtoms c atoms = .ok missing ↔ unspaced atoms = []) := by
  refine ⟨fun fuel => ⟨.all c fuel, ?_⟩, .all c, fun fuel atoms read h => readSequence_rest h, fun atoms => ?_⟩
  · intro closers a rest read h
    exact (forward_round (.all c fuel) h).1
  · exact ⟨(ofAtoms_ends c atoms).ne, ofAtoms_missing_iff c atoms⟩

end Formula
