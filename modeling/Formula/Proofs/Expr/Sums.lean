import Formula.Proofs.Expr.SymbolText

/-!
# Sums of symbols and short numbers

A sum is written with a plus sign between any two of its terms, whatever the order in which they were added, and read as
the sum of these terms from left to right.  Its last term may be a nabla, so that a sum is an expression only where no sign
of a product follows; in parentheses it is an operand.
-/

namespace Formula

open Number Text Atom Expr

/-- A symbol or a whole number below a thousand, and what it is read as: a number is read as one with a floating point. -/
inductive IsTerm : Expr → Expr → Prop
  | symbol {d : Char} : IsSymbolCharacter d → IsTerm (letterSymbol d) (letterSymbol d)
  | number {value : Datum} {n : Nat} : value.IsWhole n → n < 1000 → IsTerm (ofNumber value) (ofNumber (.float (.ofInt n)))

/-- A term or a sum of such, and its terms from left to right as they are read. -/
inductive IsSumOf : Expr → List Expr → Prop
  | term {e e' : Expr} : IsTerm e e' → IsSumOf e [e']
  | sum {l r : Expr} {es fs : List Expr} : IsSumOf l es → IsSumOf r fs → IsSumOf (between "+" l r) (es ++ fs)

/-! ### Rows of addends -/

/-- Addends with a plus sign between any two of them: the row, and what the addends are read as. -/
inductive IsSumRow : List Atom → List Expr → Prop
  | single {row : List Atom} {e : Expr} : IsAddend .builtin row e → IsSumRow row [e]
  | cons {row more : List Atom} {e : Expr} {es : List Expr} : IsAddend .builtin row e → IsSumRow more es →
    IsSumRow (row ++ Infix.sum.atom :: more) (e :: es)

namespace IsSumRow

variable {row row' : List Atom} {es es' : List Expr}

theorem append (h : IsSumRow row es) (h' : IsSumRow row' es') : IsSumRow (row ++ Infix.sum.atom :: row') (es ++ es') := by
  induction h with
  | single ha => exact .cons ha h'
  | cons ha _ ih =>
    rw [List.append_assoc, List.cons_append, List.cons_append]
    exact .cons ha ih

theorem worded (h : IsSumRow row es) : ∀ a ∈ row, a.Worded := by
  induction h with
  | single ha => exact ha.worded
  | cons ha _ ih =>
    intro b hb
    rcases List.mem_append.mp hb with hb | hb
    · exact ha.worded b hb
    · rcases List.mem_cons.mp hb with rfl | hb
      · exact Infix.sum.isPlain_atom.worded
      · exact ih b hb

theorem begins (h : IsSumRow row es) : Begins row := by
  cases h with
  | single ha => exact ha.toBegins
  | cons ha hmore =>
    refine ha.toBegins.append fun b hb => ?_
    rcases List.mem_cons.mp hb with rfl | hb
    · exact Infix.sum.isPlain_atom.worded
    · exact hmore.worded b hb

/-- The addends are read one behind the other. -/
theorem reads (h : IsSumRow row es) {closers : List Closer} (hclosers : InParentheses closers) {tail : List Atom}
    (htail : Border .builtin closers tail) (hdot : Undotted tail) : ∃ e fs rest, es = e :: fs ∧
      Grammar.primary .builtin closers (row ++ tail) = .ok ⟨rest, e⟩ ∧ Repeats Infix.sum.operator closers tail fs rest := by
  induction h with
  | single ha => exact ⟨_, [], tail, rfl, ha.primary hclosers htail hdot, .nil⟩
  | @cons row more e es ha hmore ih =>
    obtain ⟨f, fs, rest, rfl, hread, hrest⟩ := ih
    have hworded : ∀ a ∈ more ++ tail, a.Worded := by
      intro a ha
      rcases List.mem_append.mp ha with ha | ha
      · exact hmore.worded a ha
      · exact htail.worded a ha
    have hplus : Border .builtin closers (Infix.sum.atom :: (more ++ tail)) := Infix.sum.operator.border hclosers hworded
    refine ⟨e, f :: fs, Infix.sum.atom :: (more ++ tail), rfl, ?_, .cons hread hrest⟩
    rw [List.append_assoc, List.cons_append]
    exact ha.primary hclosers hplus (undotted_cons (t := "+") rfl (by decide) _)

/-- **A row of addends is read as their sum.** -/
theorem isInner (h : IsSumRow row es) : IsInner .builtin row (joined "+" es) := by
  refine ⟨h.begins, fun closers tail hclosers htail hdot hop => ?_⟩
  obtain ⟨e, fs, rest, rfl, hread, hrest⟩ := h.reads hclosers htail.toBorder hdot
  rw [hread]
  exact hrest.expression hop e

end IsSumRow

/-! ### Texts of addends -/

/-- The text is read as an addend. -/
def IsAddendText (s : String) (e : Expr) : Prop :=
  ∃ row, Source.SpellsBefore .builtin s row ∧ IsAddend .builtin (unspaced row) e

/-- The text is read as a row of addends. -/
def IsSumText (s : String) (es : List Expr) : Prop :=
  ∃ row, Source.SpellsBefore .builtin s row ∧ IsSumRow (unspaced row) es

theorem IsOperandText.isAddendText {s : String} {e : Expr} (h : IsOperandText s e) : IsAddendText s e := by
  obtain ⟨row, hspells, hoperand⟩ := h
  exact ⟨row, hspells.before, hoperand.isAddend⟩

theorem IsAddendText.isSumText {s : String} {e : Expr} (h : IsAddendText s e) : IsSumText s [e] := by
  obtain ⟨row, hspells, haddend⟩ := h
  exact ⟨row, hspells, .single haddend⟩

theorem IsSumText.append {s s' : String} {es es' : List Expr} (h : IsSumText s es) (h' : IsSumText s' es') :
    IsSumText (s ++ (Infix.sum.sign ++ s')) (es ++ es') := by
  obtain ⟨row, hspells, hsum⟩ := h
  obtain ⟨row', hspells', hsum'⟩ := h'
  have hall := (hspells.append Infix.sum.spells_sign ⟨_, _, rfl, by decide⟩).append_before hspells'
  rw [String.append_assoc, List.append_assoc] at hall
  refine ⟨_, hall, ?_⟩
  rw [unspaced_append, unspaced_append, unspaced_singleton (by decide)]
  exact hsum.append hsum'

/-- **An expression in parentheses is an operand.** -/
theorem IsInner.parenthesized {s : String} {row : List Atom} {e : Expr} (h : IsInner .builtin (unspaced row) e)
    (hspells : Source.SpellsBefore .builtin s row) : IsOperandText (parenthesized s) (fenced e parentheses) := by
  refine ⟨_, spells_parenthesized hspells, ?_⟩
  rw [unspaced_append, unspaced_append, unspaced_singleton (by decide), unspaced_singleton (by decide), List.append_assoc]
  exact @IsInner.isOperand _ _ _ _ h none none (.plain rfl _) rfl

theorem IsSumText.parenthesized {s : String} {es : List Expr} (h : IsSumText s es) :
    IsOperandText (parenthesized s) (fenced (joined "+" es) parentheses) := by
  obtain ⟨row, hspells, hsum⟩ := h
  exact hsum.isInner.parenthesized hspells

/-! ### How sums are written -/

theorem IsWrittenSymbol.isAddendText {d : Char} {s : String} {a : Atom} (h : IsWrittenSymbol d s a) :
    IsAddendText s (letterSymbol d) :=
  ⟨[a], h.spells, by rw [unspaced_singleton h.type]; exact h.addend⟩

/-- A term is written as a text that is read as the term, and needs no parentheses behind the name of a function. -/
theorem IsTerm.written {e e' : Expr} (h : IsTerm e e') : ∃ s, e.latex {} .builtin = .ok s ∧ IsAddendText s e' ∧
    e.precedence .builtin = .ok none ∧ e.isBareArgument {} = .ok true ∧ e.isNode = true := by
  cases h with
  | symbol hd =>
    obtain ⟨s, a, hs⟩ := hd.written
    exact ⟨s, hs.latex, hs.isAddendText, rfl, rfl, rfl⟩
  | @number value n hwhole hlt =>
    have hlt' : (n : Int).natAbs < tenTo 14 := Nat.lt_trans hlt (by decide)
    refine ⟨Format.wholeText n, ?_, ?_, rfl, ?_, rfl⟩
    · rw [latex_whole hwhole hlt', Format.signText_natCast, String.empty_append, Int.natAbs_natCast]
    · exact ((isBaseText_whole (Nat.lt_trans hlt (by decide))).isOperandText rfl).isAddendText
    · rw [isBareArgument_whole hwhole hlt', decide_eq_false (Int.not_lt.mpr (Int.natCast_nonneg n))]
      rfl

/-- In a sum no operand needs parentheses that is a sum itself. -/
theorem operandLatex_sum {own : Option Int} (h : ∀ q, own = some q → Infix.sum.precedence ≤ q) (right : Bool) (text : String) :
    operandLatex own Infix.sum.precedence right (.text Infix.sum.name) text = text := by
  cases own with
  | none => rfl
  | some q =>
    have hloose : (decide (q < Infix.sum.precedence) ||
        (right && q == Infix.sum.precedence && isSubtractive (.text Infix.sum.name))) = false := by
      rw [decide_eq_false (Int.not_lt.mpr (h q rfl)), show isSubtractive (.text Infix.sum.name) = false from rfl, Bool.and_false]
      rfl
    exact if_neg (by rw [hloose]; exact Bool.false_ne_true)

/-- **A sum is written as what is read as the sum of its terms.** -/
theorem IsSumOf.written {e : Expr} {es : List Expr} (h : IsSumOf e es) : ∃ s own, e.latex {} .builtin = .ok s ∧
    IsSumText s es ∧ e.precedence .builtin = .ok own ∧ ∀ q, own = some q → Infix.sum.precedence ≤ q := by
  induction h with
  | term ht =>
    obtain ⟨s, hlatex, htext, hown, -, -⟩ := ht.written
    exact ⟨s, none, hlatex, htext.isSumText, hown, fun q hq => by cases hq⟩
  | sum hl hr ihl ihr =>
    obtain ⟨s, own, hlatex, htext, hown, htight⟩ := ihl
    obtain ⟨s', own', hlatex', htext', hown', htight'⟩ := ihr
    have hsum := latex_infix .sum hlatex hlatex' hown hown' isSuperText_missing
    rw [operandLatex_sum htight, operandLatex_sum htight', String.append_empty] at hsum
    exact ⟨_, some Infix.sum.precedence, hsum, htext.append htext', rfl, fun q hq => Int.le_of_eq (Option.some.inj hq)⟩

end Formula
