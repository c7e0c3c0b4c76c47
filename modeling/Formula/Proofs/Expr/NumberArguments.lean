import Formula.Proofs.Expr.NamedCalls
import Formula.Proofs.Expr.MarkedCalls
import Formula.Proofs.Format.Written

/-!
# Numbers as arguments

A function that may do without parentheses puts none around a number without a sign.  The call is read back if the number
is written as one operand.  If it is a product of digits and a power of ten, the reader takes one factor of it for the
argument: the digits behind a name, and the power in front of a mark.
-/

namespace Formula

open Text Atom Expr

/-! ### Functions and their arguments -/

/-- How a function is written, where it is not by a superscript: `around` puts its marks or its name to the argument.  An
operand is the argument as a whole, and of a product only one factor is. -/
structure TakesArgument (name : String) (around : String → String) : Prop where
  latex : ∀ {e : Expr} {bare : Bool} {text : String}, e.isNode = true → e.isBareArgument {} = .ok bare →
    e.latex {} .builtin = .ok text → (apply name e).latex {} .builtin =
      .ok (around (if looseFunctions.contains name && bare then text else parenthesized text))
  operand : ∀ {s : String} {row : List Atom} {arg : Expr}, Source.SpellsBefore .builtin s row →
    IsOperand .builtin (unspaced row) arg → IsReadAs (around s) (apply name arg)
  product : ∀ {s : String} {row left right : List Atom} {l r : Expr}, Source.SpellsBefore .builtin s row →
    unspaced row = left ++ ProductSign.cdot.atom :: right → IsOperand .builtin left l → IsOperand .builtin right r →
      IsReadAs (around s) (between "*" (apply name l) r) ∨ IsReadAs (around s) (between "*" l (apply name r))

/-- Two primaries with the sign of a product between them are a product. -/
theorem IsPrimary.multiplied {row left right : List Atom} {l r : Expr} (hl : IsPrimary .builtin left l)
    (hr : IsPrimary .builtin right r) (hrow : unspaced row = left ++ ProductSign.cdot.atom :: right) :
    IsWhole .builtin row (between "*" l r) := by
  obtain ⟨start, hchain⟩ := hl.isChain.append ProductSign.cdot.operator hr.isChain
  have hall : IsChain .builtin (unspaced row) l [⟨ProductSign.cdot.atom, start, .text "*", 390, r⟩] := by
    rw [hrow]
    exact hchain
  refine hall.isWhole ?_
  exact @Arranges.node l [] [] ⟨ProductSign.cdot.atom, start, .text "*", 390, r⟩ l r (.leaf l) (.leaf r) (fun _ h => by cases h)
    (fun _ h => by cases h)

/-- A name in front takes the first factor. -/
theorem WritesHead.takesArgument {name head : String} {front : List Atom} (h : WritesHead name head front) :
    TakesArgument name (head ++ ·) where
  latex := h.latex
  operand hspells hoperand := by
    refine IsWhole.isReadAs (IsPrimary.isWhole ?_) (h.spells.append_before hspells)
    rw [unspaced_append, h.spaceless]
    exact h.primary hoperand.isPrimary
  product hspells hrow hleft hright := by
    refine .inl (IsWhole.isReadAs ((h.primary hleft.isPrimary).multiplied hright.isPrimary ?_) (h.spells.append_before hspells))
    rw [unspaced_append, h.spaceless, hrow, List.append_assoc]

/-- Marks in front are read like a name. -/
theorem PrefixMark.writesHead (m : PrefixMark) : WritesHead m.name m.sign [nablaAtom, m.second] where
  spells := m.spells_sign
  spaceless := by cases m <;> rfl
  primary h := h.prefixed m
  latex {e bare text} hnode hbare hlatex := by
    refine m.latex hnode ?_
    rw [hlatex]
    exact argumentLatex_eq m.opens hbare

/-- A mark behind the argument takes the last factor. -/
theorem PostfixMark.takesArgument (m : PostfixMark) : TakesArgument m.name (· ++ m.sign) := by
  have hmarks : unspaced (m.front ++ [m.last]) = m.front ++ [m.last] := by cases m <;> rfl
  have hspells : ∀ {s : String} {row : List Atom}, Source.SpellsBefore .builtin s row →
      Source.SpellsBefore .builtin (s ++ m.sign) (row ++ (m.front ++ [m.last])) := fun h =>
    (h.append m.spells_sign (by cases m <;> exact ⟨_, _, rfl, by decide⟩)).before
  have hprimary : ∀ {row : List Atom} {arg : Expr}, IsOperand .builtin row arg →
      IsPrimary .builtin (row ++ (m.front ++ [m.last])) (apply m.name arg) := by
    intro row arg h
    have hlast : m.last = m.last.scripted none none := by cases m <;> rfl
    rw [hlast]
    exact h.isAddend.postfixed m (.plain (by cases m <;> rfl) _) rfl
  refine ⟨fun {e bare text} hnode hbare hlatex => ?_, fun {s row arg} h hoperand => ?_, fun {s row left right l r} h hrow hl hr => ?_⟩
  · have hargument := @argumentLatex_eq m.name _ _ _ text m.opens hbare
    rw [← hlatex] at hargument
    have hall := m.latex hnode hargument isSuperText_missing
    rwa [String.append_empty] at hall
  · refine IsWhole.isReadAs (IsPrimary.isWhole ?_) (hspells h)
    rw [unspaced_append, hmarks]
    exact hprimary hoperand
  · refine .inr (IsWhole.isReadAs (hl.isPrimary.multiplied (hprimary hr) ?_) (hspells h))
    rw [unspaced_append, hmarks, hrow, List.append_assoc, List.cons_append]

/-- Every function that may do without parentheses and is not written as a superscript takes its argument in one of the two
ways. -/
theorem takesArgument {name : String} (h : name ∈ looseFunctions) (hraised : isRaised name = false) :
    ∃ around, TakesArgument name around := by
  have hcases : ∀ s ∈ looseFunctions, isRaised s = true ∨ s ∈ Catalog.commandFunctions ∨
      (Token.KeepsGroup s.toList ∧ '%' ∉ s.toList ∧ s.length ≠ 1 ∧ s ∉ Catalog.commandFunctions ∧
        s ∉ Catalog.builtinFunctionTemplates.map (·.1) ∧ s ∉ Catalog.builtinPrecedences.map (·.1)) ∨
      (∃ m ∈ [PostfixMark.factorial, .doubleFactorial, .maltese, .dollar, .percent, .underscore], m.name = s) ∨
      ∃ m ∈ [PrefixMark.curl, .divergence], m.name = s := by
    decide +kernel
  rcases hcases name h with hr | hcommand | ⟨hchars, hplace, hlong, hcommand, htemplate, hprecedence⟩ | ⟨m, -, rfl⟩ | ⟨m, -, rfl⟩
  · rw [hraised] at hr
    cases hr
  · exact ⟨_, (writesHead_command hcommand).takesArgument⟩
  · exact ⟨_, (writesHead_named hchars hplace hlong hcommand htemplate hprecedence).takesArgument⟩
  · exact ⟨_, m.takesArgument⟩
  · exact ⟨_, m.writesHead.takesArgument⟩

/-! ### Numbers -/

theorem IsWrittenNumber.isReadAs {v : Datum} {text : String} {shown : Format.Shown} {number : Expr}
    (h : IsWrittenNumber v text shown number) : IsReadAs text number := by
  obtain ⟨atoms, -, hatoms, hread, -⟩ := h.read
  exact ⟨atoms, hatoms, hread⟩

namespace TakesArgument

variable {name : String} {around : String → String} (htakes : TakesArgument name around) {l : Format.Layout} (h : l.Sound)
include htakes h

/-- The argument is in parentheses if the number has a minus. -/
theorem latex_number {v : Datum} {negative : Bool} (hname : name ∈ looseFunctions)
    (htext : ({} : Format).number v = .ok ((if negative then "-" else "") ++ l.text "\\cdot ")) :
    (apply name (ofNumber v)).latex {} .builtin =
      .ok (around (if negative then parenthesized ("-" ++ l.text "\\cdot ") else l.text "\\cdot ")) := by
  have hlatex := Expr.latex_number htext isSuperText_missing
  have hbare : (ofNumber v).isBareArgument {} = .ok !negative := by
    show (do return !beginsWith (← ({} : Format).number v) "-") = _
    rw [htext]
    exact congrArg (fun b => Except.ok !b) (Format.Layout.beginsWith_text h negative)
  rw [String.append_empty] at hlatex
  rw [htakes.latex rfl hbare hlatex, List.contains_iff_mem.mpr hname]
  cases negative with
  | true => rfl
  | false => exact congrArg (fun s => Except.ok (around s)) String.empty_append

/-- A number with a minus is the argument as a whole, in its parentheses. -/
theorem reads_minus {number : Expr} (hread : IsReadAs ("-" ++ l.text "\\cdot ") number) :
    IsReadAs (around (parenthesized ("-" ++ l.text "\\cdot "))) (apply name (fenced number parentheses)) := by
  obtain ⟨row, hspells, hrow⟩ := l.spells_text h .cdot
  obtain ⟨first, links, e, hchain, harranged, -⟩ := l.reads_row h .cdot true
  have hall : unspaced (minusRow true ++ row) = minusRow true ++ l.readRow .cdot := by
    rw [unspaced_append, unspaced_minusRow, hrow]
  rw [← hall] at hchain
  have hinner := (hchain.isExpression harranged).isInner
  have hminus := (spells_minus true).append_before hspells
  obtain rfl := (hinner.isWhole.isReadAs hminus).unique hread
  obtain ⟨row', hspells', hoperand⟩ := hinner.parenthesized hminus
  exact htakes.operand hspells'.before hoperand

/-- A number that is no product is the argument as a whole. -/
theorem reads_single (hproduct : ¬l.IsProduct) {number : Expr} (hread : IsReadAs (l.text "\\cdot ") number) :
    IsReadAs (around (l.text "\\cdot ")) (apply name number) := by
  obtain ⟨row, hspells, hrow⟩ := l.spells_text h .cdot
  obtain ⟨e, hoperand⟩ := l.reads_operand h hproduct .cdot
  rw [← hrow] at hoperand
  obtain rfl := (hoperand.isPrimary.isWhole.isReadAs hspells).unique hread
  exact htakes.operand hspells hoperand

/-- Of a product only one factor is the argument. -/
theorem reads_product (hproduct : l.IsProduct) : ∃ left right, IsReadAs (around (l.text "\\cdot ")) (between "*" left right) := by
  obtain ⟨row, hspells, hrow⟩ := l.spells_text h .cdot
  obtain ⟨mantissa, hmantissa, -⟩ := l.reads_mantissa h
  obtain ⟨power, hpower, -⟩ := reads_power l.shift
  rw [l.readRow_product hproduct] at hrow
  exact (htakes.product hspells hrow hmantissa hpower).elim (fun h => ⟨_, _, h⟩) fun h => ⟨_, _, h⟩

end TakesArgument

end Formula
