import Formula.Proofs.Expr.Normal

/-!
# Expressions whose text stays

A formula that is written and read again may become another text: parentheses that were a group without need are lost or
doubled, and marks that are written as superscripts are read as such.  An expression is steady if nothing of the kind can
happen to it.  Whether it may depends on what the text of a part is read as, which the tree does not show: a letter in
parentheses is a group, but its text is a letter.  So `Steady` goes along the tree with the shape of the text.

The proof is an induction over the tree that shows of every node how it is written and that its text is in normal form
(`IsNormal`).
-/

namespace Formula

open Number Text Expr

/-! ### Shapes -/

/-- What the text of an expression is read as. -/
inductive TextShape where
  | letter
  /-- A whole number of up to three digits. -/
  | short
  /-- A longer number, which needs parentheses in front of a script. -/
  | long
  | negative
  | group
  | other
deriving DecidableEq

namespace TextShape

/-- The text is a symbol or a number without a sign. -/
def isLeaf : TextShape → Bool
  | letter | short | long => true
  | negative | group | other => false

/-- The text is a number. -/
def isNumber : TextShape → Bool
  | short | long | negative => true
  | letter | group | other => false

/-- A script behind the text belongs to all of it. -/
def takesScripts : TextShape → Bool
  | letter | short | group => true
  | long | negative | other => false

/-- The expression is of the kind that the shape tells. -/
structure Admits (k : TextShape) (e : Expr) : Prop where
  simple : e.isSimple {} = .ok k.isLeaf
  sign : k.isNumber = false → ∀ sign, foldSign? sign e = none

end TextShape

/-! ### Steady expressions -/

/-- Steady expressions with the shape of their text: letters, whole numbers of less than fifteen digits, and what is built
from them.  What is simple has one pair of parentheses at most, no argument of a function has any but a pair around a letter
or a number, and no number with a sign or of more than three digits carries scripts. -/
inductive Steady : TextShape → Expr → Prop
  | letter {d : Char} : d.isAlpha = true → Steady .letter (ofSymbol (.text d.toString) .null)
  | short {value : Datum} {n : Nat} : value.IsWhole n → n < tenTo 3 → Steady .short (ofNumber value)
  | long {value : Datum} {n : Nat} : value.IsWhole n → n < tenTo 14 → Steady .long (ofNumber value)
  | negative {value : Datum} {n : Nat} : value.IsWhole (-n) → 0 < n → n < tenTo 14 → Steady .negative (ofNumber value)
  /-- Parentheses around what is simple are not written. -/
  | simple {k : TextShape} {e : Expr} : Steady k e → e.isSimple {} = .ok true → Steady k (fenced e parentheses)
  | group {k : TextShape} {e : Expr} : Steady k e → k.isLeaf = false → Steady .group (fenced e parentheses)
  | operation (o : Infix) {k k' : TextShape} {l r : Expr} : Steady k l → Steady k' r →
    Steady .other (between (.text o.name) l r)
  | division {k k' : TextShape} {l r : Expr} : Steady k l → Steady k' r → Steady .other (between (.text "/") l r)
  | fraction {k k' : TextShape} {l r : Expr} : Steady k l → Steady k' r → Steady .other (quotient l r)
  | root {k : TextShape} {e : Expr} : Steady k e → Steady .other (squareRoot e)
  | signed (s : Sign) {k : TextShape} {e : Expr} : Steady k e → k.isNumber = false → Steady .other (before (.text s.name) e)
  /-- A minus in front of a number in parentheses, which are not written. -/
  | negated {value : Datum} {n : Nat} : value.IsWhole n → 0 < n → n < tenTo 14 →
    Steady .negative (before (.text "-") (fenced (ofNumber value) parentheses))
  | superscript {k k' : TextShape} {e s : Expr} : Steady k e → k.takesScripts = true → Steady k' s →
    Steady .other (e.withScripts s missing)
  | subscript {k k' : TextShape} {e s : Expr} : Steady k e → k.takesScripts = true → Steady k' s →
    Steady .other (e.withScripts missing s)
  | scripts {k k' k'' : TextShape} {e s s' : Expr} : Steady k e → k.takesScripts = true → Steady k' s → Steady k'' s' →
    Steady .other (e.withScripts s s')
  /-- The base is a leaf, or it is written in parentheses. -/
  | power {k k' : TextShape} {b x : Expr} : Steady k b → (k.isLeaf = true → k.takesScripts = true ∧ b.isSimple {} = .ok true) →
    Steady k' x → Steady .other (apply "pow" (tuple [b, x]))
  | function {name : String} {k : TextShape} {e : Expr} : name ∈ Catalog.commandFunctions → Steady k e →
    (k.isLeaf = true ∨ looseFunctions.contains name = true ∧ e.isBareArgument {} = .ok true) → Steady .other (apply name e)
  | factorial {k : TextShape} {e : Expr} : Steady k e → (k.isLeaf = true ∨ e.isBareArgument {} = .ok true) →
    Steady .other (apply "factorial" e)
  | enclosed (f : Enclosure) {k : TextShape} {e : Expr} : Steady k e → Steady .other (apply f.name e)

/-! ### Steady expressions are written in normal form -/

/-- The expression is written as the text, which is in normal form and of the shape. -/
structure IsNormal (k : TextShape) (e : Expr) (text : String) : Prop where
  writes : e.WritesAs text
  simple : ∃ b, e.isSimple {} = .ok b ∧ (b = true → k.isLeaf = true)
  bare : ∃ b, e.isBareArgument {} = .ok b ∧ (b = true → NormalOperand (fun e' => e'.isBareArgument {} = .ok true) text) ∧
    (k.takesScripts = true → NormalBase (fun e' => b = true → e'.isBareArgument {} = .ok true) text)
  base : k.takesScripts = true → e.WritesBase text
  /-- The operators of the text bind as tight as the operator of the expression; if it is no operation, there are none. -/
  chain : ∃ own, e.precedence .builtin = .ok own ∧ e.isPlainOperation = own.isSome ∧
    NormalChain (fun p => ∃ q, own = some q ∧ q ≤ p) k.Admits text
  leaf : k.isLeaf = true → e.isPlainOperation = false

namespace IsNormal

variable {k k' : TextShape} {e l r : Expr} {text left right : String}

/-! ### What the text of a part is where it stands -/

theorem whole (h : IsNormal k e text) : NormalWhole text := by
  obtain ⟨own, -, -, hchain⟩ := h.chain
  exact hchain.whole

theorem primary (h : IsNormal k e text) (hplain : e.isPlainOperation = false) : NormalPrimary k.Admits text := by
  obtain ⟨own, -, hown, hchain⟩ := h.chain
  rw [hplain] at hown
  cases own with
  | none => exact hchain.primary fun p ⟨q, hq, _⟩ => by cases hq
  | some q => cases hown

/-- In parentheses all but leaves take scripts. -/
theorem parenthesized (h : IsNormal k e text) (hk : k.isLeaf = false) :
    NormalBase (fun g => ∃ e, g = fenced e parentheses) (parenthesized text) := by
  obtain ⟨own, -, -, hchain⟩ := h.chain
  exact hchain.parenthesized fun e he => hk ▸ he.simple

theorem isSimple_eq (h : IsNormal k e text) (hk : k.isLeaf = false) : e.isSimple {} = .ok false := by
  obtain ⟨b, hb, himp⟩ := h.simple
  cases b with
  | false => exact hb
  | true => exact absurd (himp rfl) (by rw [hk]; exact Bool.false_ne_true)

theorem isLeaf_eq (h : IsNormal k e text) (hplain : e.isPlainOperation = true) : k.isLeaf = false := by
  cases hk : k.isLeaf with
  | false => rfl
  | true =>
    have := h.leaf hk
    rw [hplain] at this
    cases this

/-- **An operand of an operation has only operators that bind tighter**, or as tight. -/
theorem operand (h : IsNormal k e text) (around : Int) (right : Bool) (op : Datum) : ∃ own Q,
    e.precedence .builtin = .ok own ∧ NormalChain (fun p => around ≤ p) Q (operandLatex own around right op text) := by
  obtain ⟨own, hown, hplain, hchain⟩ := h.chain
  rcases operandLatex_cases own around right op text with ⟨hsome, htext⟩ | ⟨htext, htight⟩
  · refine ⟨own, fun g => ∃ e, g = fenced e parentheses, hown, ?_⟩
    rw [htext]
    exact (h.parenthesized (h.isLeaf_eq (hplain.trans hsome))).operand.primary.chain _
  · refine ⟨own, k.Admits, hown, ?_⟩
    rw [htext]
    exact hchain.mono fun p ⟨q, hq, hle⟩ => Int.le_trans (htight q hq).1 hle

/-- The operand of a sign is in parentheses if it is an operation, and no number takes the sign. -/
theorem signOperand (h : IsNormal k e text) (hk : k.isNumber = false) :
    NormalPrimary (fun e' => ∀ sign, foldSign? sign e' = none) (parenthesizedIf e.isPlainOperation text) := by
  cases hplain : e.isPlainOperation with
  | false => exact (h.primary hplain).mono fun e' he => he.sign hk
  | true =>
    refine (h.parenthesized (h.isLeaf_eq hplain)).operand.primary.mono ?_
    rintro _ ⟨e', rfl⟩ sign
    rfl

/-- The argument of a function, which is bare or a leaf in parentheses. -/
theorem argument (h : IsNormal k e text) (loose : Bool)
    (hok : k.isLeaf = true ∨ loose = true ∧ e.isBareArgument {} = .ok true) : ∃ bare,
      e.isBareArgument {} = .ok bare ∧ NormalArgument loose (if loose && bare then text else Expr.parenthesized text) := by
  obtain ⟨bare, hbare, hoperand, -⟩ := h.bare
  refine ⟨bare, hbare, ?_⟩
  by_cases hboth : (loose && bare) = true
  · rw [if_pos hboth]
    obtain ⟨rfl, rfl⟩ := Bool.and_eq_true_iff.mp hboth
    exact (hoperand rfl).argument fun _ he => he
  · rw [if_neg hboth]
    have hk : k.isLeaf = true := by
      rcases hok with hk | ⟨rfl, hb⟩
      · exact hk
      · rw [hbare] at hb
        cases hb
        exact absurd rfl hboth
    exact (h.primary (h.leaf hk)).argument (fun e' he => hk ▸ he.simple) loose

/-! ### Leaves -/

/-- A node that takes no scripts and is no leaf. -/
theorem of_primary (hwrites : e.WritesAs text) (hplain : e.isPlainOperation = false) (hsimple : e.isSimple {} = .ok false)
    (hleaf : k.isLeaf = false) (hscripts : k.takesScripts = false) (hprimary : NormalPrimary k.Admits text)
    (hbare : ∃ b, e.isBareArgument {} = .ok b ∧ (b = true → NormalOperand (fun e' => e'.isBareArgument {} = .ok true) text)) :
    IsNormal k e text where
  writes := hwrites
  simple := ⟨false, hsimple, fun h => by cases h⟩
  bare := by
    obtain ⟨b, hb, hoperand⟩ := hbare
    exact ⟨b, hb, hoperand, fun h => by rw [hscripts] at h; cases h⟩
  base h := by
    rw [hscripts] at h
    cases h
  chain := ⟨none, precedence_eq_none hplain, hplain, hprimary.chain _⟩
  leaf h := by
    rw [hleaf] at h
    cases h

/-- A node that takes scripts. -/
theorem of_base {b : Bool} (hwrites : e.WritesBase text) (hsimple : ∃ b, e.isSimple {} = .ok b ∧ (b = true → k.isLeaf = true))
    (hbare : e.isBareArgument {} = .ok b)
    (hbase : NormalBase (fun e' => k.Admits e' ∧ (b = true → e'.isBareArgument {} = .ok true)) text) : IsNormal k e text where
  writes := hwrites.tight.toWritesAs
  simple := hsimple
  bare := ⟨b, hbare, fun h => hbase.operand.mono fun _ he => he.2 h, fun _ => hbase.mono fun _ he => he.2⟩
  base _ := hwrites
  chain := ⟨none, precedence_eq_none hwrites.tight.plain, hwrites.tight.plain,
    (hbase.operand.primary.mono fun _ he => he.1).chain _⟩
  leaf _ := hwrites.tight.plain

theorem letter {d : Char} (hd : d.isAlpha = true) : IsNormal .letter (ofSymbol (.text d.toString) .null) d.toString := by
  have hwrites : (ofSymbol (.text d.toString) .null).WritesBase d.toString :=
    ⟨rfl, ⟨rfl, rfl⟩, .symbol _ _, fun hs => latex_letter_scripts hd hs⟩
  exact of_base hwrites ⟨true, rfl, fun _ => rfl⟩ rfl
    ⟨_, isScriptableText_letter hd, hwrites, ⟨rfl, fun _ _ => rfl⟩, fun _ => rfl⟩

section

variable {value : Datum} {n : Nat} (h : value.IsWhole n)
include h

theorem number_writesTight (hlt : n < tenTo 14) : (ofNumber value).WritesTight (Format.wholeText n) where
  latex := by
    have := latex_whole h (by rwa [Int.natAbs_natCast])
    rwa [Int.natAbs_natCast, Format.signText_natCast, String.empty_append] at this
  faultless := .number value
  plain := rfl

theorem number_writesBase (hlt : n < tenTo 3) : (ofNumber value).WritesBase (Format.wholeText n) where
  holds := rfl
  free := ⟨rfl, rfl⟩
  faultless := .number value
  latex := by
    intro s s' scripts hs
    have hlt' : n < tenTo 14 := Nat.lt_trans hlt (by decide)
    have htext := Format.number_whole h (by rwa [Int.natAbs_natCast])
    rw [Int.natAbs_natCast, Format.signText_natCast, String.empty_append] at htext
    have := latex_number_scripts htext hs
    rwa [Format.beginsWith_wholeText, Format.holds_wholeText_short hlt, Bool.or_self, Bool.and_false] at this

theorem number_questions (hlt : n < tenTo 14) :
    (ofNumber value).isSimple {} = .ok true ∧ (ofNumber value).isBareArgument {} = .ok true := by
  have hsimple := isSimple_whole h (by rwa [Int.natAbs_natCast])
  have hbare := isBareArgument_whole h (by rwa [Int.natAbs_natCast])
  rw [decide_eq_false (Int.not_lt.mpr (Int.natCast_nonneg n))] at hsimple hbare
  exact ⟨hsimple, hbare⟩

theorem short (hlt : n < tenTo 3) : IsNormal .short (ofNumber value) (Format.wholeText n) := by
  have hlt' : n < tenTo 14 := Nat.lt_trans hlt (by decide)
  obtain ⟨hsimple, hbare⟩ := number_questions h hlt'
  obtain ⟨hsimple', hbare'⟩ := number_questions (.float n) hlt'
  exact of_base (number_writesBase h hlt) ⟨true, hsimple, fun _ => rfl⟩ hbare
    ⟨_, isScriptableText_whole (Nat.lt_trans hlt (by decide)), number_writesBase (.float n) hlt,
      ⟨hsimple', fun hk => by cases hk⟩, fun _ => hbare'⟩

theorem long (hlt : n < tenTo 14) : IsNormal .long (ofNumber value) (Format.wholeText n) := by
  obtain ⟨hsimple, hbare⟩ := number_questions h hlt
  obtain ⟨hsimple', hbare'⟩ := number_questions (.float n) hlt
  have hread := (isBaseText_whole (Nat.lt_trans hlt (by decide))).isOperandText rfl
  have hwrites := number_writesTight (.float n) hlt
  have hprimary : NormalPrimary (TextShape.Admits .long) (Format.wholeText n) :=
    ⟨_, hread.isPrimaryText, hwrites, hsimple', fun hk => by cases hk⟩
  exact {
    writes := (number_writesTight h hlt).toWritesAs
    simple := ⟨true, hsimple, fun _ => rfl⟩
    bare := ⟨true, hbare, fun _ => ⟨_, hread, hwrites, hbare'⟩, fun h => by cases h⟩
    base := fun h => by cases h
    chain := ⟨none, rfl, rfl, hprimary.chain _⟩
    leaf := fun _ => rfl }

end

theorem number_negative {value : Datum} {n : Nat} (h : value.IsWhole (-n)) (hpos : 0 < n) (hlt : n < tenTo 14) :
    (ofNumber value).WritesTight ("-" ++ Format.wholeText n) ∧ (ofNumber value).isSimple {} = .ok false ∧
      (ofNumber value).isBareArgument {} = .ok false := by
  have habs : (-(n : Int)).natAbs < tenTo 14 := by rwa [Int.natAbs_neg, Int.natAbs_natCast]
  have hneg : -(n : Int) < 0 := by omega
  have hlatex := latex_whole h habs
  have hsimple := isSimple_whole h habs
  have hbare := isBareArgument_whole h habs
  rw [decide_eq_true hneg] at hsimple hbare
  rw [Int.natAbs_neg, Int.natAbs_natCast, Format.signText, if_pos hneg] at hlatex
  exact ⟨⟨⟨hlatex, .number value⟩, rfl⟩, hsimple, hbare⟩

/-- A minus in front of digits is the sign of a number. -/
theorem minus {n : Nat} (hpos : 0 < n) (hlt : n < tenTo 14) :
    NormalPrimary (TextShape.Admits .negative) ("-" ++ Format.wholeText n) := by
  have hread := (((isBaseText_whole (Nat.lt_trans hlt (by decide))).isOperandText rfl).isPrimaryText).signed .minus
  have hnegated : (Double.ofInt n).neg = Double.ofInt (-n) :=
    Double.neg_ofInt (by omega) (by rw [Int.natAbs_natCast]; exact Nat.lt_trans hlt (by decide))
  have hfolded : withSign (Datum.text Sign.minus.name) (ofNumber (.float (.ofInt n))) =
      ofNumber (.float (.ofInt (-(n : Int)))) := by
    rw [← hnegated]
    rfl
  rw [hfolded] at hread
  obtain ⟨hwrites, hsimple, -⟩ := number_negative (.float (-(n : Int))) hpos hlt
  exact ⟨_, hread, hwrites, hsimple, fun hk => by cases hk⟩

theorem negative {value : Datum} {n : Nat} (h : value.IsWhole (-n)) (hpos : 0 < n) (hlt : n < tenTo 14) :
    IsNormal .negative (ofNumber value) ("-" ++ Format.wholeText n) := by
  obtain ⟨hwrites, hsimple, hbare⟩ := number_negative h hpos hlt
  exact of_primary hwrites.toWritesAs rfl hsimple rfl rfl (minus hpos hlt) ⟨false, hbare, fun h => by cases h⟩

/-! ### Groups and signs -/

/-- A group around what is simple is written as that. -/
theorem simpleGroup (h : IsNormal k e text) (hsimple : e.isSimple {} = .ok true) :
    IsNormal k (fenced e parentheses) text := by
  have hk : k.isLeaf = true := by
    obtain ⟨b, hb, himp⟩ := h.simple
    rw [hsimple] at hb
    cases hb
    exact himp rfl
  have hlatex := latex_group hsimple h.writes.latex isSuperText_missing
  rw [String.append_empty] at hlatex
  obtain ⟨bare, -, -, hbase⟩ := h.bare
  exact {
    writes := ⟨hlatex, h.writes.faultless.fenced⟩
    simple := ⟨false, rfl, fun h => by cases h⟩
    bare := ⟨false, rfl, fun h => (by cases h), fun hk => (hbase hk).mono fun _ _ h => by cases h⟩
    base := fun _ => ⟨rfl, ⟨rfl, rfl⟩, h.writes.faultless.fenced, fun hs => latex_group_scripts hsimple h.writes.latex hs⟩
    chain := ⟨none, rfl, rfl, (h.primary (h.leaf hk)).chain _⟩
    leaf := fun _ => rfl }

/-- A group around anything else has parentheses. -/
theorem group (h : IsNormal k e text) (hk : k.isLeaf = false) :
    IsNormal .group (fenced e parentheses) (Expr.parenthesized text) := by
  refine of_base ⟨rfl, ⟨rfl, rfl⟩, h.writes.faultless.fenced, fun hs =>
    latex_group_scripts (h.isSimple_eq hk) h.writes.latex hs⟩ ⟨false, rfl, fun h => by cases h⟩ rfl ((h.parenthesized hk).mono ?_)
  rintro _ ⟨e', rfl⟩
  exact ⟨⟨rfl, fun _ _ => rfl⟩, fun h => by cases h⟩

theorem signed (h : IsNormal k e text) (s : Sign) (hk : k.isNumber = false) :
    IsNormal .other (before (.text s.name) e) (s.name ++ parenthesizedIf e.isPlainOperation text) := by
  refine of_primary ⟨latex_signed s h.writes.latex, h.writes.faultless.before _⟩ rfl rfl rfl rfl
    (((h.signOperand hk).signed s fun e' he => he s.name).mono ?_) ⟨false, rfl, fun h => by cases h⟩
  rintro _ ⟨e', rfl⟩
  exact ⟨rfl, fun _ _ => rfl⟩

theorem negated {value : Datum} {n : Nat} (h : value.IsWhole n) (hpos : 0 < n) (hlt : n < tenTo 14) :
    IsNormal .negative (before (.text "-") (fenced (ofNumber value) parentheses)) ("-" ++ Format.wholeText n) := by
  have hgroup := (long h hlt).simpleGroup (number_questions h hlt).1
  exact of_primary ⟨latex_signed .minus hgroup.writes.latex, hgroup.writes.faultless.before _⟩ rfl rfl rfl rfl
    (minus hpos hlt) ⟨false, rfl, fun h => by cases h⟩

/-! ### Operations, quotients and roots -/

theorem operation (hl : IsNormal k l left) (hr : IsNormal k' r right) (o : Infix) :
    ∃ text, IsNormal .other (between (.text o.name) l r) text := by
  obtain ⟨own, Q, hown, hleft⟩ := hl.operand o.precedence false (.text o.name)
  obtain ⟨own', Q', hown', hright⟩ := hr.operand o.precedence true (.text o.name)
  have hlatex := latex_infix o hl.writes.latex hr.writes.latex hown hown' isSuperText_missing
  rw [String.append_empty] at hlatex
  have hprecedence : (between (.text o.name) l r).precedence .builtin = .ok (some o.precedence) := by
    show (if ((Datum.text o.name).isText "/" || false) = true then _ else _) = _
    rw [o.isText_slash, if_neg (by decide), o.precedenceOf_name]
    rfl
  have hplain : (between (.text o.name) l r).isPlainOperation = true := by
    show (!(Datum.text o.name).isText "/" && true && true) = true
    rw [o.isText_slash]
    rfl
  exact ⟨_, {
    writes := ⟨hlatex, hl.writes.faultless.between hr.writes.faultless _⟩
    simple := ⟨false, rfl, fun h => by cases h⟩
    bare := ⟨false, congrArg Except.ok o.isText_slash, fun h => (by cases h), fun h => by cases h⟩
    base := fun h => by cases h
    chain := ⟨some o.precedence, hprecedence, hplain,
      (hleft.append o hright (fun _ hp => hp) (fun _ hp => hp) _).mono fun p hp => ⟨_, rfl, hp⟩⟩
    leaf := fun h => by cases h }⟩

/-- A node that is written as a bare operand. -/
theorem of_operand {Q : Expr → Prop} (hwrites : e.WritesAs text) (hplain : e.isPlainOperation = false)
    (hsimple : e.isSimple {} = .ok false) (hbare : e.isBareArgument {} = .ok true) (hoperand : NormalOperand Q text)
    (hQ : ∀ e', Q e' → e'.isSimple {} = .ok false ∧ (∀ sign, foldSign? sign e' = none) ∧ e'.isBareArgument {} = .ok true) :
    IsNormal .other e text :=
  of_primary hwrites hplain hsimple rfl rfl (hoperand.primary.mono fun e' he => ⟨(hQ e' he).1, fun _ => (hQ e' he).2.1⟩)
    ⟨true, hbare, fun _ => hoperand.mono fun e' he => (hQ e' he).2.2⟩

theorem fraction (hl : IsNormal k l left) (hr : IsNormal k' r right) :
    IsNormal .other (quotient l r) ("\\frac" ++ braced left ++ braced right) := by
  have hlatex := latex_fraction hl.writes.latex hr.writes.latex isSuperText_missing
  rw [String.append_empty] at hlatex
  refine of_operand ⟨hlatex, hl.writes.faultless.quotient hr.writes.faultless⟩ rfl rfl rfl (hl.whole.fraction hr.whole) ?_
  rintro _ ⟨n, d, rfl⟩
  exact ⟨rfl, fun _ => rfl, rfl⟩

theorem division (hl : IsNormal k l left) (hr : IsNormal k' r right) :
    IsNormal .other (between (.text "/") l r) ("\\frac" ++ braced left ++ braced right) := by
  have hlatex := latex_slash hl.writes.latex hr.writes.latex isSuperText_missing
  rw [String.append_empty] at hlatex
  refine of_operand ⟨hlatex, hl.writes.faultless.between hr.writes.faultless _⟩ rfl rfl rfl (hl.whole.fraction hr.whole) ?_
  rintro _ ⟨n, d, rfl⟩
  exact ⟨rfl, fun _ => rfl, rfl⟩

theorem root (h : IsNormal k e text) : IsNormal .other (squareRoot e) ("\\sqrt" ++ braced text) := by
  have hlatex := latex_root h.writes.latex isSuperText_missing
  rw [String.append_empty] at hlatex
  refine of_operand ⟨hlatex, h.writes.faultless.squareRoot⟩ rfl rfl rfl h.whole.root ?_
  rintro _ ⟨r, rfl⟩
  exact ⟨rfl, fun _ => rfl, rfl⟩

/-! ### Scripts and powers -/

/-- A node with scripts is neither simple nor a number that takes a sign. -/
theorem admits_scripted {Q : Expr → Prop} (h : IsScripted Q e) : TextShape.Admits .other e := by
  obtain ⟨b, s, s', -, hholds, rfl, hthere⟩ := h
  refine ⟨isSimple_withScripts (by cases b <;> first | rfl | cases hholds) hthere, fun _ sign => ?_⟩
  cases b with
  | number value =>
    show (if (s.isMissing && s'.isMissing) = true then _ else none) = none
    rw [hthere]
    rfl
  | symbol | group | call => rfl
  | _ => cases hholds

theorem scripts (h : IsNormal k e text) (hk : k.takesScripts = true) {s s' : Expr} {above below : String}
    (hsup : WritesScript .super s above) (hsub : WritesScript .sub s' below) (hsup' : NormalScript .super above)
    (hsub' : NormalScript .sub below) (hthere : above ≠ "" ∨ below ≠ "") :
    IsNormal .other (e.withScripts s s') (text ++ (below ++ above)) := by
  have hwrites := h.base hk
  have hnode := hwrites.faultless.isNode
  obtain ⟨bare, hbare, -, hbase⟩ := h.bare
  have hscripts : (s.isMissing && s'.isMissing) = false := by
    rw [Bool.and_eq_false_iff, Bool.eq_false_iff, Bool.eq_false_iff, ne_eq, ne_eq, hsup.isMissing_iff, hsub.isMissing_iff]
    exact hthere
  have hread := (hbase hk).scripted hsup' hsub' hthere
  have hplain : (e.withScripts s s').isPlainOperation = false := by
    have hholds := hwrites.holds
    cases e <;> first | rfl | cases hholds
  refine of_primary ⟨hwrites.latex (hsup.areScriptTexts hsub), hwrites.faultless.withScripts hsup.faultless hsub.faultless⟩
    hplain (isSimple_withScripts hnode hscripts) rfl rfl (hread.primary.mono fun _ he => admits_scripted he)
    ⟨bare, by rw [isBareArgument_withScripts, hbare], fun hb => hread.mono ?_⟩
  rintro _ ⟨b, t, t', hb', -, rfl, -⟩
  rw [isBareArgument_withScripts]
  exact hb' hb

/-- A part as a script of its kind. -/
theorem script (h : IsNormal k e text) (kind : Source.Script) : WritesScript kind e (kind.sign ++ braced text) ∧
    NormalScript kind (kind.sign ++ braced text) ∧ kind.sign ++ braced text ≠ "" := by
  have hwrites : WritesScript kind e (kind.sign ++ braced text) := .written h.writes
  refine ⟨hwrites, h.whole.script kind, fun heq => ?_⟩
  have := hwrites.isMissing_iff.mpr heq
  rw [h.writes.faultless.isMissing] at this
  cases this

/-- **Powers**, whose base is a leaf or in parentheses. -/
theorem power (hb : IsNormal k l left) (hk : k.isLeaf = true → k.takesScripts = true ∧ l.isSimple {} = .ok true)
    (hx : IsNormal k' r right) : ∃ text, IsNormal .other (apply "pow" (tuple [l, r])) text := by
  obtain ⟨-, hscript, hne⟩ := hx.script .super
  obtain ⟨simple, hsimple, himp⟩ := hb.simple
  have hbase : ∃ Q, NormalBase Q (if simple then left else Expr.parenthesized left) := by
    cases simple with
    | true =>
      obtain ⟨bare, -, -, hbase⟩ := hb.bare
      exact ⟨_, hbase (hk (himp rfl)).1⟩
    | false =>
      have hleaf : k.isLeaf = false := by
        rw [Bool.eq_false_iff]
        intro hleaf
        have := (hk hleaf).2
        rw [hsimple] at this
        cases this
      exact ⟨_, hb.parenthesized hleaf⟩
  obtain ⟨Q, hbase⟩ := hbase
  have hread := hbase.scripted hscript (.empty .sub) (.inl hne)
  rw [String.empty_append] at hread
  refine ⟨_, of_primary ⟨latex_power hsimple hb.writes.latex hx.writes.latex,
    hb.writes.faultless.power hx.writes.faultless⟩ rfl rfl rfl rfl (hread.primary.mono fun _ he => admits_scripted he)
    ⟨false, rfl, fun h => by cases h⟩⟩

/-! ### Functions -/

/-- A call is read as a call. -/
theorem of_call {name : String} {Q : Expr → Prop} (hlatex : (apply name e).latex {} .builtin = .ok text)
    (he : e.Faultless) (hread : NormalPrimary Q text) (hQ : ∀ e', Q e' → ∃ argument, e' = apply name argument) :
    IsNormal .other (apply name e) text := by
  refine of_primary ⟨hlatex, he.apply _⟩ rfl rfl rfl rfl (hread.mono fun e' he' => ?_) ⟨false, rfl, fun h => by cases h⟩
  obtain ⟨argument, rfl⟩ := hQ e' he'
  exact ⟨rfl, fun _ _ => rfl⟩

theorem function (h : IsNormal k e text) {name : String} (hname : name ∈ Catalog.commandFunctions)
    (hok : k.isLeaf = true ∨ looseFunctions.contains name = true ∧ e.isBareArgument {} = .ok true) :
    ∃ text, IsNormal .other (apply name e) text := by
  obtain ⟨bare, hbare, hargument⟩ := h.argument _ hok
  exact ⟨_, of_call (latex_command hname h.writes.faultless.isNode hbare h.writes.latex) h.writes.faultless
    (hargument.applied hname) fun _ he => he⟩

theorem factorial (h : IsNormal k e text) (hok : k.isLeaf = true ∨ e.isBareArgument {} = .ok true) :
    ∃ text, IsNormal .other (apply "factorial" e) text := by
  obtain ⟨bare, hbare, hargument⟩ := h.argument true (hok.imp_right fun hb => ⟨rfl, hb⟩)
  rw [Bool.true_and] at hargument
  exact ⟨_, of_call (latex_factorial h.writes.faultless.isNode hbare h.writes.latex) h.writes.faultless
    hargument.factorial fun _ he => he⟩

theorem enclosed (h : IsNormal k e text) (f : Enclosure) : IsNormal .other (apply f.name e) (f.around text) :=
  of_call (latex_enclosure f h.writes.faultless.isNode h.writes.latex) h.writes.faultless (h.whole.enclosed f).primary
    fun _ he => he

end IsNormal

/-- **A steady expression is written as a text in normal form.** -/
theorem Steady.isNormal {k : TextShape} {e : Expr} (h : Steady k e) : ∃ text, IsNormal k e text := by
  induction h with
  | letter hd => exact ⟨_, .letter hd⟩
  | short h hlt => exact ⟨_, .short h hlt⟩
  | long h hlt => exact ⟨_, .long h hlt⟩
  | negative h hpos hlt => exact ⟨_, .negative h hpos hlt⟩
  | simple _ hsimple ih => exact ih.elim fun _ h => ⟨_, h.simpleGroup hsimple⟩
  | group _ hk ih => exact ih.elim fun _ h => ⟨_, h.group hk⟩
  | operation o _ _ ihl ihr => exact ihl.elim fun _ hl => ihr.elim fun _ hr => hl.operation hr o
  | division _ _ ihl ihr => exact ihl.elim fun _ hl => ihr.elim fun _ hr => ⟨_, hl.division hr⟩
  | fraction _ _ ihl ihr => exact ihl.elim fun _ hl => ihr.elim fun _ hr => ⟨_, hl.fraction hr⟩
  | root _ ih => exact ih.elim fun _ h => ⟨_, h.root⟩
  | signed s _ hk ih => exact ih.elim fun _ h => ⟨_, h.signed s hk⟩
  | negated h hpos hlt => exact ⟨_, .negated h hpos hlt⟩
  | superscript _ hk _ ih ihs =>
    obtain ⟨_, h⟩ := ih
    obtain ⟨_, hs⟩ := ihs
    obtain ⟨hwrites, hnormal, hne⟩ := hs.script .super
    exact ⟨_, h.scripts hk hwrites .absent hnormal (.empty .sub) (.inl hne)⟩
  | subscript _ hk _ ih ihs =>
    obtain ⟨_, h⟩ := ih
    obtain ⟨_, hs⟩ := ihs
    obtain ⟨hwrites, hnormal, hne⟩ := hs.script .sub
    exact ⟨_, h.scripts hk .absent hwrites (.empty .super) hnormal (.inr hne)⟩
  | scripts _ hk _ _ ih ihs ihs' =>
    obtain ⟨_, h⟩ := ih
    obtain ⟨_, hs⟩ := ihs
    obtain ⟨_, hs'⟩ := ihs'
    obtain ⟨hwrites, hnormal, hne⟩ := hs.script .super
    obtain ⟨hwrites', hnormal', -⟩ := hs'.script .sub
    exact ⟨_, h.scripts hk hwrites hwrites' hnormal hnormal' (.inl hne)⟩
  | power _ hk _ ihb ihx => exact ihb.elim fun _ hb => ihx.elim fun _ hx => hb.power hk hx
  | function hname _ hok ih => exact ih.elim fun _ h => h.function hname hok
  | factorial _ hok ih => exact ih.elim fun _ h => h.factorial hok
  | enclosed f _ ih => exact ih.elim fun _ h => ⟨_, h.enclosed f⟩

end Formula
