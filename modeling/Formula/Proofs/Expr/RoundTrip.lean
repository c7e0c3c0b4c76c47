import Mathlib.Algebra.Field.ULift
import Formula.Proofs.Expr.Value
import Formula.Proofs.Expr.Writing

/-!
# Arithmetic through its text

An arithmetic expression that is written and read again has the value that it had, in every field and for all meanings
of its symbols, powers, roots and functions.  The tree need not be the same: parentheses become groups, a sum on the
right of a sum is read as one on its left, and a sign goes to the number behind it.

The proof goes by induction over the tree.  What is shown of a node is how it is written and what its text is read as
(`Rereads`): as a chain always, and as an operand, or an operand that takes a superscript, where it may stand without
parentheses as one.
-/

namespace Formula

open Number Text Expr

universe u

/-! ### Arithmetic expressions -/

/-- The expression is a call of a function. -/
def Expr.isCall : Expr → Bool
  | call .. => true
  | _ => false

/-- The functions of one argument that arithmetic has. -/
def arithmeticFunctions : List String := Catalog.commandFunctions ++ ["factorial", "abs", "norm", "floor", "ceil"]

/-- Arithmetic expressions: whole numbers of less than fifteen digits, letters, and what is built from them.  Every node
but a call may carry a superscript. -/
inductive Arithmetic : Expr → Prop
  | number {value : Datum} {n : Int} : value.IsWhole n → n.natAbs < tenTo 14 → Arithmetic (ofNumber value)
  | letter {d : Char} : d.isAlpha = true → Arithmetic (ofSymbol (.text d.toString) .null)
  | group {e : Expr} : Arithmetic e → Arithmetic (fenced e parentheses)
  | operation (o : Operation) {l r : Expr} : Arithmetic l → Arithmetic r → Arithmetic (between (.text o.name) l r)
  | division {n d : Expr} : Arithmetic n → Arithmetic d → Arithmetic (between (.text "/") n d)
  | signed (s : Sign) {e : Expr} : Arithmetic e → Arithmetic (before (.text s.name) e)
  | fraction {n d : Expr} : Arithmetic n → Arithmetic d → Arithmetic (quotient n d)
  | root {e : Expr} : Arithmetic e → Arithmetic (squareRoot e)
  | power {b x : Expr} : Arithmetic b → Arithmetic x → Arithmetic (apply "pow" (tuple [b, x]))
  | function {name : String} {e : Expr} : name ∈ arithmeticFunctions → Arithmetic e → Arithmetic (apply name e)
  | raised {e s : Expr} : Arithmetic e → e.isCall = false → e.sup = missing → Arithmetic s →
    Arithmetic (e.withScripts s missing)

/-! ### Texts and values -/

/-- Both expressions have a value in every field, and it is the same one. -/
def SameValue (t e : Expr) : Prop :=
  ∀ (K : Type u) [Field K] (I : Interpretation K), ∃ x, value I t = some x ∧ value I e = some x

/-- The text is an operand of the value of `t`, and takes a superscript. -/
def ReadsAsBase (t : Expr) (text : String) : Prop :=
  ∃ e, IsBaseText text e ∧ e.sup = missing ∧ e.sub = missing ∧ SameValue.{u} t e

/-- The text is an operand of the value of `t`. -/
def ReadsAsOperand (t : Expr) (text : String) : Prop := ∃ e, IsOperandText text e ∧ SameValue.{u} t e

/-- The text is a primary of the value of `t`. -/
def ReadsAsPrimary (t : Expr) (text : String) : Prop := ∃ e, IsPrimaryText text e ∧ SameValue.{u} t e

/-- The text is a chain of the value of `t`, and its operators are as `P` says. -/
def ReadsAsChain (t : Expr) (text : String) (P : Int → Prop) : Prop :=
  ∃ first links, IsChainText text first links ∧ (∀ link ∈ links, P link.precedence) ∧
    ∀ (K : Type u) [Field K] (I : Interpretation K), ∃ x, value I first = some x ∧
      (∀ link ∈ links, ∃ o, link.IsOperation I o) ∧ value I t = some (climb (valueOr I) 0 x links)

/-- The text is a whole of the value of `t`. -/
def ReadsAsWhole (t : Expr) (text : String) : Prop := ∃ e, IsWholeText text e ∧ SameValue.{u} t e

section Texts

variable {t : Expr} {text : String}

theorem SameValue.node {e : Expr} (h : SameValue.{u} t e) : e.isMissing = false := by
  obtain ⟨x, -, he⟩ := h (ULift Rat) ⟨fun _ _ => 0, fun _ _ => 0, fun _ => 0, fun _ _ => 0⟩
  exact isMissing_of_value he

theorem ReadsAsBase.operand (h : ReadsAsBase.{u} t text) : ReadsAsOperand.{u} t text := by
  obtain ⟨e, he, -, -, hsame⟩ := h
  exact ⟨e, he.isOperandText hsame.node, hsame⟩

theorem ReadsAsOperand.primary (h : ReadsAsOperand.{u} t text) : ReadsAsPrimary.{u} t text := by
  obtain ⟨e, he, hsame⟩ := h
  exact ⟨e, he.isPrimaryText, hsame⟩

/-- A primary is a chain without operators. -/
theorem ReadsAsPrimary.chain (h : ReadsAsPrimary.{u} t text) (P : Int → Prop) : ReadsAsChain.{u} t text P := by
  obtain ⟨e, he, hsame⟩ := h
  refine ⟨e, [], he.isChainText, fun _ h => (by cases h), fun K _ I => ?_⟩
  obtain ⟨x, ht, hx⟩ := hsame K I
  exact ⟨x, hx, fun _ h => (by cases h), by rw [ht, climb, zero_add]⟩

theorem ReadsAsChain.mono {P Q : Int → Prop} (h : ReadsAsChain.{u} t text P) (himp : ∀ p, P p → Q p) :
    ReadsAsChain.{u} t text Q := by
  obtain ⟨first, links, he, hlinks, hvalue⟩ := h
  exact ⟨first, links, he, fun link hl => himp _ (hlinks link hl), hvalue⟩

/-- A chain that may have no operators is a primary. -/
theorem ReadsAsChain.primary {P : Int → Prop} (h : ReadsAsChain.{u} t text P) (hnone : ∀ p, ¬P p) :
    ReadsAsPrimary.{u} t text := by
  obtain ⟨first, links, he, hlinks, hvalue⟩ := h
  obtain rfl : links = [] := List.eq_nil_iff_forall_not_mem.mpr fun link hl => hnone _ (hlinks link hl)
  refine ⟨first, he.isPrimaryText, fun K _ I => ?_⟩
  obtain ⟨x, hx, -, ht⟩ := hvalue K I
  rw [climb, zero_add] at ht
  exact ⟨x, ht, hx⟩

/-- **The tree of a chain has the value of the chain.** -/
theorem ReadsAsChain.arranged {P : Int → Prop} (h : ReadsAsChain.{u} t text P) : ∃ first links e,
    IsChainText text first links ∧ Arranges first links e ∧ SameValue.{u} t e := by
  obtain ⟨first, links, he, -, hvalue⟩ := h
  obtain ⟨e, harranged, -⟩ := he.arranged
  refine ⟨first, links, e, he, harranged, fun K _ I => ?_⟩
  obtain ⟨x, hx, hlinks, ht⟩ := hvalue K I
  exact ⟨_, ht, harranged.value hx hlinks⟩

theorem ReadsAsChain.whole {P : Int → Prop} (h : ReadsAsChain.{u} t text P) : ReadsAsWhole.{u} t text := by
  obtain ⟨first, links, e, he, harranged, hsame⟩ := h.arranged
  exact ⟨e, he.isWholeText harranged, hsame⟩

/-- In parentheses every text takes a superscript. -/
theorem ReadsAsChain.parenthesized {P : Int → Prop} (h : ReadsAsChain.{u} t text P) :
    ReadsAsBase.{u} t (parenthesized text) := by
  obtain ⟨first, links, e, he, harranged, hsame⟩ := h.arranged
  exact ⟨_, he.parenthesized harranged, rfl, rfl, hsame⟩

/-- **A text with a superscript behind it is the power of both values.** -/
theorem ReadsAsBase.raised (h : ReadsAsBase.{u} t text) {s : Expr} {script : String} (hs : ReadsAsWhole.{u} s script) :
    ∃ e, IsOperandText (text ++ ("^" ++ braced script)) e ∧ ∀ (K : Type u) [Field K] (I : Interpretation K),
      ∃ x y, value I t = some x ∧ value I s = some y ∧ value I e = some (I.power x y) := by
  obtain ⟨e, he, hsup, hsub, hsame⟩ := h
  obtain ⟨e', he', hsame'⟩ := hs
  refine ⟨_, he.raised hsame.node he', fun K _ I => ?_⟩
  obtain ⟨x, hx, hx'⟩ := hsame K I
  obtain ⟨y, hy, hy'⟩ := hsame' K I
  exact ⟨x, y, hx, hy, value_attach hx' hy' hsup hsub⟩

end Texts

namespace Expr

/-- The value of a function of one argument. -/
theorem value_apply {K : Type u} [Field K] {I : Interpretation K} {e : Expr} {x : K} (h : value I e = some x)
    (name : String) : value I (apply name e) = some (I.function (.text name) x) := by
  have happlied : I.applied (.text name) [value I e] = some (I.function (.text name) x) := by
    rw [h]
    rfl
  rw [← happlied]
  cases e <;> first | rfl | cases h

end Expr

/-! ### Nodes and their texts -/

/-- How a node is written, and what its text is read as.  The operators of its chain bind as tight as its own operator; if it
is no operation, there are none. -/
structure Rereads (t : Expr) (text : String) : Prop where
  latex : t.latex {} .builtin = .ok text
  node : t.isNode = true
  sub : t.sub = missing
  simple : ∃ b, t.isSimple {} = .ok b ∧ (b = true → ReadsAsBase.{u} t text)
  bare : ∃ b, t.isBareArgument {} = .ok b ∧ (b = true → ReadsAsOperand.{u} t text)
  chain : ∃ own, t.precedence .builtin = .ok own ∧ t.isPlainOperation = own.isSome ∧
    ReadsAsChain.{u} t text fun p => ∃ q, own = some q ∧ q ≤ p
  /-- A node without a superscript takes one. -/
  raised : t.isCall = false → t.sup = missing → ∃ base, ReadsAsBase.{u} t base ∧ ∀ s script, s.isMissing = false →
    s.latex {} .builtin = .ok script → (t.withScripts s missing).latex {} .builtin = .ok (base ++ ("^" ++ braced script))

namespace Rereads

variable {t : Expr} {text : String}

theorem base (h : Rereads.{u} t text) : ReadsAsBase.{u} t (parenthesized text) := by
  obtain ⟨own, -, -, hchain⟩ := h.chain
  exact hchain.parenthesized

theorem whole (h : Rereads.{u} t text) : ReadsAsWhole.{u} t text := by
  obtain ⟨own, -, -, hchain⟩ := h.chain
  exact hchain.whole

/-- What is in parentheses unless it is simple takes a superscript. -/
theorem tight (h : Rereads.{u} t text) : ∃ simple, t.isSimple {} = .ok simple ∧
    ReadsAsBase.{u} t (if simple then text else parenthesized text) := by
  obtain ⟨simple, hsimple, hbase⟩ := h.simple
  refine ⟨simple, hsimple, ?_⟩
  cases simple with
  | true => exact hbase rfl
  | false => exact h.base

/-- What is in parentheses unless it is bare is an operand. -/
theorem argument (h : Rereads.{u} t text) (loose : Bool) : ∃ bare, t.isBareArgument {} = .ok bare ∧
    ReadsAsOperand.{u} t (if loose && bare then text else parenthesized text) := by
  obtain ⟨bare, hbare, hoperand⟩ := h.bare
  refine ⟨bare, hbare, ?_⟩
  split
  · rename_i hboth
    exact hoperand (Bool.and_eq_true_iff.mp hboth).2
  · exact h.base.operand

/-- **An operand of an operation has only operators that bind tighter**, or as tight where that does no harm. -/
theorem operand (h : Rereads.{u} t text) (around : Int) (right : Bool) (op : Datum) : ∃ own,
    t.precedence .builtin = .ok own ∧ ReadsAsChain.{u} t (operandLatex own around right op text) fun p =>
      around ≤ p ∧ (right = true → isSubtractive op = true → around < p) := by
  obtain ⟨own, hown, -, hchain⟩ := h.chain
  refine ⟨own, hown, ?_⟩
  rcases operandLatex_cases own around right op text with ⟨-, htext⟩ | ⟨htext, hown⟩ <;> rw [htext]
  · exact h.base.operand.primary.chain _
  · refine hchain.mono fun p ⟨q, hq, hle⟩ => ?_
    obtain ⟨haround, htight⟩ := hown q hq
    exact ⟨haround.trans hle, fun hright hsubtractive => (htight hright hsubtractive).trans_le hle⟩

/-- The operand of a sign is in parentheses if it is an operation. -/
theorem signOperand (h : Rereads.{u} t text) : ReadsAsPrimary.{u} t (parenthesizedIf t.isPlainOperation text) := by
  obtain ⟨own, -, hplain, hchain⟩ := h.chain
  rw [hplain]
  cases own with
  | none => exact hchain.primary fun p ⟨q, hq, _⟩ => by cases hq
  | some q => exact h.base.operand.primary

/-- A node that is no operation and not simple. -/
theorem of_primary (hlatex : t.latex {} .builtin = .ok text) (hnode : t.isNode = true) (hsub : t.sub = missing)
    (hsimple : t.isSimple {} = .ok false) (hplain : t.isPlainOperation = false) (hprimary : ReadsAsPrimary.{u} t text)
    (hbare : ∃ b, t.isBareArgument {} = .ok b ∧ (b = true → ReadsAsOperand.{u} t text))
    (hraised : t.isCall = false → t.sup = missing → ∃ base, ReadsAsBase.{u} t base ∧ ∀ s script, s.isMissing = false →
      s.latex {} .builtin = .ok script →
        (t.withScripts s missing).latex {} .builtin = .ok (base ++ ("^" ++ braced script))) : Rereads.{u} t text where
  latex := hlatex
  node := hnode
  sub := hsub
  simple := ⟨false, hsimple, fun h => by cases h⟩
  bare := hbare
  chain := ⟨none, precedence_eq_none hplain, hplain, hprimary.chain _⟩
  raised := hraised

end Rereads

/-! ### Leaves -/

/-- A whole number in a field. -/
theorem valueOf_whole {value : Datum} {n : Int} (h : value.IsWhole n) (hlt : n.natAbs < tenTo 14) (K : Type u) [Field K] :
    valueOf K value = some (n : K) := by
  have hcast : ∀ x : Double, x.toRat? = some (n : Rat) → valueOf K (.float x) = some (n : K) := by
    intro x hx
    show x.toRat?.map (fun q : Rat => (q : K)) = _
    rw [hx]
    exact congrArg some (Rat.cast_intCast n)
  cases h with
  | int => rfl
  | float => exact hcast _ (Double.toRat?_ofInt (Nat.lt_trans hlt (by decide)))
  | minusZero => exact hcast _ (Double.zero_toRat? true Double.minExponent)

/-- The digits of a whole number take a superscript. -/
theorem readsAsBase_whole {value : Datum} {n : Nat} (h : value.IsWhole n) (hlt : n < tenTo 14) :
    ReadsAsBase.{u} (ofNumber value) (Format.wholeText n) := by
  have hlt' : (n : Int).natAbs < tenTo 14 := by rwa [Int.natAbs_natCast]
  refine ⟨_, isBaseText_whole (Nat.lt_trans hlt (by decide)), rfl, rfl, fun K _ I => ⟨((n : Int) : K), ?_, ?_⟩⟩
  · exact valueOf_whole h hlt' K
  · exact valueOf_whole (.float n) hlt' K

/-- A minus in front of digits is read as one of the number. -/
theorem readsAsPrimary_minus {value : Datum} {n : Int} (h : value.IsWhole n) (hlt : n.natAbs < tenTo 14) (hneg : n < 0) :
    ReadsAsPrimary.{u} (ofNumber value) ("-" ++ Format.wholeText n.natAbs) := by
  have hprimary := ((isBaseText_whole (Nat.lt_trans hlt (by decide))).isOperandText rfl).isPrimaryText
  refine ⟨_, hprimary.signed Sign.minus, fun K _ I => ⟨(n : K), valueOf_whole h hlt K, ?_⟩⟩
  have hnumber : Expr.value I (ofNumber (.float (.ofInt n.natAbs))) = some (((n.natAbs : Int)) : K) :=
    valueOf_whole (.float (n.natAbs : Int)) (by rwa [Int.natAbs_natCast]) K
  have hvalue : (Sign.minus.on (((n.natAbs : Int)) : K)) = (n : K) := by
    show -(((n.natAbs : Int)) : K) = n
    rw [Int.ofNat_natAbs_of_nonpos hneg.le, Int.cast_neg, neg_neg]
  rw [← hvalue]
  exact value_withSign hnumber

/-- **Whole numbers.** -/
theorem rereads_number {value : Datum} {n : Int} (h : value.IsWhole n) (hlt : n.natAbs < tenTo 14) :
    ∃ text, Rereads.{u} (ofNumber value) text := by
  have hlatex := latex_whole h hlt
  have hsimple := isSimple_whole h hlt
  have hbare := isBareArgument_whole h hlt
  have hraised : ∀ s script, s.isMissing = false → s.latex {} .builtin = .ok script →
      ((ofNumber value).withScripts s missing).latex {} .builtin = .ok (parenthesizedIf
        (decide (n < 0) || holds (Format.signText n ++ Format.wholeText n.natAbs) "\\")
        (Format.signText n ++ Format.wholeText n.natAbs) ++ ("^" ++ braced script)) := by
    intro s script hthere hs
    have := latex_number (Format.number_whole h hlt) (isSuperText_of_latex hthere hs)
    rwa [hthere, Bool.not_false, Bool.true_and, Format.beginsWith_signText] at this
  refine ⟨Format.signText n ++ Format.wholeText n.natAbs, ?_⟩
  by_cases hneg : n < 0
  · have hsign : Format.signText n = "-" := if_pos hneg
    have hprimary := readsAsPrimary_minus h hlt hneg
    rw [decide_eq_true hneg] at hsimple hbare hraised
    rw [hsign] at hlatex hraised ⊢
    exact .of_primary hlatex rfl rfl hsimple rfl hprimary ⟨false, hbare, fun h => by cases h⟩ fun _ _ =>
      ⟨_, (hprimary.chain fun _ => True).parenthesized, hraised⟩
  · obtain ⟨m, rfl⟩ := Int.eq_ofNat_of_zero_le (Int.not_lt.mp hneg)
    have hsign : Format.signText m = "" := if_neg hneg
    have hbase := readsAsBase_whole h hlt
    rw [decide_eq_false hneg] at hsimple hbare hraised
    rw [hsign, String.empty_append] at hlatex hraised ⊢
    rw [Int.natAbs_natCast] at *
    refine ⟨hlatex, rfl, rfl, ⟨true, hsimple, fun _ => hbase⟩, ⟨true, hbare, fun _ => hbase.operand⟩,
      ⟨none, rfl, rfl, hbase.operand.primary.chain _⟩, fun _ _ => ⟨_, ?_, hraised⟩⟩
    unfold parenthesizedIf
    split
    · exact (hbase.operand.primary.chain fun _ => True).parenthesized
    · exact hbase

/-- **Letters.** -/
theorem rereads_letter {d : Char} (hd : d.isAlpha = true) :
    Rereads.{u} (ofSymbol (.text d.toString) .null) d.toString := by
  have hbase : ReadsAsBase.{u} (ofSymbol (.text d.toString) .null) d.toString :=
    ⟨_, isBaseText_letter hd, rfl, rfl, fun K _ I => ⟨I.symbol (.text d.toString) .null, rfl, rfl⟩⟩
  have hlatex := @latex_letter {} d hd missing "" isSuperText_missing
  rw [String.append_empty] at hlatex
  exact ⟨hlatex, rfl, rfl, ⟨true, rfl, fun _ => hbase⟩, ⟨true, rfl, fun _ => hbase.operand⟩,
    ⟨none, rfl, rfl, hbase.operand.primary.chain _⟩,
    fun _ _ => ⟨_, hbase, fun s script hthere hs => latex_letter hd (isSuperText_of_latex hthere hs)⟩⟩

namespace Rereads

variable {e l r : Expr} {text left right : String}

/-! ### Groups, signs and operations -/

/-- **Groups.** -/
theorem group (h : Rereads.{u} e text) : ∃ text', Rereads.{u} (fenced e parentheses) text' := by
  obtain ⟨simple, hsimple, e', he', hsup, hsub, hsame⟩ := h.tight
  -- a group has the value of what it holds
  have hbase : ReadsAsBase.{u} (fenced e parentheses) (if simple then text else parenthesized text) :=
    ⟨e', he', hsup, hsub, hsame⟩
  have hlatex := latex_group hsimple h.latex isSuperText_missing
  rw [String.append_empty] at hlatex
  exact ⟨_, .of_primary hlatex rfl rfl rfl rfl hbase.operand.primary ⟨false, rfl, fun h => by cases h⟩ fun _ _ =>
    ⟨_, hbase, fun s script hthere hs => latex_group hsimple h.latex (isSuperText_of_latex hthere hs)⟩⟩

/-- A node that is in parentheses if it carries a superscript. -/
theorem of_parenthesized {t : Expr} (hlatex : ∀ {s script}, IsSuperText {} s script →
      (t.withScripts s missing).latex {} .builtin = .ok (parenthesizedIf (!s.isMissing) text ++ script))
    (hnode : t.isNode = true) (hsup : t.withScripts missing missing = t) (hsub : t.sub = missing)
    (hsimple : t.isSimple {} = .ok false) (hplain : t.isPlainOperation = false) (hprimary : ReadsAsPrimary.{u} t text)
    (hbare : ∃ b, t.isBareArgument {} = .ok b ∧ (b = true → ReadsAsOperand.{u} t text)) : Rereads.{u} t text := by
  have hown := hlatex isSuperText_missing
  rw [String.append_empty, hsup] at hown
  refine .of_primary hown hnode hsub hsimple hplain hprimary hbare fun _ _ =>
    ⟨_, (hprimary.chain fun _ => True).parenthesized, fun s script hthere hs => ?_⟩
  have := hlatex (isSuperText_of_latex hthere hs)
  rwa [hthere] at this

/-- **Signs in front.** -/
theorem signed (h : Rereads.{u} e text) (sign : Sign) : ∃ text', Rereads.{u} (before (.text sign.name) e) text' := by
  obtain ⟨e', he', hsame⟩ := h.signOperand
  refine ⟨_, .of_parenthesized (fun hs => latex_before h.latex hs) rfl rfl rfl rfl rfl
    ⟨_, he'.signed sign, fun K _ I => ?_⟩ ⟨false, rfl, fun h => by cases h⟩⟩
  obtain ⟨x, hx, hx'⟩ := hsame K I
  exact ⟨_, value_before hx, value_withSign hx'⟩

/-- **Quotients**, which are written as fractions. -/
theorem readsAsFraction (hn : Rereads.{u} l left) (hd : Rereads.{u} r right) {t : Expr}
    (hvalue : ∀ {K : Type u} [Field K] {I : Interpretation K} {x y : K}, value I l = some x → value I r = some y →
      value I t = some (x / y)) : ReadsAsOperand.{u} t ("\\frac" ++ braced left ++ braced right) := by
  obtain ⟨n, hn, hsame⟩ := hn.whole
  obtain ⟨d, hd, hsame'⟩ := hd.whole
  refine ⟨_, hn.fraction hd, fun K _ I => ?_⟩
  obtain ⟨x, hx, hx'⟩ := hsame K I
  obtain ⟨y, hy, hy'⟩ := hsame' K I
  refine ⟨_, hvalue hx hy, ?_⟩
  show (do return (← value I n) / (← value I d)) = _
  rw [hx', hy']
  rfl

theorem fraction (hn : Rereads.{u} l left) (hd : Rereads.{u} r right) : ∃ text', Rereads.{u} (quotient l r) text' := by
  have hread : ReadsAsOperand.{u} (quotient l r) _ := hn.readsAsFraction hd fun {K _ I x y} hx hy => by
    show (do return (← value I l) / (← value I r)) = _
    rw [hx, hy]
    rfl
  exact ⟨_, .of_parenthesized (fun hs => latex_fraction hn.latex hd.latex hs) rfl rfl rfl rfl rfl hread.primary
    ⟨true, rfl, fun _ => hread⟩⟩

theorem division (hn : Rereads.{u} l left) (hd : Rereads.{u} r right) :
    ∃ text', Rereads.{u} (between (.text "/") l r) text' := by
  have hread : ReadsAsOperand.{u} (between (.text "/") l r) _ := hn.readsAsFraction hd fun {K _ I x y} hx hy => by
    show (do operationValue (.text "/") (← value I l) (← value I r)) = _
    rw [hx, hy]
    rfl
  exact ⟨_, .of_parenthesized (fun hs => latex_slash hn.latex hd.latex hs) rfl rfl rfl rfl rfl hread.primary
    ⟨true, rfl, fun _ => hread⟩⟩

/-- Two chains with an operation between them are one chain, of the value of the operation: their operators bind at least as
tight as it does, and tighter behind a minus. -/
theorem readsAsOperation {o : Operation} (hl : ReadsAsChain.{u} l left fun p => o.precedence ≤ p)
    (hr : ReadsAsChain.{u} r right fun p => o.precedence ≤ p ∧ (o = .difference → o.precedence < p)) :
    ReadsAsChain.{u} (between (.text o.name) l r) (left ++ (o.sign ++ right)) fun p => o.precedence ≤ p := by
  obtain ⟨first, links, he, hlinks, hvalue⟩ := hl
  obtain ⟨first', links', he', hlinks', hvalue'⟩ := hr
  obtain ⟨start, hchain⟩ := he.append o he'
  have hmember : ∀ {Q : Link → Prop}, (∀ link ∈ links, Q link) →
      Q ⟨o.atom, start, .text o.name, o.precedence, first'⟩ → (∀ link ∈ links', Q link) →
      ∀ link ∈ links ++ ⟨o.atom, start, .text o.name, o.precedence, first'⟩ :: links', Q link := fun h hown h' =>
    List.forall_mem_append.mpr ⟨h, List.forall_mem_cons.mpr ⟨hown, h'⟩⟩
  refine ⟨first, _, hchain, hmember hlinks (le_refl _) fun link hl => (hlinks' link hl).1, fun K _ I => ?_⟩
  obtain ⟨x, hx, hoperations, hleft⟩ := hvalue K I
  obtain ⟨y, hy, hoperations', hright⟩ := hvalue' K I
  have hown : Link.IsOperation I o ⟨o.atom, start, .text o.name, o.precedence, first'⟩ := ⟨rfl, rfl, y, hy⟩
  refine ⟨x, hx, hmember hoperations ⟨o, hown⟩ hoperations', ?_⟩
  rw [value_between hleft hright, climb_operation hown hy (fun link hl => ⟨hoperations link hl, hlinks link hl⟩)
    fun link hl => ⟨hoperations' link hl, hlinks' link hl⟩]

/-- **Sums, differences and products.** -/
theorem operation (hl : Rereads.{u} l left) (hr : Rereads.{u} r right) (o : Operation) :
    ∃ text', Rereads.{u} (between (.text o.name) l r) text' := by
  obtain ⟨own, hown, hleft⟩ := hl.operand o.precedence false (.text o.name)
  obtain ⟨own', hown', hright⟩ := hr.operand o.precedence true (.text o.name)
  have hread := readsAsOperation (hleft.mono fun p hp => hp.1)
    (hright.mono fun p hp => ⟨hp.1, fun hdifference => hp.2 rfl (by rw [hdifference]; rfl)⟩)
  have hslash : (Datum.text o.name).isText "/" = false := by cases o <;> rfl
  have hprecedence : (between (.text o.name) l r).precedence .builtin = .ok (some o.precedence) := by
    show (if ((Datum.text o.name).isText "/" || false) = true then _ else _) = _
    rw [hslash, if_neg (by decide), o.precedenceOf_name]
    rfl
  have hplain : (between (.text o.name) l r).isPlainOperation = true := by
    show (!(Datum.text o.name).isText "/" && true && true) = true
    rw [hslash]
    rfl
  have hlatex := latex_between o hl.latex hr.latex hown hown' isSuperText_missing
  rw [String.append_empty] at hlatex
  exact ⟨_, hlatex, rfl, rfl, ⟨false, rfl, fun h => by cases h⟩,
    ⟨false, congrArg Except.ok hslash, fun h => by cases h⟩,
    ⟨_, hprecedence, hplain, hread.mono fun p hp => ⟨_, rfl, hp⟩⟩, fun _ _ => ⟨_, hread.parenthesized, fun s script hthere hs => by
      have := latex_between o hl.latex hr.latex hown hown' (isSuperText_of_latex hthere hs)
      rwa [hthere] at this⟩⟩

/-! ### Roots, powers and functions -/

/-- **Square roots.** -/
theorem root (h : Rereads.{u} e text) : ∃ text', Rereads.{u} (squareRoot e) text' := by
  obtain ⟨e', he', hsame⟩ := h.whole
  have hroot : ∀ {K : Type u} [Field K] {I : Interpretation K} {e : Expr} {x : K}, value I e = some x →
      value I (squareRoot e) = some (I.root x) := by
    intro K _ I e x hx
    show (do return I.root (← value I e)) = _
    rw [hx]
    rfl
  have hbase : ReadsAsBase.{u} (squareRoot e) ("\\sqrt" ++ braced text) := by
    refine ⟨_, he'.root, rfl, rfl, fun K _ I => ?_⟩
    obtain ⟨x, hx, hx'⟩ := hsame K I
    exact ⟨_, hroot hx, hroot hx'⟩
  have hlatex := latex_root h.latex isSuperText_missing
  rw [String.append_empty] at hlatex
  exact ⟨_, .of_primary hlatex rfl rfl rfl rfl hbase.operand.primary ⟨true, rfl, fun _ => hbase.operand⟩ fun _ _ =>
    ⟨_, hbase, fun s script hthere hs => latex_root h.latex (isSuperText_of_latex hthere hs)⟩⟩

/-- A call, which takes no superscript. -/
theorem of_call {name : String} {argument : Expr} (hlatex : (apply name argument).latex {} .builtin = .ok text)
    (hread : ReadsAsPrimary.{u} (apply name argument) text) : Rereads.{u} (apply name argument) text :=
  .of_primary hlatex rfl rfl rfl rfl hread ⟨false, rfl, fun h => by cases h⟩ fun h => by cases h

/-- **Powers**, which are written with a superscript. -/
theorem power (hb : Rereads.{u} l left) (hx : Rereads.{u} r right) : ∃ text', Rereads.{u} (apply "pow" (tuple [l, r])) text' := by
  obtain ⟨simple, hsimple, hbase⟩ := hb.tight
  obtain ⟨e, he, hvalue⟩ := hbase.raised hx.whole
  refine ⟨_, .of_call (latex_power hsimple hb.latex hx.latex) ⟨e, he.isPrimaryText, fun K _ I => ?_⟩⟩
  obtain ⟨x, y, hx, hy, he⟩ := hvalue K I
  refine ⟨_, ?_, he⟩
  show (do return I.power (← value I l) (← value I r)) = _
  rw [hx, hy]
  rfl

/-- **Functions of one argument.** -/
theorem function (h : Rereads.{u} e text) {name : String} (hname : name ∈ arithmeticFunctions) :
    ∃ text', Rereads.{u} (apply name e) text' := by
  have applied : ∀ {e' : Expr} {text' : String}, (apply name e).latex {} .builtin = .ok text' →
      IsPrimaryText text' (apply name e') → SameValue.{u} e e' → ∃ text', Rereads.{u} (apply name e) text' :=
    fun hlatex hread hsame => ⟨_, .of_call hlatex ⟨_, hread, fun K _ I => by
      obtain ⟨x, hx, hx'⟩ := hsame K I
      exact ⟨_, value_apply hx name, value_apply hx' name⟩⟩⟩
  have enclosed : ∀ f : Enclosure, f.name = name → ∃ text', Rereads.{u} (apply name e) text' := by
    rintro f rfl
    obtain ⟨e', he', hsame⟩ := h.whole
    exact applied (latex_enclosure f h.node h.latex) (he'.enclosed f).isPrimaryText hsame
  rcases List.mem_append.mp hname with hcommand | hother
  · obtain ⟨bare, hbare, e', he', hsame⟩ := h.argument (looseFunctions.contains name)
    exact applied (latex_command hcommand h.node hbare h.latex) (he'.isPrimaryText.applied hcommand) hsame
  · simp only [List.mem_cons, List.not_mem_nil, or_false] at hother
    rcases hother with rfl | rfl | rfl | rfl | rfl
    · obtain ⟨bare, hbare, e', he', hsame⟩ := h.argument true
      rw [Bool.true_and] at he'
      exact applied (latex_factorial h.node hbare h.latex) he'.factorial hsame
    · exact enclosed .abs rfl
    · exact enclosed .norm rfl
    · exact enclosed .floor rfl
    · exact enclosed .ceil rfl

/-! ### Superscripts -/

/-- **Nodes with a superscript.** -/
theorem withSuperscript (h : Rereads.{u} e text) (hcall : e.isCall = false) (hsup : e.sup = missing) {s : Expr}
    {script : String} (hs : Rereads.{u} s script) : ∃ text', Rereads.{u} (e.withScripts s missing) text' := by
  obtain ⟨base, hbase, hlatex⟩ := h.raised hcall hsup
  have hthere := isMissing_of_isNode hs.node
  obtain ⟨e', he', hvalue⟩ := hbase.raised hs.whole
  have hread : ReadsAsOperand.{u} (e.withScripts s missing) (base ++ ("^" ++ braced script)) := by
    refine ⟨e', he', fun K _ I => ?_⟩
    obtain ⟨x, y, hx, hy, he⟩ := hvalue K I
    exact ⟨_, by rw [value_withScripts hx hsup h.sub, raised_of_value hy], he⟩
  obtain ⟨bare, hbare, -⟩ := h.bare
  refine ⟨_, .of_primary (hlatex s script hthere hs.latex) (isNode_withScripts h.node s missing)
    (sub_withScripts h.node s missing) (isSimple_withScripts h.node (by rw [hthere, Bool.false_and])) (isPlainOperation_withScripts hthere missing)
    hread.primary ⟨bare, by rw [isBareArgument_withScripts, hbare], fun _ => hread⟩ fun _ hnone => ?_⟩
  rw [sup_withScripts h.node] at hnone
  rw [hnone] at hthere
  cases hthere

end Rereads

/-! ### Arithmetic expressions are read again -/

/-- Every arithmetic expression is written, and its text is read as an expression of its value. -/
theorem Arithmetic.rereads {t : Expr} (h : Arithmetic t) : ∃ text, Rereads.{u} t text := by
  induction h with
  | number h hlt => exact rereads_number h hlt
  | letter hd => exact ⟨_, rereads_letter hd⟩
  | group _ ih => exact ih.elim fun _ h => h.group
  | operation o _ _ ihl ihr => exact ihl.elim fun _ hl => ihr.elim fun _ hr => hl.operation hr o
  | division _ _ ihn ihd => exact ihn.elim fun _ hn => ihd.elim fun _ hd => hn.division hd
  | signed s _ ih => exact ih.elim fun _ h => h.signed s
  | fraction _ _ ihn ihd => exact ihn.elim fun _ hn => ihd.elim fun _ hd => hn.fraction hd
  | root _ ih => exact ih.elim fun _ h => h.root
  | power _ _ ihb ihx => exact ihb.elim fun _ hb => ihx.elim fun _ hx => hb.power hx
  | function hname _ ih => exact ih.elim fun _ h => h.function hname
  | raised _ hcall hsup _ ihe ihs => exact ihe.elim fun _ he => ihs.elim fun _ hs => he.withSuperscript hcall hsup hs

/-- **An arithmetic expression that is written and read again keeps its value.**  What is read holds no errors, and has the same
value in every field, for all meanings of its symbols, powers, roots and functions. -/
theorem arithmetic_reread {t : Expr} (h : Arithmetic t) : ∃ text atoms e, t.latex {} .builtin = .ok text ∧
    Source.atoms .builtin text = .ok atoms ∧ ofAtoms .builtin atoms = .ok e ∧ e.errors = .ok [] ∧
    ∀ (K : Type u) [Field K] (I : Interpretation K), ∃ x, value I t = some x ∧ value I e = some x := by
  obtain ⟨text, hread⟩ := h.rereads
  obtain ⟨e, he, hsame⟩ := hread.whole
  obtain ⟨atoms, hatoms, hparsed⟩ := he.reads
  have herrors : e.errors = .ok [] := by
    obtain ⟨x, -, hx⟩ := hsame (ULift Rat) ⟨fun _ _ => 0, fun _ _ => 0, fun _ => 0, fun _ _ => 0⟩
    exact errors_of_value hx
  exact ⟨text, atoms, e, hread.latex, hatoms, hparsed, herrors, hsame⟩

/-- A difference of a raised sum: both have parentheses, and the minus goes to the number. -/
theorem arithmetic_reread_difference : Arithmetic (between (.text "-") (before (.text "-") (ofNumber (.int 2)))
      ((between (.text "+") (ofSymbol (.text "x") .null) (ofNumber (.int 1000))).withScripts (ofNumber (.int 3)) missing)) ∧
    ∃ text atoms e, (between (.text "-") (before (.text "-") (ofNumber (.int 2)))
        ((between (.text "+") (ofSymbol (.text "x") .null) (ofNumber (.int 1000))).withScripts (ofNumber (.int 3))
          missing)).latex {} .builtin = .ok text ∧
      Source.atoms .builtin text = .ok atoms ∧ ofAtoms .builtin atoms = .ok e ∧ e.errors = .ok [] ∧
      ∀ (K : Type) [Field K] (I : Interpretation K), ∃ x,
        value I (between (.text "-") (before (.text "-") (ofNumber (.int 2)))
          ((between (.text "+") (ofSymbol (.text "x") .null) (ofNumber (.int 1000))).withScripts (ofNumber (.int 3))
            missing)) = some x ∧ value I e = some x :=
  have hsum : Arithmetic (between (.text "+") (ofSymbol (.text "x") .null) (ofNumber (.int 1000))) :=
    .operation .sum (@Arithmetic.letter 'x' (by decide)) (.number (.int 1000) (by decide))
  have hdifference := Arithmetic.operation .difference (.signed .minus (.number (.int 2) (by decide)))
    (.raised hsum rfl rfl (.number (.int 3) (by decide)))
  ⟨hdifference, arithmetic_reread hdifference⟩

end Formula
