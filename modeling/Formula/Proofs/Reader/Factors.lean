import Formula.Proofs.Reader.Texts

/-!
# Factors side by side

Factors that stand side by side without a sign between them are multiplied from left to right, if no two of them are read
as something else.  There are four kinds of factors, and what a factor may have behind it is a matter of kinds: a fraction
behind a number makes it a mixed number, a letter behind it may mark an exponent, and parentheses behind the name of a
function hold its arguments (`joins`, `calls`).

A row of such factors is a primary up to an operator or to the end of an expression.
-/

namespace Formula

open Number Text Atom Expr

/-! ### Kinds of factors -/

/-- What a factor is to its neighbours. -/
inductive FactorKind where
  | digits
  | letter (name : String)
  | fraction
  | fence
deriving DecidableEq

namespace FactorKind

/-- The letter marks an exponent behind a number. -/
def marksExponent : FactorKind → Bool
  | letter name => exponentMarkers.contains name
  | _ => false

/-- A number in front of the factors stays what it is, unless digits of another one follow. -/
def keepNumber : List FactorKind → Bool
  | [] => true
  | k :: more => k != fraction && !(k.marksExponent && more.head? == some digits)

/-- Side by side the factors are read one by one. -/
def joins : List FactorKind → Bool
  | [] => true
  | k :: more => (k != digits || (more.head? != some digits && keepNumber more)) && joins more

/-- The factors begin with the name of a function and parentheses. -/
def calls : List FactorKind → Bool
  | letter name :: fence :: _ => callNames.contains name
  | _ => false

end FactorKind

/-! ### Factors -/

/-- A text that is read as an expression, alone and in parentheses. -/
structure Phrase where
  text : String
  row : List Atom
  expr : Expr
  spells : Source.Spells .builtin text row
  unspaced : ∀ a ∈ row, a.type ≠ .spacing
  reads : IsExpression .builtin row expr

theorem Phrase.isWhole (p : Phrase) : IsWhole .builtin p.row p.expr := by
  refine IsInner.isWhole ?_
  rw [unspaced_eq_self p.unspaced]
  exact p.reads.isInner

/-- A factor without a sign: a whole number, a letter, a fraction, or an expression in parentheses. -/
inductive Factor where
  | number (n : Nat) (lt : n < tenTo 14)
  | letter (d : Char) (alpha : d.isAlpha = true)
  | fraction (numerator denominator : Phrase)
  | fence (inner : Phrase)

namespace Factor

def kind : Factor → FactorKind
  | number .. => .digits
  | letter d _ => .letter d.toString
  | fraction .. => .fraction
  | fence .. => .fence

/-- The factor as it is written. -/
def text : Factor → String
  | number n _ => String.ofList (Nat.toDigits 10 n)
  | letter d _ => d.toString
  | fraction n d => "\\frac" ++ braced n.text ++ braced d.text
  | fence p => parenthesized p.text

/-- The atoms of the factor. -/
def row : Factor → List Atom
  | number n _ => (Nat.toDigits 10 n).map ofCharacter
  | letter d _ => [ofCharacter d]
  | fraction n d => [Source.fractionAtom n.row d.row]
  | fence p => openingAtom :: (p.row ++ [closingAtom])

/-- The expression that the factor is read as. -/
def expr : Factor → Expr
  | number n _ => ofNumber (.float (.ofInt n))
  | letter d _ => ofSymbol (.text d.toString) .null
  | fraction n d => quotient n.expr d.expr
  | fence p => fenced p.expr parentheses

/-! ### The first atom of a factor -/

end Factor

/-- The atom starts a factor: an operand that closes no fence and marks nothing. -/
structure Atom.StartsFactor (a : Atom) : Prop extends StartsNoun a where
  precedence : a.precedence .builtin = .ok none
  operand : operandTypes.contains a.type = true
  mark : a.type ≠ .textual

section

variable {a : Atom} {rest : List Atom}

theorem Atom.StartsFactor.startsOperand (h : a.StartsFactor) {closers : List Closer} (hclosers : InParentheses closers) :
    a.startsOperand .builtin closers = .ok true := by
  unfold Atom.startsOperand
  rw [hclosers.closesAny h.type.2, h.precedence]
  show (if operandTypes.contains a.type = true then pure (!a.isPlaceholder) else _) = _
  rw [if_pos h.operand, h.placeholder]
  rfl

theorem Atom.StartsFactor.quiet (h : a.StartsFactor) (hrest : ∀ b ∈ rest, b.Worded) : Quiet (a :: rest) where
  text := by
    rintro _ ⟨⟩
    exact h.worded.text
  placeholder := by
    rintro _ ⟨⟩
    rw [h.placeholder, Bool.false_and]
  digraph := h.digraph fun b hb => (hrest b (List.mem_of_mem_head? hb)).text
  mark := by
    rintro _ ⟨⟩
    unfold Atom.postfixFunction?
    rw [if_neg h.mark]
    rfl

theorem startsFactor_character {d : Char} (hd : isLetterOrDigit d = true) : (ofCharacter d).StartsFactor where
  toStartsNoun := startsNoun_character hd none none
  precedence := precedence_ofCharacter hd
  operand := rfl
  mark h := by cases h

theorem startsFactor_fractionAtom (row row' : List Atom) : (Source.fractionAtom row row').StartsFactor where
  toStartsNoun := startsNoun_fractionAtom row row'
  precedence := rfl
  operand := rfl
  mark h := by cases h

theorem startsFactor_openingAtom : openingAtom.StartsFactor where
  toStartsNoun := startsNoun_openingAtom
  precedence := rfl
  operand := rfl
  mark h := by cases h

end

namespace Factor

/-- The first atom of a factor opens a fence only if the factor does. -/
theorem row_eq_cons (f : Factor) : ∃ a more, f.row = a :: more ∧ a.StartsFactor ∧ (∀ b ∈ more, b.Worded) ∧
    a.type ≠ .fenced ∧ (a.type = .opening → f.kind = .fence) := by
  cases f with
  | number n lt =>
    obtain ⟨d, ds, hdigits⟩ := List.exists_cons_of_ne_nil (@Nat.toDigits_ne_nil n 10)
    have hd : d.isDigit = true :=
      Nat.isDigit_of_mem_toDigits (by decide) (by decide) (hdigits ▸ List.mem_cons_self)
    refine ⟨ofCharacter d, ds.map ofCharacter, ?_, startsFactor_character (isLetterOrDigit_of_isDigit hd), fun b hb => ?_,
      fun h => (by cases h), fun h => by cases h⟩
    · rw [row, hdigits, List.map_cons]
    · obtain ⟨e, -, rfl⟩ := List.mem_map.mp hb
      exact worded_character e none none
  | letter d alpha =>
    exact ⟨_, [], rfl, startsFactor_character (isLetterOrDigit_of_isAlpha alpha), fun _ h => (by cases h),
      fun h => (by cases h), fun h => by cases h⟩
  | fraction n d =>
    exact ⟨_, [], rfl, startsFactor_fractionAtom _ _, fun _ h => (by cases h), fun h => (by cases h), fun h => by cases h⟩
  | fence p =>
    refine ⟨_, _, rfl, startsFactor_openingAtom, fun b hb => ?_, fun h => (by cases h), fun _ => rfl⟩
    rcases List.mem_append.mp hb with hb | hb
    · exact p.reads.worded b hb
    · rw [List.mem_singleton.mp hb]
      exact worded_closingAtom none none

theorem begins (f : Factor) : Begins f.row := by
  obtain ⟨a, more, hrow, ha, hmore, -⟩ := f.row_eq_cons
  rw [hrow]
  exact ha.begins.append hmore

theorem unspaced (f : Factor) : ∀ a ∈ f.row, a.type ≠ .spacing := by
  cases f with
  | number n lt =>
    intro a ha
    obtain ⟨d, -, rfl⟩ := List.mem_map.mp ha
    exact fun h => by cases h
  | letter d alpha =>
    intro a ha
    rw [List.mem_singleton.mp ha]
    exact fun h => by cases h
  | fraction n d =>
    intro a ha
    rw [List.mem_singleton.mp ha]
    exact fun h => by cases h
  | fence p =>
    intro a ha
    rcases List.mem_cons.mp ha with rfl | ha
    · decide
    · rcases List.mem_append.mp ha with ha | ha
      · exact p.unspaced a ha
      · rw [List.mem_singleton.mp ha]
        decide

/-- **A factor spells its atoms.** -/
theorem spells (f : Factor) : Source.Spells .builtin f.text f.row := by
  cases f with
  | number n lt => exact Source.spells_digits fun d hd => Nat.isDigit_of_mem_toDigits (by decide) (by decide) hd
  | letter d alpha => exact Source.spells_character (isLetterOrDigit_of_isAlpha alpha)
  | fraction n d => exact n.spells.before.fraction d.spells.before
  | fence p =>
    have hopen : Source.Spells .builtin "(" [openingAtom] :=
      Source.spells_char (d := '(') (by decide) (by decide) (by decide) (by decide) (by decide) rfl
    have hclose : Source.Spells .builtin ")" [closingAtom] :=
      Source.spells_char (d := ')') (by decide) (by decide) (by decide) (by decide) (by decide) rfl
    have := (hopen.append p.spells).append hclose
    rwa [List.append_assoc] at this

theorem isMissing_expr (f : Factor) : f.expr.isMissing = false := by cases f <;> rfl

/-- Only a letter may be the name of a function. -/
theorem callName?_expr (f : Factor) : ∃ is, callName? f.expr = .ok is ∧
    (is = true → ∃ name, f.kind = .letter name ∧ callNames.contains name = true) := by
  cases f with
  | letter d alpha => exact ⟨_, rfl, fun h => ⟨d.toString, rfl, h⟩⟩
  | _ => exact ⟨false, rfl, fun h => by cases h⟩

/-! ### The reading of a factor -/

end Factor

/-- A whole number ends in front of the row: neither a numeral nor a mixed number goes on there. -/
structure EndsNumber (rest : List Atom) : Prop where
  mantissa : EndsMantissa false rest
  type : ∀ a, rest.head? = some a → a.type ≠ .fraction

theorem EndsNumber.mixed {c : Catalog} {literal : Expr} {numeral : NumeralReading}
    (hliteral : literalOf numeral.chars = .ok literal) (h : EndsNumber numeral.rest) :
    Grammar.mixed c literal numeral = .ok none := by
  cases hr : numeral.rest with
  | nil => exact Grammar.mixed_nil c literal hr
  | cons a rest =>
    rw [Grammar.mixed_cons c hr hliteral, if_neg]
    exact fun hboth => h.type a (by rw [hr]; rfl) hboth.1

namespace Factor

/-- **A factor is an operand of its own**, and a number is if it ends there. -/
theorem operand (f : Factor) {closers : List Closer} (hclosers : InParentheses closers) {rest : List Atom}
    (hworded : ∀ a ∈ rest, a.Worded) (hquiet : Quiet rest) (hends : f.kind = .digits → EndsNumber rest) :
    ∃ a more, f.row = a :: more ∧ Grammar.operand .builtin closers a (more ++ rest) = .ok ⟨rest, f.expr⟩ := by
  cases f with
  | number n lt =>
    obtain ⟨ds, d, hdigits⟩ : ∃ ds d, Nat.toDigits 10 n = ds ++ [d] :=
      ⟨_, _, (List.dropLast_concat_getLast Nat.toDigits_ne_nil).symm⟩
    have hall : ∀ e ∈ ds ++ [d], e.isDigit = true := fun e he =>
      Nat.isDigit_of_mem_toDigits (by decide) (by decide) (hdigits ▸ he)
    have hds : ∀ e ∈ ds, e.isDigit = true := fun e he => hall e (List.mem_append_left _ he)
    have hd : d.isDigit = true := hall d (List.mem_append_right _ (List.mem_singleton_self d))
    have hliteral : literalOf (ds ++ [d]) = .ok (ofNumber (.float (.ofInt n))) := by
      rw [← hdigits]
      exact literalOf_of_readDouble (Double.readDouble_toDigits (Nat.lt_trans lt (by decide)))
    have hany : (ds ++ [d]).any Char.isDigit = true := by
      rw [List.any_append, List.any_cons, hd, Bool.true_or, Bool.or_true]
    obtain ⟨e, sup, sub, more, he, hrow⟩ :=
      @digit_first d ds (fun e he => hds e (List.mem_of_mem_head? he)) (fun _ => hd) none none
    have hscan := scanNumeral_digits hds hd none none (hends rfl).mantissa
    rw [hrow, List.cons_append] at hscan
    have hwords : ∀ b, (more ++ rest).head? = some b → ∃ u, b.text = .ok (.text u) := by
      intro b hb
      rcases List.mem_append.mp (List.mem_of_mem_head? hb) with hb | hb
      · have hmem : b ∈ ds.map ofCharacter ++ [(ofCharacter d).scripted none none] :=
          hrow ▸ List.mem_cons_of_mem _ hb
        rcases List.mem_append.mp hmem with hb | hb
        · obtain ⟨g, -, rfl⟩ := List.mem_map.mp hb
          exact ⟨_, rfl⟩
        · rw [List.mem_singleton.mp hb]
          exact ⟨_, rfl⟩
      · exact (hworded b hb).text
    refine ⟨(ofCharacter e).scripted sup sub, more, ?_, ?_⟩
    · rw [row, hdigits, List.map_append]
      exact hrow
    · rw [operand_scanned (startsNoun_character (isLetterOrDigit_of_isDigit he) sup sub) hwords (startsNumber_digit he sup sub _)
        hscan hany hliteral (EndsNumber.mixed hliteral (hends rfl)), Grammar.scripts_plain rfl hquiet]
      exact Grammar.marks_quiet hquiet
  | letter d alpha =>
    have hd := isLetterOrDigit_of_isAlpha alpha
    have hatom : Grammar.atom .builtin (ofCharacter d) = .ok (ofSymbol (.text d.toString) .null) := by
      rw [Grammar.atom_eq]
      exact symbol_letter (isLetter_of_isAlpha alpha) none none
    have hnumber := startsNumber_letter (isLetter_of_isAlpha alpha) none none rest
    exact ⟨_, [], rfl, (operand_symbol (startsNoun_character hd none none) rfl hnumber (isFunction_ofCharacter hd)
      (precedence_ofCharacter hd) hquiet.text).trans (Grammar.marked_plain hatom rfl hquiet)⟩
  | fraction n d =>
    refine ⟨_, [], rfl, ?_⟩
    rw [List.nil_append, operand_construct (startsNoun_fractionAtom _ _) (.head _) closers hquiet.text]
    exact Grammar.marked_plain (n.isWhole.atom_fraction d.isWhole) rfl hquiet
  | fence p =>
    refine ⟨_, _, rfl, ?_⟩
    rw [List.append_assoc, List.singleton_append]
    exact (p.reads.isInner.fence hclosers hworded (Grammar.scripts_plain rfl hquiet)).trans (Grammar.marks_quiet hquiet)

end Factor

/-! ### Rows of factors -/

/-- The atoms of factors side by side. -/
def Factor.rows (factors : List Factor) : List Atom := factors.flatMap Factor.row

/-- The product of factors, from left to right. -/
def Factor.product (f : Factor) (more : List Factor) : Expr :=
  more.foldl (fun e g => between (.text "*") e g.expr) f.expr

section

variable {rest : List Atom} {closers : List Closer}

theorem worded_rows (factors : List Factor) (hrest : ∀ a ∈ rest, a.Worded) :
    ∀ a ∈ Factor.rows factors ++ rest, a.Worded := by
  intro a ha
  rcases List.mem_append.mp ha with ha | ha
  · obtain ⟨f, -, ha⟩ := List.mem_flatMap.mp ha
    exact f.begins.worded a ha
  · exact hrest a ha

theorem rows_cons (f : Factor) (more : List Factor) (rest : List Atom) :
    Factor.rows (f :: more) ++ rest = f.row ++ (Factor.rows more ++ rest) := by
  rw [Factor.rows, List.flatMap_cons, List.append_assoc]
  rfl

/-- In front of factors there are neither scripts nor marks. -/
theorem quiet_rows (factors : List Factor) (hrest : ∀ a ∈ rest, a.Worded) (hquiet : Quiet rest) :
    Quiet (Factor.rows factors ++ rest) := by
  cases factors with
  | nil => exact hquiet
  | cons f more =>
    obtain ⟨a, behind, hrow, ha, hbehind, -⟩ := f.row_eq_cons
    rw [rows_cons, hrow, List.cons_append]
    refine ha.quiet fun b hb => ?_
    rcases List.mem_append.mp hb with hb | hb
    · exact hbehind b hb
    · exact worded_rows more hrest b hb

theorem startsWithExponent_false {a : Atom} {rest : List Atom} (hdigit : a.isDigit = .ok false) (htype : a.type ≠ .binary) :
    startsWithExponent (a :: rest) = .ok false := by
  have hstarts : startsWithDigit (a :: rest) = .ok false := hdigit
  unfold startsWithExponent
  rw [hstarts]
  show (a.signOf? >>= _) = _
  rw [signOf?_of_ne_binary htype]
  rfl

/-- Factors of which the first is no number are no exponent. -/
theorem startsWithExponent_rows {factors : List Factor} (h : (factors.map Factor.kind).head? ≠ some .digits)
    (hrest : startsWithExponent rest = .ok false) : startsWithExponent (Factor.rows factors ++ rest) = .ok false := by
  cases factors with
  | nil => exact hrest
  | cons f more =>
    rw [rows_cons]
    cases f with
    | number n lt => exact absurd rfl h
    | letter d alpha => exact startsWithExponent_false (isDigit_letter (isLetter_of_isAlpha alpha) none none) fun h => by cases h
    | fraction n d => exact startsWithExponent_false (isDigit_of_ne_ordinary fun h => by cases h) fun h => by cases h
    | fence p => exact startsWithExponent_false (isDigit_of_ne_ordinary fun h => by cases h) fun h => by cases h

/-- A letter is no part of a numeral if no exponent follows. -/
theorem numeralStep_letter {d : Char} (alpha : d.isAlpha = true) {behind : List Atom}
    (h : d.toString ∈ exponentMarkers → startsWithExponent behind = .ok false) :
    numeralStep (.mantissa false) true (ofCharacter d) behind = .ok none := by
  have hlong : ∀ s ∈ [".", ","], (d.toString == s) = false := by
    intro s hs
    rw [beq_eq_false_iff_ne]
    rintro rfl
    exact @AreLong.not_mem _ [".", ","] (by decide) (isLetterOrDigit_of_isAlpha alpha) hs
  have hdigit : (ofCharacter d).isDigit = .ok false := isDigit_letter (isLetter_of_isAlpha alpha) none none
  rw [numeralStep_eq (text_ofCharacter d) hdigit]
  simp only [hlong "." (by simp), hlong "," (by simp), Bool.false_and, Bool.and_false, Bool.false_eq_true, if_false]
  split
  · rename_i hmark
    have hmem : d.toString ∈ exponentMarkers := by
      rw [Bool.and_eq_true, Bool.and_eq_true, Bool.and_eq_true] at hmark
      exact List.contains_iff_mem.mp hmark.1.1.2
    rw [h hmem]
    rfl
  · rfl

/-- **A number ends in front of factors** that keep it. -/
theorem endsNumber_rows {factors : List Factor} (hkeep : FactorKind.keepNumber (factors.map Factor.kind) = true)
    (hdigits : (factors.map Factor.kind).head? ≠ some .digits) (hrest : Edge .builtin closers rest) :
    EndsNumber (Factor.rows factors ++ rest) := by
  cases factors with
  | nil =>
    refine ⟨hrest.endsMantissa false, fun a ha => ?_⟩
    rcases hrest.type a ha with h | h | h | h <;> (rw [h]; decide)
  | cons f more =>
    rw [rows_cons]
    cases f with
    | number n lt => exact absurd rfl hdigits
    | letter d alpha =>
      refine ⟨.of_step (numeralStep_letter alpha fun hmark => ?_), ?_⟩
      · refine startsWithExponent_rows (fun hmore => ?_) hrest.exponent
        have hmarks : FactorKind.marksExponent (.letter d.toString) = true := by simpa [FactorKind.marksExponent] using hmark
        rw [List.map_cons, FactorKind.keepNumber, Factor.kind, hmarks, hmore] at hkeep
        simp at hkeep
      · rintro _ ⟨⟩ h
        cases h
    | fraction n d => simp [FactorKind.keepNumber, Factor.kind] at hkeep
    | fence p =>
      refine ⟨.of_step rfl, ?_⟩
      rintro _ ⟨⟩ h
      cases h

/-- **The first of factors that join is an operand of its own.** -/
theorem operand_rows (hclosers : InParentheses closers) (hrest : Edge .builtin closers rest) {f : Factor}
    {more : List Factor} (hjoins : FactorKind.joins ((f :: more).map Factor.kind) = true) : ∃ a behind,
    Factor.rows (f :: more) ++ rest = a :: (behind ++ (Factor.rows more ++ rest)) ∧ a.StartsFactor ∧
      a.type ≠ .fenced ∧ (a.type = .opening → f.kind = .fence) ∧
      Grammar.operand .builtin closers a (behind ++ (Factor.rows more ++ rest)) =
        .ok ⟨Factor.rows more ++ rest, f.expr⟩ := by
  rw [List.map_cons, FactorKind.joins, Bool.and_eq_true] at hjoins
  have hends : f.kind = .digits → EndsNumber (Factor.rows more ++ rest) := by
    intro hkind
    have hown := hjoins.1
    simp only [hkind, bne_self_eq_false, Bool.false_or, Bool.and_eq_true, bne_iff_ne] at hown
    exact endsNumber_rows hown.2 hown.1 hrest
  obtain ⟨a, behind, hrow, hread⟩ := f.operand hclosers (worded_rows more hrest.worded)
    (quiet_rows more hrest.worded hrest.stops.toQuiet) hends
  obtain ⟨_, _, hrow', hstarts, -, htype⟩ := f.row_eq_cons
  obtain ⟨rfl, rfl⟩ := List.cons.inj (hrow.symm.trans hrow')
  exact ⟨a, behind, by rw [rows_cons, hrow, List.cons_append], hstarts, htype.1, htype.2, hread⟩

/-- **Factors behind an expression multiply it**, if it is not called with the first of them. -/
theorem neighbours_rows (hclosers : InParentheses closers) (hrest : Edge .builtin closers rest) :
    ∀ {factors : List Factor} {e : Expr}, FactorKind.joins (factors.map Factor.kind) = true →
    callName? e = .ok false ∨ (∃ is, callName? e = .ok is) ∧ (factors.map Factor.kind).head? ≠ some .fence →
    Grammar.neighbours .builtin closers e (Factor.rows factors ++ rest) =
      .ok ⟨rest, factors.foldl (fun e g => between (.text "*") e g.expr) e⟩
  | [], e, _, _ => Grammar.neighbours_stops hrest.stops
  | f :: more, e, hjoins, hcall => by
    obtain ⟨a, behind, hrow, hstarts, hfenced, hopening, hread⟩ := operand_rows hclosers hrest hjoins
    rw [List.map_cons, FactorKind.joins, Bool.and_eq_true] at hjoins
    have happlication : Grammar.application .builtin e (a :: (behind ++ (Factor.rows more ++ rest))) = .ok none := by
      rcases hcall with hnone | ⟨his, hfence⟩
      · exact Grammar.application_of_callName? hnone _
      · exact Grammar.application_none his hfenced fun h => hfence (congrArg some (hopening h))
    have hlen : ¬(Factor.rows more ++ rest).length = (a :: (behind ++ (Factor.rows more ++ rest))).length := by
      rw [List.length_cons, @List.length_append _ behind]
      omega
    rw [hrow, Grammar.neighbours_cons, hstarts.startsOperand hclosers, happlication, hread]
    show (if (f.expr.isMissing || decide ((Factor.rows more ++ rest).length = _)) = true then _ else _) = _
    rw [f.isMissing_expr, decide_eq_false hlen]
    exact neighbours_rows hclosers hrest hjoins.2 (.inl rfl)

/-- **Factors side by side are a primary.** -/
theorem primary_rows (hclosers : InParentheses closers) (hrest : Edge .builtin closers rest) {f : Factor}
    {more : List Factor} (hjoins : FactorKind.joins ((f :: more).map Factor.kind) = true)
    (hcalls : FactorKind.calls ((f :: more).map Factor.kind) = false) :
    Grammar.primary .builtin closers (Factor.rows (f :: more) ++ rest) = .ok ⟨rest, f.product more⟩ := by
  obtain ⟨a, behind, hrow, hstarts, -, -, hread⟩ := operand_rows hclosers hrest hjoins
  rw [List.map_cons, FactorKind.joins, Bool.and_eq_true] at hjoins
  obtain ⟨is, his, hname⟩ := f.callName?_expr
  have hcall : callName? f.expr = .ok false ∨
      (∃ is, callName? f.expr = .ok is) ∧ (more.map Factor.kind).head? ≠ some .fence := by
    cases is with
    | false => exact .inl his
    | true =>
      refine .inr ⟨⟨_, his⟩, fun hfence => ?_⟩
      obtain ⟨d, hkind, hd⟩ := hname rfl
      obtain ⟨ks, hkinds⟩ := List.head?_eq_some_iff.mp hfence
      rw [List.map_cons, hkind, hkinds, FactorKind.calls, hd] at hcalls
      cases hcalls
  rw [hrow, Grammar.primary_cons, hclosers.closesAny hstarts.type.2, hread]
  show (if f.expr.isMissing = true then _ else _) = _
  rw [f.isMissing_expr]
  exact neighbours_rows hclosers hrest hjoins.2 hcall

end

end Formula
