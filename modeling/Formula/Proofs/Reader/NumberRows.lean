import Formula.Proofs.Expr.Errors
import Formula.Proofs.Number.Repeating
import Formula.Proofs.Reader.Texts

/-!
# Rows of numbers

A number is read from a row of atoms as a literal, as ten with an exponent, or as the product of both, perhaps with a sign
in front.  `IsNumberRow` says so of a row and of the expression that it is read as, and tells the exact value of the number:
that of the characters which were scanned, before they are rounded to a floating-point number.
-/

namespace Formula

open Number Text Atom Expr

/-! ### Kinds of rows -/

/-- The exact value of the characters of a numeral. -/
def numeralValue (chars : List Char) : Option Rat := (readNumeral chars).map fun n => n.toDecimal.toRat

/-- The row is scanned as one numeral, which is the literal `e` and says `x`. -/
def IsLiteral (row : List Atom) (e : Expr) (x : Rat) : Prop :=
  ∃ numeral, scanNumeral row = .ok numeral ∧ numeral.rest = [] ∧ literalOf numeral.chars = .ok e ∧
    numeralValue numeral.chars = some x

/-- The atom of a minus. -/
def minusAtom : Atom := { type := .binary, value := "-" }

/-- A row with a minus in front, or without one. -/
inductive IsSigned (Reads : List Atom → Expr → Rat → Prop) : List Atom → Expr → Rat → Prop
  | plain {row : List Atom} {e : Expr} {x : Rat} : Reads row e x → IsSigned Reads row e x
  | minus {row : List Atom} {e : Expr} {x : Rat} :
    Reads row e x → IsSigned Reads (minusAtom :: row) (withSign (.text "-") e) (-x)

/-- The row is scanned as the numeral ten, of which the last digit carries a whole number as its superscript. -/
inductive IsPowerOfTen : List Atom → Expr → Rat → Prop
  | raised {row script : List Atom} {last : Atom} {ten exponent : Expr} {n : Int} :
    scanNumeral row = .ok ⟨['1', '0'], some last, []⟩ → literalOf ['1', '0'] = .ok ten → last.superscript = some script →
    last.subscript = none → IsSigned IsLiteral script exponent n →
    IsPowerOfTen row (ten.withScripts exponent missing) (10 ^ n)

/-- The row of a number: a literal, a power of ten, or a literal times a power of ten. -/
inductive IsNumberRow : List Atom → Expr → Rat → Prop
  | literal {row : List Atom} {e : Expr} {x : Rat} : IsSigned IsLiteral row e x → IsNumberRow row e x
  | power {row : List Atom} {e : Expr} {x : Rat} : IsSigned IsPowerOfTen row e x → IsNumberRow row e x
  | product {row row' : List Atom} {sign : Atom} {e e' : Expr} {x y : Rat} : IsSigned IsLiteral row e x →
    sign.name .builtin = .ok (.text "*") → IsPowerOfTen row' e' y →
    IsNumberRow (row ++ sign :: row') (between (.text "*") e e') (x * y)

/-! ### No errors -/

/-- The nodes of numbers: literals with literals as superscripts, signs, and products. -/
inductive IsNumberNode : Expr → Prop
  | number (value : Datum) : IsNumberNode (ofNumber value)
  | raised (value : Datum) {exponent : Expr} : IsNumberNode exponent → IsNumberNode (number value exponent missing)
  | before (op : Datum) {e : Expr} : IsNumberNode e → IsNumberNode (before op e)
  | between (op : Datum) {l r : Expr} : IsNumberNode l → IsNumberNode r → IsNumberNode (between op l r)

theorem IsNumberNode.children {e : Expr} (h : IsNumberNode e) :
    e.isNode = true ∧ e.isError = false ∧ ∀ k ∈ e.children, IsNumberNode k := by
  have among : ∀ {parts : List Expr}, (∀ k ∈ parts, k = missing ∨ IsNumberNode k) →
      ∀ k ∈ parts.filter fun part => !part.isMissing, IsNumberNode k := by
    intro parts hparts k hk
    obtain ⟨hk, hthere⟩ := List.mem_filter.mp hk
    rcases hparts k hk with rfl | hnode
    · cases hthere
    · exact hnode
  cases h with
  | number value => exact ⟨rfl, rfl, fun k hk => by cases hk⟩
  | raised value hexponent =>
    refine ⟨rfl, rfl, @among [_, missing] (List.forall_mem_cons.mpr ⟨.inr hexponent, ?_⟩)⟩
    simp
  | before op he =>
    refine ⟨rfl, rfl, @among [_, missing, missing] (List.forall_mem_cons.mpr ⟨.inr he, ?_⟩)⟩
    simp
  | between op hl hr =>
    refine ⟨rfl, rfl, @among [_, _, missing, missing]
      (List.forall_mem_cons.mpr ⟨.inr hl, List.forall_mem_cons.mpr ⟨.inr hr, ?_⟩⟩)⟩
    simp

theorem IsLiteral.node {row : List Atom} {e : Expr} {x : Rat} (h : IsLiteral row e x) : ∃ value, e = ofNumber (.float value) := by
  obtain ⟨numeral, -, -, hliteral, -⟩ := h
  exact literalOf_eq_ok hliteral

theorem IsSigned.literalNode {row : List Atom} {e : Expr} {x : Rat} (h : IsSigned IsLiteral row e x) :
    ∃ value, e = ofNumber (.float value) := by
  cases h with
  | plain h => exact h.node
  | minus h =>
    obtain ⟨value, rfl⟩ := h.node
    exact ⟨value.neg, rfl⟩

theorem IsPowerOfTen.node {row : List Atom} {e : Expr} {x : Rat} (h : IsPowerOfTen row e x) :
    ∃ value exponent, e = number (.float value) (ofNumber (.float exponent)) missing := by
  obtain ⟨-, hten, -, -, hexponent⟩ := h
  obtain ⟨value, rfl⟩ := literalOf_eq_ok hten
  obtain ⟨exponent, rfl⟩ := hexponent.literalNode
  exact ⟨value, exponent, rfl⟩

/-- **The expression of a number holds no errors.** -/
theorem IsNumberRow.errors {row : List Atom} {e : Expr} {x : Rat} (h : IsNumberRow row e x) : e.errors = .ok [] := by
  refine errors_of_closed (P := IsNumberNode) (fun _ => IsNumberNode.children) ?_
  have hpower : ∀ {row e x}, IsPowerOfTen row e x → IsNumberNode e := fun h => by
    obtain ⟨value, exponent, rfl⟩ := h.node
    exact .raised _ (.number _)
  cases h with
  | literal h =>
    obtain ⟨value, rfl⟩ := h.literalNode
    exact .number _
  | power h =>
    cases h with
    | plain h => exact hpower h
    | minus h =>
      obtain ⟨value, exponent, rfl⟩ := h.node
      exact .before _ (.raised _ (.number _))
  | product h _ h' =>
    obtain ⟨value, rfl⟩ := h.literalNode
    exact .between _ (.number _) (hpower h')

/-! ### Numerals -/

/-- The value of digits with a point behind some of them. -/
theorem toRat_pointed (ws fs : List Char) :
    (Number.Numeral.toDecimal ⟨ws, fs, ⟨false, []⟩⟩).toRat = digitsToNat ws + digitsToNat fs / 10 ^ fs.length := by
  have hexponent : (⟨false, []⟩ : Number.Exponent).value = 0 := rfl
  rw [Decimal.toRat_eq]
  show ((digitsToNat (ws ++ fs) : Nat) : Rat) * 10 ^ ((⟨false, []⟩ : Number.Exponent).value - fs.length) = _
  rw [hexponent, zero_sub, zpow_neg, zpow_natCast, ← div_eq_mul_inv, digitsToNat_append, ← tenTo_cast]
  have htens : (0 : Rat) < tenTo fs.length := Nat.cast_pos.mpr (tenTo_pos _)
  push_cast
  field_simp

variable {ds : List Char}

/-- Digits are a literal of their value. -/
theorem literal_digits (hne : ds ≠ []) (h : ∀ d ∈ ds, d.isDigit = true) :
    ∃ x, literalOf ds = .ok (ofNumber (.float x)) ∧ numeralValue ds = some (digitsToNat ds : Rat) := by
  have hall := List.all_eq_true.mpr h
  obtain ⟨d, more, rfl⟩ := List.exists_cons_of_ne_nil hne
  obtain ⟨x, hx⟩ := @readDouble_isSome false (d :: more) [] hall
    (by rw [List.any_cons, h d List.mem_cons_self, Bool.true_or]) (.inl rfl)
  have hnumeral := @readNumeral_whole (d :: more) [] hall hne (by rintro c ⟨⟩)
  rw [List.append_nil] at hx hnumeral
  refine ⟨x, literalOf_of_readDouble hx, ?_⟩
  have hvalue := toRat_pointed (d :: more) []
  have hnone : (digitsToNat [] : Rat) / 10 ^ ([] : List Char).length = 0 := by norm_num [digitsToNat]
  rw [hnone, add_zero] at hvalue
  rw [numeralValue, hnumeral, ← hvalue]
  rfl

/-- Digits around a point are a literal of their value. -/
theorem literal_pointed {ws : List Char} (hne : ws ≠ []) (hws : ∀ d ∈ ws, d.isDigit = true) (h : ∀ d ∈ ds, d.isDigit = true) :
    ∃ x, literalOf (ws ++ '.' :: ds) = .ok (ofNumber (.float x)) ∧
      numeralValue (ws ++ '.' :: ds) = some (digitsToNat ws + digitsToNat ds / 10 ^ ds.length : Rat) := by
  have hall := List.all_eq_true.mpr hws
  have hall' := List.all_eq_true.mpr h
  obtain ⟨d, more, rfl⟩ := List.exists_cons_of_ne_nil hne
  obtain ⟨x, hx⟩ := @readDouble_isSome true (d :: more ++ '.' :: ds) [] ⟨d :: more, ds, hall, hall', rfl⟩
    (by rw [List.cons_append, List.any_cons, hws d List.mem_cons_self, Bool.true_or]) (.inl rfl)
  have hnumeral := @readNumeral_pointed (d :: more) ds [] hall hall' (.inl hne) (by rintro c ⟨⟩)
  rw [List.append_nil] at hx hnumeral
  refine ⟨x, literalOf_of_readDouble hx, ?_⟩
  rw [numeralValue, hnumeral, ← toRat_pointed]
  rfl

/-- **A row of digits is a literal.** -/
theorem reads_digits (hne : ds ≠ []) (h : ∀ d ∈ ds, d.isDigit = true) :
    ∃ e, IsOperand .builtin (ds.map ofCharacter) e ∧ IsLiteral (ds.map ofCharacter) e (digitsToNat ds) := by
  obtain ⟨x, hliteral, hvalue⟩ := literal_digits hne h
  obtain ⟨front, d, rfl⟩ : ∃ front d, ds = front ++ [d] := ⟨_, _, (List.dropLast_concat_getLast hne).symm⟩
  have hfront : ∀ f ∈ front, f.isDigit = true := fun f hf => h f (List.mem_append_left _ hf)
  have hd := h d (List.mem_append_right _ (List.mem_singleton_self d))
  have hscan := scanNumeral_digits hfront hd none none (.nil false)
  rw [List.append_nil] at hscan
  rw [List.map_append]
  exact ⟨_, isOperand_numeral hfront hd hliteral (.plain rfl _) rfl, _, hscan, rfl, hliteral, hvalue⟩

/-- **A row of digits around a point is a literal.** -/
theorem reads_pointed {ws : List Char} (hws_ne : ws ≠ []) (hws : ∀ d ∈ ws, d.isDigit = true) (hne : ds ≠ [])
    (h : ∀ d ∈ ds, d.isDigit = true) :
    ∃ e, IsOperand .builtin ((ws ++ '.' :: ds).map ofCharacter) e ∧
      IsLiteral ((ws ++ '.' :: ds).map ofCharacter) e (digitsToNat ws + digitsToNat ds / 10 ^ ds.length) := by
  obtain ⟨x, hliteral, hvalue⟩ := literal_pointed hws_ne hws h
  obtain ⟨front, d, rfl⟩ : ∃ front d, ds = front ++ [d] := ⟨_, _, (List.dropLast_concat_getLast hne).symm⟩
  have hfront : ∀ f ∈ front, f.isDigit = true := fun f hf => h f (List.mem_append_left _ hf)
  have hd := h d (List.mem_append_right _ (List.mem_singleton_self d))
  have hscan := scanNumeral_pointed hws hfront hd none none (.nil true)
  rw [List.append_nil] at hscan
  rw [List.map_append, List.map_cons, List.map_append]
  exact ⟨_, isOperand_pointed hws_ne hws hfront hd hliteral (.plain rfl _) rfl, _, hscan, rfl, hliteral, hvalue⟩

/-! ### Powers of ten -/

/-- The row of a whole number. -/
def intRow (n : Int) : List Atom :=
  if n < 0 then minusAtom :: (Nat.toDigits 10 n.natAbs).map ofCharacter else (Nat.toDigits 10 n.natAbs).map ofCharacter

theorem reads_int (n : Int) : ∃ e, IsPrimary .builtin (intRow n) e ∧ IsSigned IsLiteral (intRow n) e n := by
  obtain ⟨e, hoperand, hliteral⟩ :=
    reads_digits (Nat.toDigits_ne_nil (n := n.natAbs) (b := 10)) (List.all_eq_true.mp (Format.all_toDigits n.natAbs))
  rw [digitsToNat_toDigits] at hliteral
  unfold intRow
  by_cases hneg : n < 0
  · have hvalue : (n : Rat) = -(n.natAbs : Rat) := by
      rw [← Int.cast_natCast, Int.ofNat_natAbs_of_nonpos hneg.le, Int.cast_neg, neg_neg]
    rw [if_pos hneg, hvalue]
    exact ⟨_, hoperand.isPrimary.sign Sign.minus.signAtom, .minus hliteral⟩
  · have hvalue : (n : Rat) = (n.natAbs : Rat) := by
      rw [← Int.cast_natCast, Int.natAbs_of_nonneg (Int.not_lt.mp hneg)]
    rw [if_neg hneg, hvalue]
    exact ⟨_, hoperand.isPrimary, .plain hliteral⟩

/-- The row of a power of ten. -/
def powerRow (n : Int) : List Atom := [ofCharacter '1', (ofCharacter '0').scripted (some (intRow n)) none]

theorem unspaced_intRow (n : Int) : unspaced (intRow n) = intRow n := by
  refine unspaced_eq_self fun a ha => ?_
  have hdigits : ∀ b ∈ (Nat.toDigits 10 n.natAbs).map ofCharacter, b.type ≠ .spacing := by
    intro b hb
    obtain ⟨d, -, rfl⟩ := List.mem_map.mp hb
    exact fun h => by cases h
  unfold intRow at ha
  split at ha
  · rcases List.mem_cons.mp ha with rfl | ha
    · exact fun h => by cases h
    · exact hdigits a ha
  · exact hdigits a ha

/-- **A power of ten is an operand.** -/
theorem reads_power (n : Int) : ∃ e, IsOperand .builtin (powerRow n) e ∧ IsPowerOfTen (powerRow n) e (10 ^ n) := by
  obtain ⟨exponent, hprimary, hsigned⟩ := reads_int n
  obtain ⟨x, hten, -⟩ := @literal_digits ['1', '0'] (List.cons_ne_nil _ _) (List.all_eq_true.mp rfl)
  have hwhole : IsWhole .builtin (intRow n) exponent :=
    IsChain.isWhole (by rw [unspaced_intRow]; exact hprimary.isChain) (.leaf exponent)
  have hone : ∀ d ∈ ['1'], d.isDigit = true := List.all_eq_true.mp rfl
  have hscan := scanNumeral_digits hone (by decide : ('0' : Char).isDigit = true) (some (intRow n)) none (.nil false)
  rw [List.append_nil] at hscan
  have hraised : (ofNumber (.float x)).attach exponent missing = (ofNumber (.float x)).withScripts exponent missing := by
    obtain ⟨value, rfl⟩ := hsigned.literalNode
    rfl
  have hcarries : Carries .builtin ((ofCharacter '0').scripted (some (intRow n)) none) (ofNumber (.float x))
      ((ofNumber (.float x)).withScripts exponent missing) := by
    rw [← hraised]
    exact .super rfl rfl hwhole _
  exact ⟨_, isOperand_numeral hone (by decide) hten hcarries rfl, .raised hscan hten rfl rfl hsigned⟩

end Formula
