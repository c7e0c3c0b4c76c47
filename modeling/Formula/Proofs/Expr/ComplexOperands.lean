import Mathlib.Data.Complex.Basic
import Formula.Proofs.Expr.LetterSymbols
import Formula.Proofs.Expr.RoundTrip
import Formula.Proofs.Reader.Factors

/-!
# Complex numbers as operands

A complex number is one node of a tree, but it is written as a sum or a difference if neither of its parts is zero, and as a
single term, perhaps with a minus, if one is.  Beside a number of two parts stands what would stand beside a single term: as
it is no operation it has no parentheses.  Where it is added, or something is subtracted from it, this does no harm.  Where it
is a factor, is subtracted or has a minus in front, only its first or its last part is read as the operand.

The value of a chain is found by going through it from left to right (`climb`), so that what is shown of a text is that it is
read as a chain of the value of its tree (`IsTextOfValue`).
-/

namespace Formula

open Number Text Atom Expr

/-! ### Values over the complex numbers -/

/-- The symbol of the imaginary unit. -/
def imaginaryUnit : Expr := ofSymbol (.text "i") (.text Variant.normal.name)

/-- The symbol of the imaginary unit means the imaginary unit. -/
def Interpretation.IsComplex (I : Interpretation ℂ) : Prop := I.symbol (.text "i") (.text Variant.normal.name) = Complex.I

/-- The value of an expression over the complex numbers, in which complex numbers may stand as operands. -/
noncomputable def Expr.complexValue (I : Interpretation ℂ) : Expr → Option ℂ
  | complex re im s t => I.raised s t (value I s) do return (← valueOf ℂ re) + (← valueOf ℂ im) * Complex.I
  | binary op left right s t =>
    I.raised s t (value I s) do operationValue op (← complexValue I left) (← complexValue I right)
  | unary op operand s t => I.raised s t (value I s) do signValue op (← complexValue I operand)
  | e => value I e

/-- Whole complex numbers, letters, and what is built from them by sums, differences, products and signs. -/
inductive ComplexTree : Expr → Prop
  | complex {re im : Datum} {m n : Int} : re.IsWhole m → im.IsWhole n → m.natAbs < tenTo 14 → n.natAbs < tenTo 14 →
    ComplexTree (complex re im missing missing)
  | symbol {e : Expr} : IsLetterSymbol e → ComplexTree e
  | operation (o : Operation) {l r : Expr} : ComplexTree l → ComplexTree r → ComplexTree (between (.text o.name) l r)
  | signed (s : Sign) {e : Expr} : ComplexTree e → ComplexTree (before (.text s.name) e)

/-- The expression is written as a sum or a difference although it is no operation: a complex number of two parts, perhaps with
signs in front. -/
def Expr.isSplit : Expr → Bool
  | complex re im _ _ => !re.isVoid && !im.isVoid
  | unary _ operand _ _ => operand.isSplit
  | _ => false

/-- No complex number of two parts is a factor, is subtracted or has a minus in front. -/
def Expr.holdsTogether : Expr → Bool
  | binary op left right _ _ => left.holdsTogether && right.holdsTogether &&
    !(op.isText "*" && left.isSplit) && !((op.isText "*" || op.isText "-") && right.isSplit)
  | unary op operand _ _ => operand.holdsTogether && !(op.isText "-" && operand.isSplit)
  | _ => true

/-! ### Texts of a value -/

/-- The text is read as a chain of the value `v`, whose operators are as `P` says. -/
def IsTextOfValue (text : String) (v : Interpretation ℂ → ℂ) (P : Int → Prop) : Prop :=
  ∃ first links, IsOpenChain text first links ∧ (∀ link ∈ links, P link.precedence) ∧
    ∀ I : Interpretation ℂ, I.IsComplex → ∃ x, value I first = some x ∧ (∀ link ∈ links, ∃ o, link.IsOperation I o) ∧
      climb (valueOr I) 0 x links = v I

theorem IsPrimaryText.isTextOfValue {text : String} {e : Expr} (h : IsPrimaryText text e) {v : Interpretation ℂ → ℂ}
    (hvalue : ∀ I : Interpretation ℂ, I.IsComplex → value I e = some (v I)) (P : Int → Prop) : IsTextOfValue text v P :=
  ⟨e, [], h.isChainText.isOpenChain, by simp, fun I hI => ⟨v I, hvalue I hI, by simp, by rw [climb, zero_add]⟩⟩

namespace IsTextOfValue

variable {text text' : String} {v v' : Interpretation ℂ → ℂ} {P Q : Int → Prop}

theorem mono (h : IsTextOfValue text v P) (himp : ∀ p, P p → Q p) : IsTextOfValue text v Q := by
  obtain ⟨first, links, hchain, hlinks, hvalue⟩ := h
  exact ⟨first, links, hchain, fun link hl => himp _ (hlinks link hl), hvalue⟩

/-- A chain without operators is a chain of any operators. -/
theorem single (h : IsTextOfValue text v fun _ => False) (P : Int → Prop) : IsTextOfValue text v P := h.mono fun _ => False.elim

/-- **The text is read as an expression of the value.** -/
theorem isReadAs (h : IsTextOfValue text v P) : ∃ e, IsReadAs text e ∧
    ∀ I : Interpretation ℂ, I.IsComplex → value I e = some (v I) := by
  obtain ⟨first, links, hchain, -, hvalue⟩ := h
  obtain ⟨e, harranged, -⟩ := hchain.arranged
  refine ⟨e, hchain.isReadAs harranged, fun I hI => ?_⟩
  obtain ⟨x, hx, hlinks, hv⟩ := hvalue I hI
  rw [harranged.value hx hlinks, hv]

theorem parenthesized (h : IsTextOfValue text v P) (Q : Int → Prop) : IsTextOfValue (parenthesized text) v Q := by
  obtain ⟨first, links, hchain, -, hvalue⟩ := h
  obtain ⟨e, harranged, -⟩ := hchain.arranged
  refine (hchain.parenthesized harranged).isPrimaryText.isTextOfValue (fun I hI => ?_) Q
  obtain ⟨x, hx, hlinks, hv⟩ := hvalue I hI
  show value I e = _
  rw [harranged.value hx hlinks, hv]

/-- Two chains with an operation between them are a chain of the value of the operation: their operators bind at least as
tight as it does, and tighter behind a minus. -/
theorem append {o : Operation} (h : IsTextOfValue text v fun p => o.precedence ≤ p)
    (h' : IsTextOfValue text' v' fun p => o.precedence ≤ p ∧ (o = .difference → o.precedence < p)) :
    IsTextOfValue (text ++ (o.sign ++ text')) (fun I => o.on (v I) (v' I)) fun p => o.precedence ≤ p := by
  obtain ⟨first, links, hchain, hlinks, hvalue⟩ := h
  obtain ⟨first', links', hchain', hlinks', hvalue'⟩ := h'
  obtain ⟨start, hall⟩ := hchain.append_infix o.toInfix hchain'
  rw [o.sign_toInfix, o.atom_toInfix, o.name_toInfix, o.precedence_toInfix] at hall
  have hmember : ∀ {R : Link → Prop}, (∀ link ∈ links, R link) →
      R ⟨o.atom, start, .text o.name, o.precedence, first'⟩ → (∀ link ∈ links', R link) →
      ∀ link ∈ links ++ ⟨o.atom, start, .text o.name, o.precedence, first'⟩ :: links', R link := fun h hown h' =>
    List.forall_mem_append.mpr ⟨h, List.forall_mem_cons.mpr ⟨hown, h'⟩⟩
  refine ⟨first, _, hall, hmember hlinks (Int.le_refl _) fun link hl => (hlinks' link hl).1, fun I hI => ?_⟩
  obtain ⟨x, hx, hoperations, hv⟩ := hvalue I hI
  obtain ⟨y, hy, hoperations', hv'⟩ := hvalue' I hI
  have hown : Link.IsOperation I o ⟨o.atom, start, .text o.name, o.precedence, first'⟩ := ⟨rfl, rfl, y, hy⟩
  refine ⟨x, hx, hmember hoperations ⟨o, hown⟩ hoperations', ?_⟩
  rw [climb_operation hown hy (fun link hl => ⟨hoperations link hl, hlinks link hl⟩)
    fun link hl => ⟨hoperations' link hl, hlinks' link hl⟩, hv, hv']

end IsTextOfValue

/-! ### Parts of complex numbers -/

section

variable {d : Datum} {n : Int} (h : d.IsWhole n) (hlt : n.natAbs < twoTo 53)
include h hlt

/-- Only zero is too small to be written. -/
theorem isTiny_whole : isTiny d = .ok (decide (n = 0)) := by
  cases h with
  | int => rfl
  | minusZero => exact congrArg Except.ok (by decide +kernel)
  | float n =>
    obtain ⟨q, hq, hpos, hle⟩ : ∃ q, tolerance.toRat? = some q ∧ 0 < q ∧ q ≤ 1 := by
      have hsome : (tolerance.toRat?.any fun q => decide (0 < q) && decide (q ≤ 1)) = true := by decide
      obtain ⟨q, hq, hbounds⟩ := (Option.any_eq_true ..).mp hsome
      exact ⟨q, hq, by simpa using hbounds⟩
    show Except.ok ((Double.ofInt n).abs.lt tolerance) = _
    rw [Double.lt_of_toRat? (Double.toRat?_abs_ofInt hlt) hq]
    refine congrArg Except.ok (decide_eq_decide.mpr ⟨fun hsmall => ?_, ?_⟩)
    · by_contra hne
      have hone : (1 : Rat) ≤ (n.natAbs : Rat) := by exact_mod_cast Int.natAbs_pos.mpr hne
      exact absurd (hone.trans_lt hsmall) (not_lt.mpr hle)
    · rintro rfl
      exact hpos

theorem isVoid_whole : d.isVoid = decide (n = 0) := by
  cases h with
  | int => rfl
  | minusZero => rfl
  | float n =>
    by_cases hzero : n = 0
    · subst hzero
      rfl
    · have hpos : 0 < n.natAbs := Int.natAbs_pos.mpr hzero
      show (Double.ofInt n).isZero = _
      unfold Double.ofInt
      rw [Double.ofRatio_whole _ hpos hlt, decide_eq_false hzero]
      exact beq_eq_false_iff_ne.mpr (Nat.pos_iff_ne_zero.mp (Nat.mul_pos hpos (twoTo_pos _)))

theorem isWhole_plus (k : Int) : (plus d k).IsWhole (n + k) := by
  cases h with
  | int => exact .int _
  | float n =>
    show (Datum.float ((Double.ofInt n).addInt k)).IsWhole _
    rw [Double.addInt_of_toRat? (Double.toRat?_ofInt hlt)]
    exact .float _
  | minusZero =>
    show (Datum.float (Double.addInt _ k)).IsWhole _
    rw [@Double.addInt_of_toRat? _ 0 (Double.zero_toRat? _ _)]
    exact .float _

/-- A part of a complex number that is whole is written as it is. -/
theorem partOrZero_whole : ∃ d', partOrZero d = .ok d' ∧ d'.IsWhole n := by
  unfold partOrZero
  rw [isTiny_whole h hlt]
  by_cases hzero : n = 0
  · subst hzero
    exact ⟨_, rfl, .float 0⟩
  · rw [decide_eq_false hzero]
    exact ⟨d, rfl, h⟩

end

/-! ### How complex numbers are written -/

/-- So many imaginary units. -/
def unitsText (k : Nat) : String := if k = 1 then "\\mathrm\x7bi\x7d" else Format.wholeText k ++ "\\mathrm\x7bi\x7d"

/-- A whole complex number as it is written. -/
def complexText (m n : Int) : String :=
  if n = 0 then Format.signText m ++ Format.wholeText m.natAbs
  else if m = 0 then Format.signText n ++ unitsText n.natAbs
  else Format.signText m ++ Format.wholeText m.natAbs ++ ((if n < 0 then "-" else "+") ++ unitsText n.natAbs)

theorem imaginaryLatex_whole {im : Datum} {n : Int} (h : im.IsWhole n) (hlt : n.natAbs < tenTo 14) :
    imaginaryLatex {} im = .ok (.text (if n = 0 then "" else Format.signText n ++ unitsText n.natAbs)) := by
  have hlt' : n.natAbs < twoTo 53 := Nat.lt_trans hlt (by decide)
  have htiny : ∀ k : Int, k.natAbs = 1 → isTiny (plus im k) = .ok (decide (n + k = 0)) := fun k hk =>
    isTiny_whole (isWhole_plus h hlt' k) (by
      have : tenTo 14 + 1 < twoTo 53 := by decide
      omega)
  unfold imaginaryLatex
  rw [isVoid_whole h hlt', htiny (-1) rfl, htiny 1 rfl, Format.number_whole h hlt]
  by_cases hzero : n = 0
  · rw [decide_eq_true hzero, if_pos hzero]
    rfl
  · rw [decide_eq_false hzero, if_neg hzero, if_neg Bool.false_ne_true]
    by_cases hone : n = 1
    · subst hone
      rfl
    · by_cases hminus : n = -1
      · subst hminus
        rfl
      · have hunits : n.natAbs ≠ 1 := by omega
        rw [decide_eq_false (by omega), decide_eq_false (by omega), unitsText, if_neg hunits, ← String.append_assoc]
        rfl

theorem isEmpty_units (n : Int) : (Format.signText n ++ unitsText n.natAbs).isEmpty = false := by
  rw [String.isEmpty_eq_false_iff]
  intro hempty
  have := congrArg (fun t : String => t.toList.getLast?) hempty
  unfold unitsText at this
  split at this <;> simp [String.toList_append] at this

theorem isEmpty_wholeText (m : Int) : (Format.signText m ++ Format.wholeText m.natAbs).isEmpty = false := by
  obtain ⟨d, rest, hdigits, -⟩ := Format.toList_wholeText m.natAbs
  rw [String.isEmpty_eq_false_iff]
  intro hempty
  have := congrArg String.toList hempty
  rw [String.toList_append, hdigits] at this
  simp at this

theorem beginsWith_units (n : Int) : beginsWith (Format.signText n ++ unitsText n.natAbs) "-" = decide (n < 0) := by
  unfold Format.signText
  by_cases hneg : n < 0
  · rw [if_pos hneg, decide_eq_true hneg, beginsWith, String.toList_append]
    rfl
  · rw [if_neg hneg, decide_eq_false hneg, String.empty_append, unitsText]
    split
    · decide
    · obtain ⟨d, rest, hdigits, hdigit⟩ := Format.toList_wholeText n.natAbs
      have hd : ('-' == d) = false := by
        rw [beq_eq_false_iff_ne]
        rintro rfl
        exact absurd hdigit (by decide)
      rw [beginsWith, String.toList_append, hdigits]
      show ('-' == d && _) = false
      rw [hd, Bool.false_and]

/-- A complex number is put together from the texts of its parts. -/
theorem complexLatex_parts {re im re' im' : Datum} {real imaginary : String} (hre : partOrZero re = .ok re')
    (him : partOrZero im = .ok im') (hreal : (if re'.isVoid then pure "" else ({} : Format).number re') = Except.ok real)
    (himaginary : imaginaryLatex {} im' = .ok (.text imaginary)) : complexLatex {} re im false (.ok "") = .ok
      (if real.isEmpty then if imaginary.isEmpty then "0" else imaginary
      else if imaginary.isEmpty then real
      else if beginsWith imaginary "-" then real ++ imaginary else real ++ ("+" ++ imaginary)) := by
  have hvoid : (Datum.text imaginary).isVoid = imaginary.isEmpty := rfl
  unfold complexLatex
  rw [hre, him]
  simp only [bind, Except.bind, himaginary, hvoid, Datum.orElse, String.append_empty, String.append_assoc]
  split at hreal
  · rename_i hv
    obtain rfl : "" = real := Except.ok.inj hreal
    rw [if_pos hv]
    cases imaginary.isEmpty <;> exact congrArg Except.ok String.append_empty
  · rename_i hv
    rw [if_neg hv, hreal]
    dsimp only
    cases real.isEmpty <;> cases imaginary.isEmpty <;>
      first | rfl | exact congrArg Except.ok String.append_empty

/-- **A whole complex number is written by its parts that are not zero.** -/
theorem latex_complex {re im : Datum} {m n : Int} (hre : re.IsWhole m) (him : im.IsWhole n) (hm : m.natAbs < tenTo 14)
    (hn : n.natAbs < tenTo 14) : (complex re im missing missing).latex {} .builtin = .ok (complexText m n) := by
  have hfits : ∀ {k : Int}, k.natAbs < tenTo 14 → k.natAbs < twoTo 53 := fun h => Nat.lt_trans h (by decide)
  obtain ⟨re', hre', hwhole⟩ := partOrZero_whole hre (hfits hm)
  obtain ⟨im', him', hwhole'⟩ := partOrZero_whole him (hfits hn)
  have hreal : (if re'.isVoid then pure "" else ({} : Format).number re') =
      Except.ok (if m = 0 then "" else Format.signText m ++ Format.wholeText m.natAbs) := by
    rw [isVoid_whole hwhole (hfits hm), Format.number_whole hwhole hm]
    by_cases hzero : m = 0
    · rw [decide_eq_true hzero, if_pos hzero]
      rfl
    · rw [decide_eq_false hzero, if_neg hzero]
      rfl
  show guarded (complexLatex {} re im false (.ok "")) = _
  rw [complexLatex_parts hre' him' hreal (imaginaryLatex_whole hwhole' hn)]
  refine congrArg Except.ok ?_
  unfold complexText
  by_cases hzero : m = 0
  · subst hzero
    by_cases hzero' : n = 0
    · subst hzero'
      decide
    · rw [if_neg hzero', if_pos rfl, if_neg hzero', if_pos rfl, isEmpty_units]
      rfl
  · rw [if_neg hzero, isEmpty_wholeText, if_neg Bool.false_ne_true, if_neg hzero]
    by_cases hzero' : n = 0
    · rw [if_pos hzero', if_pos hzero']
      rfl
    · rw [if_neg hzero', if_neg hzero', isEmpty_units, if_neg Bool.false_ne_true, beginsWith_units]
      unfold Format.signText
      by_cases hneg : n < 0
      · simp only [hneg, decide_true, if_true]
      · simp only [hneg, decide_false, if_false, Bool.false_eq_true, String.empty_append]

/-! ### How complex numbers are read -/

/-- The atom of the imaginary unit. -/
def imaginaryAtom : Atom := Variant.normal.fontAtom [ofCharacter 'i']

theorem spells_imaginaryAtom : Source.Spells .builtin "\\mathrm\x7bi\x7d" [imaginaryAtom] :=
  (@Source.spells_character 'i' (by decide)).before.font Variant.normal.mem_fonts

theorem startsFactor_imaginaryAtom : imaginaryAtom.StartsFactor where
  toStartsNoun := Variant.normal.startsNoun _
  precedence := rfl
  operand := rfl
  mark h := by cases h

theorem isOperand_imaginaryAtom : IsOperand .builtin [imaginaryAtom] imaginaryUnit :=
  isOperand_construct (Variant.normal.startsNoun _) (.tail _ (.tail _ (.head _)))
    (Variant.normal.atom_fontAtom (by decide)) (.plain rfl _) rfl

/-- **Digits in front of the imaginary unit multiply it.** -/
theorem isPrimary_units {n : Nat} (hlt : n < tenTo 14) : IsPrimary .builtin ((Nat.toDigits 10 n).map ofCharacter ++ [imaginaryAtom])
    (between (.text "*") (ofNumber (.float (.ofInt n))) imaginaryUnit) := by
  have hworded : ∀ a ∈ [imaginaryAtom], a.Worded := isOperand_imaginaryAtom.worded
  refine ⟨(Factor.number n hlt).begins.append hworded, rfl, fun closers rest hclosers hrest => ?_⟩
  have hbehind : ∀ a ∈ imaginaryAtom :: rest, a.Worded := List.forall_mem_cons.mpr ⟨hworded _ (.head _), hrest.worded⟩
  have hends : EndsNumber (imaginaryAtom :: rest) := ⟨.of_step rfl, by rintro _ ⟨⟩ h; cases h⟩
  obtain ⟨a, more, hrow, hnumber⟩ :=
    (Factor.number n hlt).operand hclosers hbehind (startsFactor_imaginaryAtom.quiet hrest.worded) fun _ => hends
  have htype : a.type ≠ .closing := Begins.type_ne (hrow ▸ (Factor.number n hlt).begins)
  obtain ⟨_, _, hcons, hunit⟩ := isOperand_imaginaryAtom.read closers rest hclosers hrest.toTrailing
  obtain ⟨rfl, rfl⟩ := List.cons.inj hcons
  rw [Grammar.marks_quiet hrest.stops.toQuiet, List.nil_append] at hunit
  have hlength : ¬rest.length = (imaginaryAtom :: rest).length := by simp
  show Grammar.primary .builtin closers ((Factor.number n hlt).row ++ [imaginaryAtom] ++ rest) = _
  rw [hrow, List.append_assoc, List.singleton_append, List.cons_append, Grammar.primary_cons, hclosers.closesAny htype, hnumber]
  show Grammar.neighbours .builtin closers _ (imaginaryAtom :: rest) = _
  rw [Grammar.neighbours_cons, startsFactor_imaginaryAtom.startsOperand hclosers, Grammar.application_of_callName? rfl, hunit]
  show (if (imaginaryUnit.isMissing || decide (rest.length = _)) = true then _ else _) = _
  rw [decide_eq_false hlength]
  exact Grammar.neighbours_stops hrest.stops

/-- A sign in front of a chain is one of its first operand. -/
theorem IsOpenChain.signed {text : String} {first : Expr} {links : List Link} (h : IsOpenChain text first links) (s : Sign) :
    IsOpenChain (s.name ++ text) (withSign (.text s.name) first) links := by
  obtain ⟨row, hspells, ⟨start, hrow, hfirst⟩, hlinks⟩ := h
  refine ⟨_, s.spells_name.append_before hspells, ⟨s.signAtom.atom :: start, ?_, hfirst.sign s.signAtom⟩, hlinks⟩
  rw [unspaced_append, unspaced_singleton (by cases s <;> decide), hrow]
  rfl

/-- **A text with a sign in front**, which is a minus only in front of a single operand. -/
theorem IsTextOfValue.signed {text : String} {v : Interpretation ℂ → ℂ} {P : Int → Prop} (h : IsTextOfValue text v P) (s : Sign)
    (hsingle : s = .minus → ∀ p, ¬P p) : IsTextOfValue (s.name ++ text) (fun I => s.on (v I)) P := by
  obtain ⟨first, links, hchain, hlinks, hvalue⟩ := h
  refine ⟨_, links, hchain.signed s, hlinks, fun I hI => ?_⟩
  obtain ⟨x, hx, hoperations, hv⟩ := hvalue I hI
  refine ⟨s.on x, value_withSign hx, hoperations, ?_⟩
  cases s with
  | plus => exact hv
  | minus =>
    obtain rfl : links = [] := List.eq_nil_iff_forall_not_mem.mpr fun link hl => hsingle rfl _ (hlinks link hl)
    rw [climb, zero_add] at hv ⊢
    rw [hv]

/-- A text with the sign of a whole number in front. -/
theorem IsTextOfValue.signText {text : String} {v : Interpretation ℂ → ℂ} (h : IsTextOfValue text v fun _ => False) (n : Int) :
    IsTextOfValue (Format.signText n ++ text) (fun I => if n < 0 then -v I else v I) fun _ => False := by
  unfold Format.signText
  by_cases hneg : n < 0
  · simp only [if_pos hneg]
    exact h.signed .minus fun _ _ => id
  · simp only [if_neg hneg, String.empty_append]
    exact h

theorem isTextOfValue_wholeText {n : Nat} (hlt : n < tenTo 14) : IsTextOfValue (Format.wholeText n) (fun _ => (n : ℂ)) fun _ => False :=
  ((isBaseText_whole (Nat.lt_trans hlt (by decide))).isOperandText rfl).isPrimaryText.isTextOfValue (fun I _ => by
    have hvalue : value I (ofNumber (.float (.ofInt n))) = some ((n : Int) : ℂ) :=
      valueOf_whole (.float n) (by rwa [Int.natAbs_natCast]) ℂ
    rw [hvalue, Int.cast_natCast]) _

theorem isTextOfValue_units {n : Nat} (hlt : n < tenTo 14) :
    IsTextOfValue (unitsText n) (fun _ => (n : ℂ) * Complex.I) fun _ => False := by
  have hunit : ∀ I : Interpretation ℂ, I.IsComplex → value I imaginaryUnit = some Complex.I := fun I hI => congrArg some hI
  unfold unitsText
  split
  · rename_i hone
    have hprimary : IsPrimaryText "\\mathrm\x7bi\x7d" imaginaryUnit := ⟨_, spells_imaginaryAtom, isOperand_imaginaryAtom.isPrimary⟩
    refine hprimary.isTextOfValue (fun I hI => ?_) _
    rw [hunit I hI, hone, Nat.cast_one, one_mul]
  · obtain ⟨row, last, hspells, hrow⟩ := Source.spells_wholeText n
    have hprimary : IsPrimaryText (Format.wholeText n ++ "\\mathrm\x7bi\x7d")
        (between (.text "*") (ofNumber (.float (.ofInt n))) imaginaryUnit) := by
      refine ⟨_, hspells.append spells_imaginaryAtom, ?_⟩
      rw [unspaced_append, hrow, unspaced_singleton fun h => by cases h]
      exact isPrimary_units hlt
    refine hprimary.isTextOfValue (fun I hI => ?_) _
    have hnumber : value I (ofNumber (.float (.ofInt n))) = some ((n : Int) : ℂ) :=
      valueOf_whole (.float n) (by rwa [Int.natAbs_natCast]) ℂ
    rw [Int.cast_natCast] at hnumber
    exact @value_between ℂ _ I .product _ _ _ _ hnumber (hunit I hI)

theorem natAbs_of_sign (n : Int) : (if n < 0 then -(n.natAbs : ℂ) else (n.natAbs : ℂ)) = n := by
  have hcast : ((n.natAbs : Int) : ℂ) = n.natAbs := Int.cast_natCast _
  rw [← hcast]
  split
  · rw [Int.ofNat_natAbs_of_nonpos (by omega), Int.cast_neg, neg_neg]
  · rw [Int.natAbs_of_nonneg (by omega)]

/-- **A whole complex number is read as its value.**  Only between two parts that are not zero there is an operator. -/
theorem isTextOfValue_complexText {m n : Int} (hm : m.natAbs < tenTo 14) (hn : n.natAbs < tenTo 14) :
    IsTextOfValue (complexText m n) (fun _ => (m : ℂ) + n * Complex.I)
      fun p => (m ≠ 0 ∧ n ≠ 0) ∧ Operation.sum.precedence ≤ p := by
  have hreal := (isTextOfValue_wholeText hm).signText m
  have hunits := (isTextOfValue_units hn).signText n
  simp only [natAbs_of_sign] at hreal
  have hcoefficient : (if n < 0 then -((n.natAbs : ℂ) * Complex.I) else (n.natAbs : ℂ) * Complex.I) = n * Complex.I := by
    rw [← natAbs_of_sign n]
    split <;> ring
  simp only [hcoefficient] at hunits
  unfold complexText
  by_cases hzero : n = 0
  · subst hzero
    rw [if_pos rfl]
    simpa using hreal.single _
  · rw [if_neg hzero]
    by_cases hzero' : m = 0
    · subst hzero'
      rw [if_pos rfl]
      simpa using hunits.single _
    · rw [if_neg hzero']
      by_cases hneg : n < 0
      · rw [if_pos hneg]
        have hboth := IsTextOfValue.append (o := .difference) (hreal.single _)
          ((isTextOfValue_units hn).single _)
        have hvalue : (m : ℂ) - n.natAbs * Complex.I = m + n * Complex.I := by
          rw [← natAbs_of_sign n, if_pos hneg]
          ring
        simp only [Operation.on, hvalue] at hboth
        exact hboth.mono fun p hp => ⟨⟨hzero', hzero⟩, hp⟩
      · rw [if_neg hneg]
        have hboth := IsTextOfValue.append (o := .sum) (hreal.single _)
          ((isTextOfValue_units hn).single _)
        have hvalue : (m : ℂ) + n.natAbs * Complex.I = m + n * Complex.I := by
          rw [← natAbs_of_sign n, if_neg hneg]
        simp only [Operation.on, hvalue] at hboth
        exact hboth.mono fun p hp => ⟨⟨hzero', hzero⟩, hp⟩

/-! ### Trees with complex numbers -/

/-- How a tree is written, and what value its text is read as.  The operators of its chain bind as tight as its own operator, or
as a sum if it is split. -/
structure IsWrittenWithValue (t : Expr) (text : String) (v : Interpretation ℂ → ℂ) : Prop where
  latex : t.latex {} .builtin = .ok text
  value : ∀ I : Interpretation ℂ, I.IsComplex → t.complexValue I = some (v I)
  chain : ∃ own, t.precedence .builtin = .ok own ∧ t.isPlainOperation = own.isSome ∧
    IsTextOfValue text v fun p => (∃ q, own = some q ∧ q ≤ p) ∨ (t.isSplit = true ∧ Operation.sum.precedence ≤ p)

namespace IsWrittenWithValue

variable {t l r : Expr} {text left right : String} {v x y : Interpretation ℂ → ℂ}

/-- **An operand of an operation has only operators that bind tighter**, or as tight where that does no harm: it is not split
where that would. -/
theorem operand (h : IsWrittenWithValue t text v) (o : Operation) (isRight : Bool)
    (hsplit : t.isSplit = true → o.precedence = Operation.sum.precedence ∧ (isRight = true → o ≠ .difference)) : ∃ own,
    t.precedence .builtin = .ok own ∧ IsTextOfValue (operandLatex own o.precedence isRight (.text o.name) text) v
      fun p => o.precedence ≤ p ∧ (isRight = true → o = .difference → o.precedence < p) := by
  obtain ⟨own, hown, -, htext⟩ := h.chain
  refine ⟨own, hown, ?_⟩
  rcases operandLatex_cases own o.precedence isRight (.text o.name) text with ⟨-, hlatex⟩ | ⟨hlatex, htight⟩ <;> rw [hlatex]
  · exact htext.parenthesized _
  · refine htext.mono fun p hp => ?_
    rcases hp with ⟨q, hq, hle⟩ | ⟨hs, hp⟩
    · obtain ⟨haround, hbehind⟩ := htight q hq
      exact ⟨haround.trans hle, fun hright heq => (hbehind hright (by rw [heq]; rfl)).trans_le hle⟩
    · obtain ⟨heq, hdifference⟩ := hsplit hs
      exact ⟨heq ▸ hp, fun hright heq => absurd heq (hdifference hright)⟩

/-- **Sums, differences and products.** -/
theorem operation (hl : IsWrittenWithValue l left x) (hr : IsWrittenWithValue r right y) (o : Operation)
    (hsplit : l.isSplit = true → o ≠ .product) (hsplit' : r.isSplit = true → o = .sum) :
    ∃ text v, IsWrittenWithValue (between (.text o.name) l r) text v := by
  obtain ⟨own, hown, hleft⟩ := hl.operand o false fun h => ⟨by cases o <;> first | rfl | exact absurd rfl (hsplit h), by simp⟩
  obtain ⟨own', hown', hright⟩ := hr.operand o true fun h => by
    rw [hsplit' h]
    exact ⟨rfl, fun _ => by decide⟩
  have hlatex := latex_between o hl.latex hr.latex hown hown' isSuperText_missing
  rw [String.append_empty] at hlatex
  have htext := IsTextOfValue.append (hleft.mono fun p hp => hp.1) (hright.mono fun p hp => ⟨hp.1, hp.2 rfl⟩)
  refine ⟨_, _, hlatex, fun I hI => ?_, some o.precedence, ?_, ?_, htext.mono fun p hp => .inl ⟨_, rfl, hp⟩⟩
  · show (do operationValue (.text o.name) (← complexValue I l) (← complexValue I r)) = _
    rw [hl.value I hI, hr.value I hI]
    exact operationValue_name o _ _
  · show (if _ then _ else (Catalog.builtin.precedenceOf (.text o.name)).map fun p : Option Int => some (p.getD 0)) = _
    rw [o.precedenceOf_name]
    cases o <;> rfl
  · cases o <;> rfl

/-- **Signs in front.** -/
theorem signed (h : IsWrittenWithValue t text v) (s : Sign) (hsplit : t.isSplit = true → s = .plus) :
    ∃ text v, IsWrittenWithValue (before (.text s.name) t) text v := by
  obtain ⟨own, -, hplain, htext⟩ := h.chain
  have hoperand : IsTextOfValue (parenthesizedIf t.isPlainOperation text) v
      fun p => t.isSplit = true ∧ Operation.sum.precedence ≤ p := by
    rw [hplain]
    cases own with
    | none => exact htext.mono fun p hp => hp.resolve_left fun ⟨q, hq, _⟩ => by cases hq
    | some q => exact htext.parenthesized _
  have hsigned := hoperand.signed s fun hminus p hp => by
    rw [hsplit hp.1] at hminus
    cases hminus
  refine ⟨_, _, latex_signed s h.latex, fun I hI => ?_, none, rfl, rfl, hsigned.mono fun p hp => .inr hp⟩
  show (do signValue (.text s.name) (← complexValue I t)) = _
  rw [h.value I hI]
  exact signValue_name s _

end IsWrittenWithValue

theorem isWrittenWithValue_complex {re im : Datum} {m n : Int} (hre : re.IsWhole m) (him : im.IsWhole n)
    (hm : m.natAbs < tenTo 14) (hn : n.natAbs < tenTo 14) :
    IsWrittenWithValue (complex re im missing missing) (complexText m n) fun _ => (m : ℂ) + n * Complex.I where
  latex := latex_complex hre him hm hn
  value I _ := by
    show (do return (← valueOf ℂ re) + (← valueOf ℂ im) * Complex.I) = _
    rw [valueOf_whole hre hm, valueOf_whole him hn]
    rfl
  chain := by
    refine ⟨none, rfl, rfl, (isTextOfValue_complexText hm hn).mono fun p hp => .inr ⟨?_, hp.2⟩⟩
    rw [isSplit, isVoid_whole hre (Nat.lt_trans hm (by decide)), isVoid_whole him (Nat.lt_trans hn (by decide))]
    simp [hp.1]

theorem isWrittenWithValue_letter {e : Expr} (h : IsLetterSymbol e) :
    ∃ text, IsWrittenWithValue e text fun I => valueOr I e := by
  obtain ⟨s, hlatex, hchain⟩ := h.isOpenChain
  have hvalue : ∀ I : Interpretation ℂ, value I e = some (valueOr I e) ∧ complexValue I e = value I e := fun I => by
    cases h <;> exact ⟨rfl, rfl⟩
  refine ⟨s, hlatex, fun I _ => (hvalue I).2.trans (hvalue I).1, none, by cases h <;> rfl, by cases h <;> rfl, e, [], hchain,
    by simp, fun I _ => ⟨_, (hvalue I).1, by simp, by rw [climb, zero_add]⟩⟩

/-- Every tree that holds together is written, and its text is read as its value. -/
theorem ComplexTree.written {t : Expr} (h : ComplexTree t) (htogether : t.holdsTogether = true) :
    ∃ text v, IsWrittenWithValue t text v := by
  induction h with
  | complex hre him hm hn => exact ⟨_, _, isWrittenWithValue_complex hre him hm hn⟩
  | symbol h => exact ⟨_, _, (isWrittenWithValue_letter h).choose_spec⟩
  | @operation o l r _ _ ihl ihr =>
    have hparts : (l.holdsTogether = true ∧ r.holdsTogether = true) ∧ (l.isSplit = true → o ≠ .product) ∧
        (r.isSplit = true → o = .sum) := by
      cases o <;> simpa [between, holdsTogether, Operation.name, Datum.isText, and_assoc] using htogether
    obtain ⟨⟨hl, hr⟩, hsplit, hsplit'⟩ := hparts
    obtain ⟨left, x, hleft⟩ := ihl hl
    obtain ⟨right, y, hright⟩ := ihr hr
    exact hleft.operation hright o hsplit hsplit'
  | @signed s e _ ih =>
    have hparts : e.holdsTogether = true ∧ (e.isSplit = true → s = .plus) := by
      cases s <;> simpa [before, holdsTogether, Sign.name, Sign.operation, Operation.name, Datum.isText] using htogether
    obtain ⟨text, v, htext⟩ := ih hparts.1
    exact htext.signed s hparts.2

/-- **A tree with complex numbers that is written and read again keeps its value**, if no number of two parts is a factor, is
subtracted or has a minus in front.  What is read has no complex numbers, and the symbol `i` is the imaginary unit. -/
theorem complex_tree_reread {t : Expr} (h : ComplexTree t) (htogether : t.holdsTogether = true) : ∃ text e,
    t.latex {} .builtin = .ok text ∧ IsReadAs text e ∧
      ∀ I : Interpretation ℂ, I.IsComplex → ∃ z, t.complexValue I = some z ∧ value I e = some z := by
  obtain ⟨text, v, hwritten⟩ := h.written htogether
  obtain ⟨own, -, -, htext⟩ := hwritten.chain
  obtain ⟨e, hread, hvalue⟩ := htext.isReadAs
  exact ⟨text, e, hwritten.latex, hread, fun I hI => ⟨v I, hwritten.value I hI, hvalue I hI⟩⟩

/-- A product with a number of one part, and a number of two parts added to it. -/
theorem complex_summand_reread :
    ComplexTree (between (.text "+") (between (.text "*") (ofSymbol (.text "x") .null) (complex (.int 0) (.int (-2)) missing missing))
      (complex (.int 1) (.int 2) missing missing)) ∧
    ∃ text e, (between (.text "+") (between (.text "*") (ofSymbol (.text "x") .null)
        (complex (.int 0) (.int (-2)) missing missing)) (complex (.int 1) (.int 2) missing missing)).latex {} .builtin = .ok text ∧
      IsReadAs text e ∧ ∀ I : Interpretation ℂ, I.IsComplex → ∃ z,
        complexValue I (between (.text "+") (between (.text "*") (ofSymbol (.text "x") .null)
          (complex (.int 0) (.int (-2)) missing missing)) (complex (.int 1) (.int 2) missing missing)) = some z ∧
        value I e = some z :=
  have hproduct := ComplexTree.operation .product (.symbol (.plain (d := 'x') (by decide)))
    (.complex (.int 0) (.int (-2)) (by decide) (by decide))
  have htree := ComplexTree.operation .sum hproduct (.complex (.int 1) (.int 2) (by decide) (by decide))
  ⟨htree, complex_tree_reread htree (by decide +kernel)⟩

/-- **A number of two parts as a factor is torn apart**: only its second part is multiplied, so that there is something left
where the other factor is zero. -/
theorem complex_factor_reread :
    ComplexTree (between (.text "*") (complex (.int 1) (.int 2) missing missing) (ofSymbol (.text "x") .null)) ∧
    (between (.text "*") (complex (.int 1) (.int 2) missing missing) (ofSymbol (.text "x") .null)).latex {} .builtin =
      .ok "1+2\\mathrm\x7bi\x7d\\cdot x" ∧
    ∃ e, IsReadAs "1+2\\mathrm\x7bi\x7d\\cdot x" e ∧ ∃ I : Interpretation ℂ, I.IsComplex ∧
      complexValue I (between (.text "*") (complex (.int 1) (.int 2) missing missing) (ofSymbol (.text "x") .null)) = some 0 ∧
      value I e = some 1 := by
  have hx : IsTextOfValue "x" (fun I => I.symbol (.text "x") .null) fun _ => False :=
    (isBaseText_letter (d := 'x') (by decide)).isOperandText rfl |>.isPrimaryText.isTextOfValue (fun _ _ => rfl) _
  have hone := isTextOfValue_wholeText (n := 1) (by decide)
  have htwo := isTextOfValue_units (n := 2) (by decide)
  have hproduct := IsTextOfValue.append (o := .product) (htwo.single _) (hx.single _)
  have hsum := IsTextOfValue.append (o := .sum) (hone.single _)
    (hproduct.mono fun p hp => ⟨Int.le_trans (by decide) hp, fun h => by cases h⟩)
  obtain ⟨e, hread, hvalue⟩ := hsum.isReadAs
  have htext : Format.wholeText 1 ++ (Operation.sum.sign ++ (unitsText 2 ++ (Operation.product.sign ++ "x"))) =
      "1+2\\mathrm\x7bi\x7d\\cdot x" := by decide +kernel
  -- `x` is zero
  let I : Interpretation ℂ :=
    ⟨fun name _ => if name.isText "i" then Complex.I else 0, fun _ _ => 0, fun _ => 0, fun _ _ => 0⟩
  refine ⟨.operation .product (.complex (.int 1) (.int 2) (by decide) (by decide)) (.symbol (.plain (d := 'x') (by decide))),
    by decide +kernel, e, htext ▸ hread, I, rfl, ?_, ?_⟩
  · show some ((((1 : Int) : ℂ) + ((2 : Int) : ℂ) * Complex.I) * 0) = _
    rw [mul_zero]
  · rw [hvalue I rfl]
    show some (((1 : Nat) : ℂ) + ((2 : Nat) : ℂ) * Complex.I * 0) = _
    rw [mul_zero, add_zero, Nat.cast_one]

end Formula
