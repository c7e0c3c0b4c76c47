import Formula.Proofs.Format.Shown
import Formula.Proofs.Reader.NumberRows
import Formula.Proofs.Source.Digits

/-!
# Numbers that are written and read again

What a format writes of a number is a source that is read as the row of a number.  A block of digits that repeats is written
out far enough that the number that is read is as close as the one that is shown.
-/

namespace Formula

open Number Text Atom Expr

/-! ### Signs of products -/

/-- What may stand between a number and its power of ten. -/
inductive ProductSign where
  | cdot
  | times
deriving DecidableEq

namespace ProductSign

/-- How the sign is written. -/
def text : ProductSign → String
  | cdot => "\\cdot "
  | times => "\\times "

/-- The atom of the sign. -/
def atom : ProductSign → Atom
  | cdot => { type := .binary, value := "\\cdot", latex := "\\cdot" }
  | times => { type := .binary, value := "\\times", latex := "\\times" }

/-- The sign to the reader. -/
def operator (s : ProductSign) : OperatorAtom .builtin where
  atom := s.atom
  name := .text "*"
  precedence := 390
  plain := {
    worded := by cases s <;> exact ⟨⟨_, rfl⟩, .inr ⟨_, rfl⟩, .inl rfl, .inl rfl, .inl rfl, .inl rfl⟩
    unscripted := by cases s <;> rfl
    spelling := fun t ht => by
      have heq : t = trim s.text := by
        cases s <;> exact (Datum.text.inj (Except.ok.inj ht)).symm
      subst heq
      cases s <;> decide }
  type_eq := by cases s <;> exact .inl rfl
  name_eq := by cases s <;> rfl
  precedence_eq := by cases s <;> rfl
  nonneg := by decide

theorem spells_text (s : ProductSign) : Source.Spells .builtin s.text [s.atom] := by
  cases s with
  | cdot => exact @Source.spells_command _ ['c', 'd', 'o', 't'] (by decide) (by decide) (by decide) (by decide) _ rfl
  | times => exact @Source.spells_command _ ['t', 'i', 'm', 'e', 's'] (by decide) (by decide) (by decide) (by decide) _ rfl

end ProductSign

/-! ### The texts of a layout -/

namespace Source

theorem spells_intText (n : Int) : Spells .builtin (intText n) (intRow n) := by
  have hdigits : Spells .builtin (String.ofList (Nat.toDigits 10 n.natAbs)) ((Nat.toDigits 10 n.natAbs).map ofCharacter) :=
    spells_digits (List.all_eq_true.mp (Format.all_toDigits n.natAbs))
  unfold intText intRow
  split
  · exact (Operation.spells_sign .difference).append hdigits
  · exact hdigits

theorem spells_power (n : Int) : Spells .builtin (Format.Layout.power n) (powerRow n) := by
  have hten : Spells .builtin "10" ([ofCharacter '1'] ++ [ofCharacter '0']) := @spells_digits ['1', '0'] (List.all_eq_true.mp rfl)
  have hraised := hten.script .super ⟨rfl, by decide⟩ (spells_intText n)
  have htext : "10" ++ (Script.super.sign ++ ("\x7b" ++ intText n ++ "\x7d")) = Format.Layout.power n := by
    show "10" ++ ("^" ++ ("\x7b" ++ intText n ++ "\x7d")) = "10^\x7b" ++ intText n ++ "\x7d"
    rw [← String.append_assoc, ← String.append_assoc, ← String.append_assoc]
    rfl
  rw [htext] at hraised
  exact hraised

end Source

/-! ### Signs of numbers -/

/-- A minus, if there is one. -/
def minusRow (negative : Bool) : List Atom := if negative then [minusAtom] else []

/-- The number with its sign. -/
def withMinus (negative : Bool) (x : Rat) : Rat := if negative then -x else x

theorem abs_withMinus (negative : Bool) (x : Rat) : |withMinus negative x| = |x| := by
  cases negative with
  | true => exact abs_neg x
  | false => rfl

theorem withMinus_sub (negative : Bool) (x y : Rat) : withMinus negative (x - y) = withMinus negative x - withMinus negative y := by
  cases negative with
  | true => exact neg_sub' x y
  | false => rfl

theorem unspaced_minusRow (negative : Bool) : unspaced (minusRow negative) = minusRow negative := by cases negative <;> rfl

theorem spells_minus (negative : Bool) : Source.Spells .builtin (if negative then "-" else "") (minusRow negative) := by
  cases negative with
  | true => exact Operation.spells_sign .difference
  | false => exact ⟨[], Token.Scans.nil, Source.Yields.nil⟩

/-- An operand is a primary with a minus in front of it, and without one. -/
theorem IsOperand.signed {Reads : List Atom → Expr → Rat → Prop} {row : List Atom} {e : Expr} {x : Rat}
    (h : IsOperand .builtin row e) (hreads : Reads row e x) (negative : Bool) : ∃ e',
      IsPrimary .builtin (minusRow negative ++ row) e' ∧ IsSigned Reads (minusRow negative ++ row) e' (withMinus negative x) := by
  cases negative with
  | true => exact ⟨_, h.isPrimary.sign Sign.minus.signAtom, .minus hreads⟩
  | false => exact ⟨e, h.isPrimary, .plain hreads⟩

namespace Format.Layout

open Source

/-- The digits that are read of a mantissa: a block is written out. -/
def readChars (l : Layout) : List Char :=
  if l.fraction = [] ∧ l.block = [] then l.whole
  else l.whole ++ '.' :: (l.fraction ++ blocks l.block (copies l.block))

/-- The mantissa without the mark of digits that were cut off. -/
def digitsText (l : Layout) : String :=
  spaced (digitGroups l.whole) ++ (if l.fraction = [] ∧ l.block = [] then "" else "." ++ l.fractionText)

/-- The digits behind the point spell themselves and the block written out. -/
theorem spells_fractionText {l : Layout} (h : l.Sound) (hne : ¬(l.fraction = [] ∧ l.block = [])) : ∃ row a,
    Spells .builtin ("." ++ l.fractionText) (pointAtom :: (row ++ [a])) ∧
      unspaced (row ++ [a]) = (l.fraction ++ blocks l.block (copies l.block)).map ofCharacter ∧ isPlainDigit a = true ∧
      IsThinlySpaced (row ++ [a]) := by
  unfold fractionText
  by_cases hblock : l.block = []
  · obtain ⟨row, a, hfraction, hrow, ha⟩ := spells_spaced 0 (fun hnil => hne ⟨hnil, hblock⟩) h.fraction
    have hnone : blocks [] (copies []) = [] := List.flatten_replicate_nil
    rw [if_pos hblock, String.append_empty, hblock, hnone, List.append_nil]
    exact ⟨row, a, spells_point.append hfraction, hrow, ha⟩
  · obtain ⟨row, hfraction, hrow, hthin⟩ : ∃ row, Spells .builtin (spaced (groupsFrom 0 l.fraction)) row ∧
        unspaced row = l.fraction.map ofCharacter ∧ IsThinlySpaced row := by
      by_cases hnil : l.fraction = []
      · exact ⟨[], by rw [hnil]; exact ⟨[], Token.Scans.nil, Yields.nil⟩, by rw [hnil]; rfl, fun a ha => by cases ha⟩
      · obtain ⟨row, a, hfraction, hrow, -, hthin⟩ := spells_spaced 0 hnil h.fraction
        exact ⟨_, hfraction, hrow, hthin⟩
    have hspells := (spells_point.append hfraction).block (isDigits_of_unspaced h.fraction hrow) hblock h.block
    -- The block is written out to some digits, the last of which ends the row.
    obtain ⟨front, last, hlast⟩ : ∃ front last, blocks l.block (copies l.block) = front ++ [last] :=
      ⟨_, _, (List.dropLast_concat_getLast (blocks_ne_nil hblock)).symm⟩
    have hdigit : last.isDigit = true :=
      isDigit_of_mem_blocks h.block last (hlast ▸ List.mem_append_right _ (List.mem_singleton_self _))
    have hrest : unspaced (row ++ (blocks l.block (copies l.block)).map ofCharacter) =
        (l.fraction ++ blocks l.block (copies l.block)).map ofCharacter := by
      rw [unspaced_append, hrow, unspaced_digits, List.map_append]
    have hall := hthin.append (isThinlySpaced_characters (blocks l.block (copies l.block)))
    have htext : "." ++ spaced (groupsFrom 0 l.fraction) ++ ("\\overline" ++ ("\x7b" ++ String.ofList l.block ++ "\x7d")) =
        "." ++ (spaced (groupsFrom 0 l.fraction) ++ ("\\overline\x7b" ++ String.ofList l.block ++ "\x7d")) := by
      have hopen : "\\overline\x7b" = "\\overline" ++ "\x7b" := rfl
      simp only [hopen, String.append_assoc]
    rw [htext] at hspells
    rw [if_neg hblock, ← hrest]
    rw [hlast, List.map_append, List.map_singleton, ← List.append_assoc] at hspells hall ⊢
    exact ⟨_, _, hspells, rfl, isPlainDigit_ofCharacter hdigit, hall⟩

/-- The digits of a mantissa spell the digits that are read. -/
theorem spells_digitsText {l : Layout} (h : l.Sound) : ∃ row a, Spells .builtin l.digitsText (row ++ [a]) ∧
    unspaced (row ++ [a]) = l.readChars.map ofCharacter ∧ isPlainDigit a = true ∧ IsThinlySpaced (row ++ [a]) := by
  obtain ⟨row, a, hwhole, hrow, ha, hthin⟩ := spells_spaced (l.whole.length % 3) h.whole_ne h.whole
  unfold digitsText readChars
  by_cases hplain : l.fraction = [] ∧ l.block = []
  · rw [if_pos hplain, if_pos hplain, String.append_empty]
    exact ⟨row, a, hwhole, hrow, ha, hthin⟩
  · obtain ⟨row', a', hfraction, hrow', ha', hthin'⟩ := spells_fractionText h hplain
    have hpoint : unspaced [pointAtom] = [pointAtom] := rfl
    rw [if_neg hplain, if_neg hplain]
    refine ⟨row ++ [a] ++ pointAtom :: row', a', ?_, ?_, ha', ?_⟩
    · rw [List.append_assoc (row ++ [a]), List.cons_append]
      exact hwhole.append hfraction
    · rw [List.append_assoc (row ++ [a]), List.cons_append, List.append_cons, unspaced_append, unspaced_append, hrow, hrow',
        hpoint, List.append_assoc, @List.map_append _ _ ofCharacter l.whole, List.map_cons]
      rfl
    · rw [List.append_assoc (row ++ [a]), List.cons_append, List.append_cons]
      exact (hthin.append (isThinlySpaced_characters ['.'])).append hthin'

theorem mantissa_eq (l : Layout) : l.mantissa = l.digitsText ++ (if l.cut then "\\ldots" else "") := rfl

/-- The atoms of a layout, without spaces. -/
def readRow (sign : ProductSign) (l : Layout) : List Atom :=
  if l.shift = 0 then l.readChars.map ofCharacter
  else if l.mantissa = "1" then powerRow l.shift
  else l.readChars.map ofCharacter ++ sign.atom :: powerRow l.shift

theorem unspaced_powerRow (n : Int) : unspaced (powerRow n) = powerRow n := rfl

/-- **A layout spells its digits and its power of ten**, with small spaces between groups of digits and none at the end. -/
theorem spells_row {l : Layout} (h : l.Sound) (sign : ProductSign) : ∃ row a,
    SpellsBefore .builtin (l.text sign.text) (row ++ [a]) ∧ unspaced (row ++ [a]) = l.readRow sign ∧ a.type ≠ .spacing ∧
      IsThinlySpaced (row ++ [a]) := by
  obtain ⟨row, a, hdigits, hrow, ha, hthin⟩ := spells_digitsText h
  have hpowerThin : IsThinlySpaced (powerRow l.shift) := by
    intro b hb htype
    simp only [powerRow, List.mem_cons, List.not_mem_nil, or_false] at hb
    rcases hb with rfl | rfl <;> cases htype
  have hzeroType : ((ofCharacter '0').scripted (some (intRow l.shift)) none).type ≠ .spacing := fun h => (by cases h)
  unfold text readRow
  by_cases hzero : l.shift = 0
  · rw [if_pos hzero, if_pos hzero, mantissa_eq]
    refine ⟨row, a, ?_, hrow, ?_, hthin⟩
    · cases l.cut with
      | true => exact hdigits.ellipsis ha
      | false =>
        rw [if_neg Bool.false_ne_true, String.append_empty]
        exact hdigits.before
    · obtain ⟨d, -, hplain⟩ := List.any_eq_true.mp ha
      simp only [Source.isPlain, Bool.and_eq_true, beq_iff_eq] at hplain
      rw [hplain.1.1]
      decide
  rw [if_neg hzero, if_neg hzero]
  by_cases hone : l.mantissa = "1"
  · rw [if_pos hone, if_pos hone]
    exact ⟨[_], _, (spells_power l.shift).before, rfl, hzeroType, hpowerThin⟩
  rw [if_neg hone, if_neg hone, mantissa_eq]
  have hpower := sign.spells_text.append (spells_power l.shift)
  have hsign : unspaced [sign.atom] = [sign.atom] := by cases sign <;> rfl
  have hsignThin : IsThinlySpaced [sign.atom] := by
    intro b hb htype
    rw [List.mem_singleton.mp hb] at htype
    cases sign <;> cases htype
  have hend : row ++ [a] ++ ([sign.atom] ++ powerRow l.shift) = row ++ [a] ++ [sign.atom, ofCharacter '1'] ++
      [(ofCharacter '0').scripted (some (intRow l.shift)) none] := by
    rw [List.append_assoc (row ++ [a])]
    rfl
  refine ⟨row ++ [a] ++ [sign.atom, ofCharacter '1'], _, ?_, ?_, hzeroType, ?_⟩
  · rw [← hend]
    cases l.cut with
    | true =>
      have hcommand : StartsApart (sign.text ++ power l.shift) := by
        cases sign <;> exact StartsApart.append ⟨_, _, rfl, by decide⟩ _
      have := ((hdigits.ellipsis ha).append hpower hcommand).before
      rwa [← String.append_assoc] at this
    | false =>
      have := (hdigits.append hpower).before
      rwa [if_neg Bool.false_ne_true, String.append_empty, String.append_assoc]
  · rw [← hend, unspaced_append (row ++ [a]), unspaced_append [sign.atom], hrow, hsign, unspaced_powerRow]
    rfl
  · rw [← hend]
    exact hthin.append (hsignThin.append hpowerThin)

theorem spells_text {l : Layout} (h : l.Sound) (sign : ProductSign) :
    ∃ row, SpellsBefore .builtin (l.text sign.text) row ∧ unspaced row = l.readRow sign := by
  obtain ⟨row, a, hspells, hrow, -, -⟩ := spells_row h sign
  exact ⟨_, hspells, hrow⟩

/-! ### The expression of a layout -/

/-- What is read behind the last digit of the fraction, as a part of one unit of it. -/
def readTail (l : Layout) : Rat :=
  digitsToNat (blocks l.block (copies l.block)) / 10 ^ (blocks l.block (copies l.block)).length

theorem readTail_nil {l : Layout} (h : l.block = []) : l.readTail = 0 := by
  have hnone : blocks ([] : List Char) (copies []) = [] := List.flatten_replicate_nil
  rw [readTail, h, hnone]
  norm_num [digitsToNat]

/-- The digits of a mantissa are a literal. -/
theorem reads_mantissa {l : Layout} (h : l.Sound) : ∃ e, IsOperand .builtin (l.readChars.map ofCharacter) e ∧
    IsLiteral (l.readChars.map ofCharacter) e
      (digitsToNat l.whole + (digitsToNat l.fraction + l.readTail) / 10 ^ l.fraction.length) := by
  unfold readChars
  by_cases hplain : l.fraction = [] ∧ l.block = []
  · obtain ⟨e, hoperand, hliteral⟩ := reads_digits h.whole_ne h.whole
    have hnone : (digitsToNat l.fraction + l.readTail) / 10 ^ l.fraction.length = 0 := by
      rw [readTail_nil hplain.2, hplain.1]
      norm_num [digitsToNat]
    rw [if_pos hplain, hnone, add_zero]
    exact ⟨e, hoperand, hliteral⟩
  · have hdigits : ∀ d ∈ l.fraction ++ blocks l.block (copies l.block), d.isDigit = true := by
      intro d hd
      rcases List.mem_append.mp hd with hd | hd
      · exact h.fraction d hd
      · exact isDigit_of_mem_blocks h.block d hd
    have hne : l.fraction ++ blocks l.block (copies l.block) ≠ [] := by
      intro hnil
      obtain ⟨hfraction, hwritten⟩ := List.append_eq_nil_iff.mp hnil
      exact hplain ⟨hfraction, by_contra fun hblock => blocks_ne_nil hblock hwritten⟩
    obtain ⟨e, hoperand, hliteral⟩ := reads_pointed h.whole_ne h.whole hne hdigits
    have hvalue : (digitsToNat (l.fraction ++ blocks l.block (copies l.block)) : Rat) /
        10 ^ (l.fraction ++ blocks l.block (copies l.block)).length =
          (digitsToNat l.fraction + l.readTail) / 10 ^ l.fraction.length := by
      rw [readTail, digitsToNat_append, List.length_append, pow_add, ← tenTo_cast (blocks l.block _).length]
      have htens : (0 : Rat) < tenTo (blocks l.block (copies l.block)).length := Nat.cast_pos.mpr (tenTo_pos _)
      push_cast
      field_simp
    rw [if_neg hplain, ← hvalue]
    exact ⟨e, hoperand, hliteral⟩

/-- A bare power of ten stands for a one in front of it. -/
theorem valueWith_one {l : Layout} (h : l.Sound) (hone : l.mantissa = "1") : l.valueWith l.readTail = 10 ^ l.shift := by
  obtain ⟨hwhole, hfraction, hblock⟩ := l.eq_one h hone
  have hvalue : digitsToNat ['1'] = 1 := rfl
  have hnone : digitsToNat [] = 0 := rfl
  rw [valueWith, readTail_nil hblock, hwhole, hfraction, hvalue, hnone]
  norm_num

/-- **A layout is read as its number**, with a minus in front or without one. -/
theorem reads_row {l : Layout} (h : l.Sound) (sign : ProductSign) (negative : Bool) : ∃ first links e,
    IsChain .builtin (minusRow negative ++ l.readRow sign) first links ∧ Arranges first links e ∧
      IsNumberRow (minusRow negative ++ l.readRow sign) e (withMinus negative (l.valueWith l.readTail)) := by
  obtain ⟨mantissa, hmantissa, hliteral⟩ := reads_mantissa h
  obtain ⟨power, hpower, hraised⟩ := reads_power l.shift
  obtain ⟨e, he, hsigned⟩ := hmantissa.signed hliteral negative
  unfold readRow
  by_cases hzero : l.shift = 0
  · rw [if_pos hzero, valueWith, hzero, zpow_zero, mul_one]
    exact ⟨e, [], e, he.isChain, .leaf e, .literal hsigned⟩
  rw [if_neg hzero]
  by_cases hone : l.mantissa = "1"
  · obtain ⟨e', he', hsigned'⟩ := hpower.signed hraised negative
    rw [if_pos hone, valueWith_one h hone]
    exact ⟨e', [], e', he'.isChain, .leaf e', .power hsigned'⟩
  · obtain ⟨start, hchain⟩ := he.isChain.append sign.operator hpower.isPrimary.isChain
    have hvalue : withMinus negative (l.valueWith l.readTail) = withMinus negative
        (digitsToNat l.whole + (digitsToNat l.fraction + l.readTail) / 10 ^ l.fraction.length) * 10 ^ l.shift := by
      cases negative with
      | true => exact (neg_mul _ _).symm
      | false => rfl
    rw [if_neg hone, hvalue, ← List.append_assoc]
    refine ⟨e, _, between (.text "*") e power, hchain, ?_, .product hsigned sign.operator.name_eq hraised⟩
    exact @Arranges.node e [] [] ⟨_, start, _, _, power⟩ e power (.leaf e) (.leaf power) (fun _ h => by cases h)
      (fun _ h => by cases h)

end Format.Layout

/-! ### The number that is read -/

namespace Format

/-- The power of ten that is taken out leaves at most six zeros behind the point. -/
theorem ExponentRule.shiftOf_le (rule : ExponentRule) (p leading : Int) :
    shiftOf (.text rule.name) p leading ≤ leading + 6 := by
  cases rule with
  | auto =>
    have hauto : shiftOf (.text ExponentRule.auto.name) p leading =
        if leastPlainExponent ≤ leading ∧ leading < p then 0 else leading := rfl
    rw [hauto]
    unfold leastPlainExponent
    split <;> omega
  | on =>
    have hon : shiftOf (.text ExponentRule.on.name) p leading = leading := rfl
    omega
  | engineering =>
    have hengineering : shiftOf (.text ExponentRule.engineering.name) p leading = leading - leading % 3 := rfl
    omega

section Decimals

variable {d : Decimal} (h : 0 < d.units) {p : Nat} (hp : 0 < p)

include h hp

/-- The places behind the point are as many as a block is written out to. -/
theorem fraction_le (hle : p ≤ 15) (rule : ExponentRule) : (splitDigits (rounded p d).digits
    ((rounded p d).leading - shiftOf (.text rule.name) p (rounded p d).leading + 1)).2.length ≤ Source.repeatedDigits := by
  obtain ⟨n, hdigits, -, hlength, -⟩ := rounded_spec h hp (Nat.le_trans hle (by decide))
  have hshift := rule.shiftOf_le p (rounded p d).leading
  obtain ⟨shift, hs⟩ : ∃ shift, shiftOf (.text rule.name) p (rounded p d).leading = shift := ⟨_, rfl⟩
  have htwenty : Source.repeatedDigits = 20 := rfl
  rw [hs] at hshift ⊢
  rw [hdigits, htwenty]
  by_cases hnil : (splitDigits (Nat.toDigits 10 n) ((rounded p d).leading - shift + 1)).2 = []
  · rw [hnil]
    exact Nat.zero_le _
  · obtain ⟨-, -, -, -, hplaces⟩ := splitDigits_last n _ hnil
    omega

/-- **Without a block the number that is read is the rounded one**, and with one it is close to the number. -/
theorem layoutOf_reread (hle : p ≤ 15) (rule : ExponentRule) {l : Layout}
    (hl : layoutOf (rounded p d) (shiftOf (.text rule.name) p (rounded p d).leading) = l) :
    (l.block = [] → l.valueWith l.readTail = halfUp p d.toRat) ∧
      |l.valueWith l.readTail - d.toRat| < 10 ^ (2 - p : Int) * d.toRat := by
  have hcontext : p ≤ contextPlaces := Nat.le_trans hle (by decide)
  have hsound := layoutOf_sound h hp hcontext (shiftOf (.text rule.name) p (rounded p d).leading)
  have hvalue := layoutOf_value h hp hcontext (shiftOf (.text rule.name) p (rounded p d).leading)
  have hnear := layoutOf_near h hp hcontext (shiftOf (.text rule.name) p (rounded p d).leading)
  rw [hl] at hsound hvalue hnear
  have hexact : l.block = [] → l.valueWith l.readTail = halfUp p d.toRat := by
    intro hblock
    rw [Layout.readTail_nil hblock, hvalue hblock]
  refine ⟨hexact, ?_⟩
  by_cases hblock : l.block = []
  · rw [hexact hblock]
    exact halfUp_close p (Decimal.toRat_pos h)
  · refine hnear hblock (by unfold Layout.readTail; positivity) ?_
    exact goesOn_blocks hsound.block (Nat.le_trans (fraction_le h hp hle rule) (Source.repeatedDigits_le hblock))

end Decimals

/-- The text has digits under a line. -/
def Marked (text : String) : Prop := "\\overline".toList <:+: text.toList

theorem zero_unmarked : ¬Marked "0" := by
  unfold Marked
  decide

theorem Marked.append_left {s : String} (h : Marked s) (behind : String) : Marked (s ++ behind) := by
  rw [Marked, String.toList_append]
  exact h.trans (List.prefix_append _ _).isInfix

theorem Marked.append_right {s : String} (h : Marked s) (front : String) : Marked (front ++ s) := by
  rw [Marked, String.toList_append]
  exact h.trans (List.suffix_append _ _).isInfix

/-- A block that repeats is under a line. -/
theorem Layout.marked {l : Layout} (h : l.Sound) (hblock : l.block ≠ []) (front : String) (sign : ProductSign) :
    Marked (front ++ l.text sign.text) := by
  have hmantissa : Marked l.mantissa := by
    have hline : Marked "\\overline\x7b" := ⟨[], ['\x7b'], rfl⟩
    unfold Layout.mantissa Layout.fractionText
    rw [if_neg fun h => hblock h.2, if_neg hblock]
    exact (((((hline.append_left _).append_left _).append_right _).append_right _).append_right _).append_left _
  have hone : l.mantissa ≠ "1" := fun hone => hblock (l.eq_one h hone).2.2
  refine Marked.append_right ?_ front
  unfold Layout.text
  rw [if_neg hone]
  split
  · exact hmantissa
  · exact (hmantissa.append_left _).append_left _

/-- **A layout is read again as the row of its number.** -/
theorem Layout.reread {l : Layout} (h : l.Sound) (sign : ProductSign) (negative : Bool) : ∃ atoms e,
    Source.atoms .builtin ((if negative then "-" else "") ++ l.text sign.text) = .ok atoms ∧
      ofAtoms .builtin atoms = .ok e ∧ IsNumberRow (unspaced atoms) e (withMinus negative (l.valueWith l.readTail)) := by
  obtain ⟨row, hspells, hrow⟩ := l.spells_text h sign
  obtain ⟨first, links, e, hchain, harranged, hnumber⟩ := l.reads_row h sign negative
  have hall : unspaced (minusRow negative ++ row) = minusRow negative ++ l.readRow sign := by
    rw [unspaced_append, unspaced_minusRow, hrow]
  rw [← hall] at hchain hnumber
  exact ⟨_, e, ((spells_minus negative).append_before hspells).atoms, by rw [ofAtoms_eq, (hchain.isWhole harranged).read], hnumber⟩

end Format

/-- The value is a finite number: an integer of at most `contextPlaces` digits, or a floating-point number, which is taken as
the shortest decimal that reads back. -/
inductive Datum.IsFinite : Datum → Rat → Prop
  | nonzero {v : Datum} {negative : Bool} {x : Rat} : v.IsNumber negative x → IsFinite v (withMinus negative x)
  | zero : IsFinite (.int 0) 0
  | zeroDouble (negative : Bool) (q : Int) : IsFinite (.float (.finite negative 0 q)) 0

namespace Format

/-- Rounds a number with its sign to `p` significant digits, a half going away from zero. -/
def roundHalf (p : Nat) (x : Rat) : Rat := if x < 0 then -halfUp p (-x) else halfUp p x

theorem roundHalf_withMinus (p : Nat) {x : Rat} (hx : 0 < x) (negative : Bool) :
    roundHalf p (withMinus negative x) = withMinus negative (halfUp p x) := by
  cases negative with
  | true =>
    show (if -x < 0 then -halfUp p (- -x) else halfUp p (-x)) = -halfUp p x
    rw [if_pos (neg_neg_of_pos hx), neg_neg]
  | false => exact if_neg (not_lt.mpr hx.le)

/-- The layout of zero. -/
def zeroLayout : Layout := ⟨['0'], [], [], false, 0⟩

theorem zeroLayout_sound : zeroLayout.Sound where
  whole_ne := List.cons_ne_nil _ _
  whole := List.all_eq_true.mp rfl
  fraction _ h := absurd h List.not_mem_nil
  block _ h := absurd h List.not_mem_nil
  cut _ := rfl

theorem zeroLayout_value : zeroLayout.valueWith zeroLayout.readTail = 0 := by
  have hzero : digitsToNat zeroLayout.whole = 0 := rfl
  have hnone : digitsToNat zeroLayout.fraction = 0 := rfl
  rw [Layout.valueWith, Layout.readTail_nil rfl, hzero, hnone]
  norm_num

example : (forNumbers 14 "auto" "\\times ").number (.float (.finite false 6004799503160661 (-54))) =
    .ok "0.\\overline\x7b3\x7d" := by decide

end Format

end Formula
