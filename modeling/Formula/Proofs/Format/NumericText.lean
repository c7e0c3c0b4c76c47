import Formula.Expr.Query
import Formula.Proofs.Format.RepeatedZeros
import Formula.Proofs.Number.RatioText
import Formula.Proofs.Number.WholeText

/-!
# The value of a text and the number that is written for it

A literal with a text has a value (`literalValue`), and a number is written for the text (`Format.number`).  The value takes the
text of a ratio as a whole, and the writer takes its two sides.  Where the value is a number the writer writes the same number;
the writer also takes ratios of decimals, of ratios and with blanks next to the slash, and removes separators around a double,
all of which have no value: `text_readers` says so of every text.

Every number is written, and so is every text without a slash.  A value of another kind is not, and the text of a ratio may stand
for one with too many digits.
-/

namespace Formula

open Number Outcome Text

namespace Format

/-- In front of the first slash. -/
def numeratorOf (s : String) : List Char := (trim s).toList.takeWhile (· ≠ '/')

/-- Behind the first slash. -/
def denominatorOf (s : String) : List Char := ((trim s).toList.dropWhile (· ≠ '/')).drop 1

/-- The text writes a whole number on either side of a slash, a sign at most in front of the first, or it is a text without a
slash that has no information separators around it. -/
def IsPlainlyWritten (s : String) : Prop :=
  if '/' ∈ s.toList then
    (∃ sign ds, WritesWhole (numeratorOf s) sign ds) ∧ ∃ es, WritesWhole (denominatorOf s) [] es
  else stripped isNumberBlank s.toList = trimChars s.toList

/-- The text shows a ratio in lowest terms: a zero, an integer, or a fraction. -/
def ShowsRatio (r : Rat) (text : String) : Prop :=
  if r.num = 0 then text = "0"
  else if r.den = 1 then
    ({} : Format).number (.int r.num) = .ok text ∧ (r.num.natAbs < tenTo 14 → text = signText r.num ++ wholeText r.num.natAbs)
  else text = signText r.num ++ "\\frac\x7b" ++ intText r.num.natAbs ++ "\x7d\x7b" ++ intText r.den ++ "\x7d"

/-! ### Slashes -/

theorem holds_slash (s : String) : holds s "/" = true ↔ '/' ∈ s.toList := by
  show holdsChars ['/'] s.toList = true ↔ _
  induction s.toList with
  | nil => simp [holdsChars]
  | cons c cs ih => rw [holdsChars, Bool.or_eq_true, ih, List.mem_cons, List.isPrefixOf_cons_cons]; simp

theorem mem_trim_slash (s : String) : '/' ∈ (trim s).toList ↔ '/' ∈ s.toList := by
  obtain ⟨before, behind, hsplit, hbefore, hbehind, -⟩ := stripped_spec isBlank s.toList
  rw [trim, String.toList_ofList]
  conv => rhs; rw [hsplit]
  have hslash : isBlank '/' = false := by decide
  constructor
  · exact fun h => List.mem_append_right _ (List.mem_append_left _ h)
  · intro h
    rcases List.mem_append.mp h with h | h
    · exact absurd (hbefore _ h) (by rw [hslash]; decide)
    · exact (List.mem_append.mp h).resolve_right fun h => absurd (hbehind _ h) (by rw [hslash]; decide)

/-- A text with a slash, in its two sides. -/
theorem trim_sides {s : String} (h : '/' ∈ s.toList) :
    (trim s).toList = numeratorOf s ++ '/' :: denominatorOf s ∧ '/' ∉ numeratorOf s :=
  ⟨split_slash ((mem_trim_slash s).mpr h), notMem_takeWhile_slash _⟩

theorem trim_eq_sides {s : String} (h : '/' ∈ s.toList) :
    trim s = String.ofList (numeratorOf s ++ '/' :: denominatorOf s) := by
  rw [← (trim_sides h).1, String.ofList_toList]

/-! ### Ratios -/

theorem number_ratioText (f : Format) {s : String} (h : '/' ∈ s.toList) :
    f.number (.text s) = f.ratioText (String.ofList (numeratorOf s)) (String.ofList (denominatorOf s)) := by
  have hslash : (trim s).toList.contains '/' = true := List.contains_iff_mem.mpr ((mem_trim_slash s).mpr h)
  show f.numberText (trim s) = _
  unfold numberText
  dsimp only
  rw [if_pos hslash]
  rfl

/-- A ratio that writes whole numbers is written as it is read. -/
theorem number_of_sides {s : String} (h : '/' ∈ s.toList) {sign ds es : List Char}
    (hds : WritesWhole (numeratorOf s) sign ds) (hes : WritesWhole (denominatorOf s) [] es) :
    ({} : Format).number (.text s) = match readRatio (trim s) with
      | .ok r => ({} : Format).ratio r
      | .error _ => .ok notANumber := by
  have hsigned : signedBy [] (digitsToNat es) = digitsToNat es := if_neg (by decide)
  rw [number_ratioText _ h, ratioText, readRatio_trim, readRatio_trim, readRatio_whole hds, readRatio_whole hes,
    trim_eq_sides h, readRatio_slash hds hes, hsigned]
  by_cases hlong : maxIntDigits < ds.length
  · rw [if_pos hlong, if_pos (Or.inl hlong)]
  by_cases hlong' : maxIntDigits < es.length
  · rw [if_neg hlong, if_pos hlong', if_pos (Or.inr hlong')]
  rw [if_neg hlong, if_neg hlong', if_neg (not_or.mpr ⟨hlong, hlong'⟩)]
  have hzero : (digitsToNat es : Rat).num = 0 ↔ digitsToNat es = 0 := by simp
  by_cases hnone : digitsToNat es = 0
  · rw [if_pos hnone]
    exact if_pos (hzero.mpr hnone)
  · rw [if_neg hnone]
    exact if_neg (hzero.not.mpr hnone)

/-- A number that is written with a sign is not written as none. -/
theorem signed_ne_notANumber (negative : Bool) (d : Decimal) :
    ∃ text, ({} : Format).signed negative d = .ok text ∧ text ≠ notANumber := by
  refine ⟨_, @signed_text 14 (by decide) (by decide) negative d, fun heq => ?_⟩
  have hnone : readShown notANumber = none := by decide
  rw [← heq, readShown_text (layoutOf_rounded_sound 14 _ _)] at hnone
  cases hnone

theorem digitsOf_of_lt {n : Nat} (h : n < tenTo maxWrittenDigits) : digitsOf n = .ok (intText n) := by
  have hlength : decimalLength n ≤ maxWrittenDigits := Double.decimalLength_le (by decide) h
  rw [digitsOf, if_neg (Nat.not_lt.mpr hlength)]

/-- A ratio of numbers that are not too long is shown. -/
theorem ratio_shown {r : Rat} (hnum : r.num.natAbs < tenTo maxWrittenDigits) (hden : r.den < tenTo maxWrittenDigits) :
    ∃ text, ({} : Format).ratio r = .ok text ∧ ShowsRatio r text ∧ text ≠ notANumber := by
  by_cases hzero : r.num = 0
  · exact ⟨"0", by rw [Format.ratio, if_pos hzero]; rfl, by rw [ShowsRatio, if_pos hzero], by decide⟩
  by_cases hwhole : r.den = 1
  · obtain ⟨text, htext, hne⟩ := signed_ne_notANumber (decide (r.num < 0)) ⟨r.num.natAbs, 0⟩
    have hnumber : ({} : Format).number (.int r.num) = .ok text := htext
    refine ⟨text, by rw [Format.ratio, if_neg hzero, if_pos hwhole]; exact htext, ?_, hne⟩
    rw [ShowsRatio, if_neg hzero, if_pos hwhole]
    refine ⟨hnumber, fun hshort => ?_⟩
    have := hnumber.symm.trans (number_whole (.int r.num) hshort)
    exact Except.ok.inj this
  · refine ⟨signText r.num ++ "\\frac\x7b" ++ intText r.num.natAbs ++ "\x7d\x7b" ++ intText r.den ++ "\x7d", ?_, ?_, fun heq => ?_⟩
    · rw [Format.ratio, if_neg hzero, if_neg hwhole, digitsOf_of_lt hnum, digitsOf_of_lt hden]
      rfl
    · rw [ShowsRatio, if_neg hzero, if_neg hwhole]
    · have hmem : 'f' ∈ notANumber.toList := by
        rw [← heq]
        simp
      exact absurd hmem (by decide)

/-- The parts of a quotient in lowest terms are no longer than those that are written. -/
theorem quotient_bounds (sign : List Char) {n d k : Nat} (hn : n < k) (hd : d < k) (hne : d ≠ 0) :
    (signedBy sign n / (d : Rat)).num.natAbs < k ∧ (signedBy sign n / (d : Rat)).den < k := by
  obtain ⟨m, hm, hcast⟩ : ∃ m : Int, m.natAbs = n ∧ signedBy sign n = (m : Rat) := by
    unfold signedBy
    split
    · exact ⟨-(n : Int), by simp, by simp⟩
    · exact ⟨n, by simp, by simp⟩
  have hquotient : signedBy sign n / (d : Rat) = Rat.divInt m d := by
    rw [hcast, Rat.divInt_eq_div]
    simp
  rw [hquotient]
  have hden : (Rat.divInt m d).den ∣ d := Int.natCast_dvd_natCast.mp (Rat.den_dvd m d)
  refine ⟨?_, Nat.lt_of_le_of_lt (Nat.le_of_dvd (Nat.pos_of_ne_zero hne) hden) hd⟩
  have hnum : (Rat.divInt m d).num.natAbs ∣ n := by
    rw [← hm]
    exact Int.natAbs_dvd_natAbs.mpr (Rat.num_dvd m (by exact_mod_cast hne))
  by_cases hzero : n = 0
  · obtain rfl : m = 0 := Int.natAbs_eq_zero.mp (hm.trans hzero)
    simpa using Nat.lt_of_le_of_lt (Nat.zero_le _) hn
  · exact Nat.lt_of_le_of_lt (Nat.le_of_dvd (Nat.pos_of_ne_zero hzero) hnum) hn

/-- **What is read as the ratio of a whole text is written**, as the same ratio. -/
theorem number_of_readRatio {s : String} (h : '/' ∈ s.toList) {r : Rat} (hr : readRatio (trim s) = .ok r) :
    IsPlainlyWritten s ∧ ∃ text, ({} : Format).number (.text s) = .ok text ∧ ShowsRatio r text ∧ text ≠ notANumber := by
  obtain ⟨hsides, hnumerator⟩ := trim_sides h
  have hends : EndsKept isBlank (numeratorOf s ++ '/' :: denominatorOf s) := by
    rw [← hsides, trim, String.toList_ofList]
    exact trimChars_ends _
  have hread := hr
  rw [trim_eq_sides h] at hread
  obtain ⟨sign, ds, es, hds, hes⟩ := writesWhole_of_readRatio hnumerator hends hread
  refine ⟨by rw [IsPlainlyWritten, if_pos h]; exact ⟨⟨sign, ds, hds⟩, es, hes⟩, ?_⟩
  rw [number_of_sides h hds hes, hr]
  rw [readRatio_slash hds hes] at hread
  split at hread
  · cases hread
  next hlong =>
  split at hread
  · cases hread
  next hne =>
  obtain rfl := Except.ok.inj hread
  have hbound : ∀ {cs : List Char}, cs.all Char.isDigit = true → ¬maxIntDigits < cs.length →
      digitsToNat cs < tenTo maxWrittenDigits := by
    intro cs hdigits hshort
    have monotone : ∀ {k : Nat}, cs.length ≤ k → tenTo cs.length ≤ tenTo k := Nat.pow_le_pow_right (by decide)
    calc digitsToNat cs < tenTo cs.length := digitsToNat_lt (List.all_eq_true.mp hdigits)
      _ ≤ tenTo maxWrittenDigits := monotone (Nat.le_of_not_lt hshort)
  obtain ⟨hnum, hden⟩ := quotient_bounds sign (hbound hds.digits fun h => hlong (.inl h)) (hbound hes.digits fun h => hlong (.inr h)) hne
  exact ratio_shown hnum hden

/-! ### Doubles -/

theorem number_noSlash (f : Format) {s : String} (h : '/' ∉ s.toList) :
    f.number (.text s) = f.double ((readDouble (trim s)).getD .nan) := by
  have hslash : ¬(trim s).toList.contains '/' = true := fun hmem =>
    h ((mem_trim_slash s).mp (List.contains_iff_mem.mp hmem))
  show f.numberText (trim s) = _
  unfold numberText
  dsimp only
  rw [if_neg hslash]
  cases readDouble (trim s) <;> rfl

theorem double_eq_notANumber {x : Double} (h : ({} : Format).double x = .ok notANumber) : x = .nan := by
  cases x with
  | nan => rfl
  | infinite negative =>
    cases negative with
    | true => exact absurd (Except.ok.inj h) (by decide)
    | false => exact absurd (Except.ok.inj h) (by decide)
  | finite negative m q =>
    have hsigned : ∀ {negative : Bool} {d : Decimal}, ({} : Format).signed negative d ≠ .ok notANumber := by
      intro negative d hsigned
      obtain ⟨text, htext, hne⟩ := signed_ne_notANumber negative d
      exact hne (Except.ok.inj (htext.symm.trans hsigned))
    rw [double] at h
    split at h
    · exact absurd h hsigned
    · exact absurd h hsigned

/-! ### Numbers that cannot be written -/

theorem double_written (x : Double) : ∃ text, ({} : Format).double x = .ok text := by
  cases x with
  | nan => exact ⟨_, rfl⟩
  | infinite negative => exact ⟨_, rfl⟩
  | finite negative m q =>
    rw [double]
    split
    · obtain ⟨text, htext, -⟩ := signed_ne_notANumber false ⟨0, 0⟩
      exact ⟨text, htext⟩
    · obtain ⟨text, htext, -⟩ := signed_ne_notANumber negative (Double.shortest m q)
      exact ⟨text, htext⟩

/-- Every number is written. -/
theorem number_written {value : Datum} (h : value.isNumeric = true) : ∃ text, ({} : Format).number value = .ok text := by
  cases value with
  | bool b => exact double_written (Double.ofInt (Datum.ofBool b))
  | int n =>
    obtain ⟨text, htext, -⟩ := signed_ne_notANumber (decide (n < 0)) ⟨n.natAbs, 0⟩
    exact ⟨text, htext⟩
  | float x => exact double_written x
  | _ => cases h

/-- So is every text without a slash. -/
theorem number_text_written {s : String} (h : '/' ∉ s.toList) : ∃ text, ({} : Format).number (.text s) = .ok text := by
  obtain ⟨text, htext⟩ := double_written ((readDouble (trim s)).getD .nan)
  exact ⟨text, (number_noSlash _ h).trans htext⟩

/-- A value of another kind is not. -/
theorem number_of_neither {value : Datum} (hnumber : value.isNumeric = false) (htext : value.text? = none) :
    ({} : Format).number value = .error (.notNumber value.kindName) := by
  cases value with
  | bool | int | float => cases hnumber
  | text => cases htext
  | _ => rfl

theorem digitsOf_fault {n : Nat} {fault : Fault} (h : digitsOf n = .error fault) : fault = .tooLongToWrite := by
  unfold digitsOf at h
  split at h
  · cases h
    rfl
  · cases h

/-- The digits of a ratio may be too many. -/
theorem ratio_fault {r : Rat} {fault : Fault} (h : ({} : Format).ratio r = .error fault) : fault = .tooLongToWrite := by
  unfold ratio at h
  split at h
  · cases h
  · split at h
    · obtain ⟨text, htext, -⟩ := signed_ne_notANumber (decide (r.num < 0)) ⟨r.num.natAbs, 0⟩
      cases htext.symm.trans h
    · cases hnumerator : digitsOf r.num.natAbs with
      | error f =>
        rw [hnumerator] at h
        cases h
        exact digitsOf_fault hnumerator
      | ok numerator =>
        cases hdenominator : digitsOf r.den with
        | error f =>
          rw [hnumerator, hdenominator] at h
          cases h
          exact digitsOf_fault hdenominator
        | ok denominator =>
          rw [hnumerator, hdenominator] at h
          cases h

theorem ratioText_fault {n d : String} {fault : Fault} (h : ({} : Format).ratioText n d = .error fault) :
    fault = .tooLongToWrite := by
  unfold ratioText at h
  split at h
  · split at h
    · cases h
    · exact ratio_fault h
  · cases h

/-- A number that cannot be written has a value of another kind, or is a ratio with too many digits. -/
theorem number_fault {value : Datum} {fault : Fault} (h : ({} : Format).number value = .error fault) :
    fault = .notNumber value.kindName ∨ fault = .tooLongToWrite := by
  by_cases hnumber : value.isNumeric = true
  · obtain ⟨text, htext⟩ := number_written hnumber
    cases htext.symm.trans h
  cases htext : value.text? with
  | none =>
    cases (number_of_neither (by simpa using hnumber) htext).symm.trans h
    exact .inl rfl
  | some s =>
    obtain rfl : value = .text s := by
      cases value with
      | text => exact congrArg Datum.text (Option.some.inj htext)
      | _ => cases htext
    by_cases hslash : '/' ∈ s.toList
    · exact .inr (ratioText_fault ((number_ratioText _ hslash).symm.trans h))
    · obtain ⟨text, htext⟩ := number_text_written hslash
      cases htext.symm.trans h

end Format

/-! ### The readers of texts -/

namespace Expr

open Format

theorem literalValue_slash {s : String} (h : '/' ∈ s.toList) : literalValue (.text s) = match readRatio (trim s) with
    | .ok r => ratioToDouble r
    | .error _ => .ok .nan := by
  refine (if_pos ((holds_slash s).mpr h)).trans ?_
  cases readRatio (trim s) <;> rfl

theorem literalValue_noSlash {s : String} (h : '/' ∉ s.toList) : literalValue (.text s) = .ok ((readDouble s).getD .nan) := by
  rw [literalValue, if_neg fun hslash => h ((holds_slash s).mp hslash)]

theorem ratioToDouble_ne_nan (r : Rat) : ratioToDouble r ≠ .ok .nan := by
  have hratio : ∀ (negative : Bool) (num den : Nat), Double.ofRatio negative num den ≠ .nan := by
    intro negative num den
    unfold Double.ofRatio
    dsimp only
    repeat' split
    all_goals nofun
  unfold ratioToDouble
  split
  · nofun
  · exact fun h => hratio _ _ _ (Except.ok.inj h)

/-- A text has no number as its value just if none is written for it, or it is not written plainly. -/
theorem literalValue_eq_nan_iff (s : String) : literalValue (.text s) = .ok .nan ↔
    ({} : Format).number (.text s) = .ok notANumber ∨ ¬IsPlainlyWritten s := by
  by_cases h : '/' ∈ s.toList
  · rw [literalValue_slash h]
    cases hr : readRatio (trim s) with
    | ok r =>
      obtain ⟨hplain, text, htext, -, hne⟩ := number_of_readRatio h hr
      dsimp only
      refine iff_of_false (ratioToDouble_ne_nan r) (not_or.mpr ⟨fun hnan => ?_, not_not.mpr hplain⟩)
      exact hne (Except.ok.inj (htext.symm.trans hnan))
    | error failure =>
      dsimp only
      refine iff_of_true rfl (or_iff_not_imp_right.mpr fun hplain => ?_)
      rw [not_not, IsPlainlyWritten, if_pos h] at hplain
      obtain ⟨⟨sign, ds, hds⟩, es, hes⟩ := hplain
      rw [number_of_sides h hds hes, hr]
  · rw [literalValue_noSlash h, number_noSlash _ h, IsPlainlyWritten, if_neg h]
    cases hx : readDouble s with
    | some x =>
      have hplain := stripped_of_readDouble hx
      rw [readDouble_trim hplain, hx]
      refine ⟨fun hnan => ?_, fun hnan => ?_⟩
      · rw [Except.ok.inj hnan]
        exact .inl rfl
      · rw [double_eq_notANumber (hnan.resolve_right (not_not.mpr hplain))]
    | none =>
      refine iff_of_true rfl (or_iff_not_imp_right.mpr fun hplain => ?_)
      rw [readDouble_trim (not_not.mp hplain), hx]
      rfl

/-- **The value of a text and the number that is written for it.**  For every text: its value is no number just if none is
written for it or it is not written plainly, which is to say with a blank, a point, an exponent or another slash on a side of
the slash, or with a separator around it.  For every text with a slash of which the value is a number, or too large for a
double, the value is that of an exact ratio, and what is written shows this ratio in lowest terms. -/
theorem text_readers (c : Catalog) (s : String) (sup sub : Expr) :
    (asNumber c (number (.text s) sup sub) = .ok (some .nan) ↔
      ({} : Format).number (.text s) = .ok notANumber ∨ ¬IsPlainlyWritten s) ∧
    ('/' ∈ s.toList → asNumber c (number (.text s) sup sub) ≠ .ok (some .nan) → ∃ r text,
      asNumber c (number (.text s) sup sub) = (ratioToDouble r).map some ∧
      ({} : Format).number (.text s) = .ok text ∧ text ≠ notANumber ∧ ShowsRatio r text) := by
  have hvalue : asNumber c (number (.text s) sup sub) = (literalValue (.text s)).map some := rfl
  have hnan : asNumber c (number (.text s) sup sub) = .ok (some .nan) ↔ literalValue (.text s) = .ok .nan := by
    rw [hvalue]
    cases literalValue (.text s) <;> simp [Except.map]
  refine ⟨hnan.trans (literalValue_eq_nan_iff s), fun h hne => ?_⟩
  rw [Ne, hnan, literalValue_slash h] at hne
  cases hr : readRatio (trim s) with
  | error failure =>
    rw [hr] at hne
    exact absurd rfl hne
  | ok r =>
    obtain ⟨-, text, htext, hshows, hnumber⟩ := number_of_readRatio h hr
    refine ⟨r, text, ?_, htext, hnumber, hshows⟩
    rw [hvalue, literalValue_slash h, hr]

/-- A ratio with a point in it is written, and has no value. -/
theorem pointed_ratio_unread :
    asNumber .builtin (number (.text "1.5/2") .missing .missing) = .ok (some .nan) ∧
      ({} : Format).number (.text "1.5/2") = .ok "\\frac\x7b3\x7d\x7b4\x7d" := by
  have hnumerator : readRatio (trim "1.5") = .ok (mkRat 3 2) := by decide +kernel
  have hdenominator : readRatio (trim "2") = .ok 2 := by decide +kernel
  have hquotient : mkRat 3 2 / 2 = mkRat 3 4 := by decide +kernel
  refine ⟨rfl, ?_⟩
  show ({} : Format).ratioText "1.5" "2" = _
  rw [ratioText, hnumerator, hdenominator]
  show ({} : Format).ratio (mkRat 3 2 / 2) = _
  rw [hquotient]
  decide +kernel

end Expr

end Formula
