import Formula.Proofs.Format.Reread
import Formula.Settings

/-!
# Numbers with a braced comma

One of the styles writes a comma in braces where others write a point.  A source knows no such mark: braces on their own make
no atom, so that a comma between digits is left, and a comma between digits separates groups of them.  The digits are read as
those of a whole number.  `number_braced_comma` says by how much the number that is read is too large, and for which numbers
nothing is lost.
-/

namespace Formula

open Number Text Atom Expr

/-! ### A comma between digits -/

namespace Atom

/-- The atom of a comma. -/
def commaAtom : Atom := { type := .punctuation, value := "," }

/-- A comma between digits is passed over. -/
theorem scanNumeralFrom_comma (pointed : Bool) {d : Char} (hd : d.isDigit = true) (more : List Atom) :
    ∀ {ds : List Char} (chars : List Char) (last : Option Atom), (∀ e ∈ ds, e.isDigit = true) → ds.reverse ++ chars ≠ [] →
    scanNumeralFrom (.mantissa pointed) chars last (ds.map ofCharacter ++ commaAtom :: ofCharacter d :: more) =
      scanNumeralFrom (.mantissa pointed) (ds.reverse ++ chars) (some commaAtom) (ofCharacter d :: more)
  | [], chars, last, _, hne => by
    have hdigit : (ofCharacter d).isDigit = .ok true := isDigit_digit hd none none
    have hbefore : (!chars.isEmpty) = true := by
      cases chars with
      | nil => exact absurd rfl hne
      | cons => rfl
    have hstep : numeralStep (.mantissa pointed) true commaAtom (ofCharacter d :: more) =
        .ok (some ([], .mantissa pointed)) := by
      show (do if ← (ofCharacter d).isDigit then return some ([], NumeralState.mantissa pointed) else return none) = _
      rw [hdigit]
      rfl
    rw [List.map_nil, List.nil_append, scanNumeralFrom, hbefore, hstep]
    rfl
  | e :: ds, chars, last, h, hne => by
    have hstep := numeralStep_digit (h e List.mem_cons_self) none none pointed (!chars.isEmpty)
      (ds.map ofCharacter ++ commaAtom :: ofCharacter d :: more)
    rw [List.reverse_cons, List.append_assoc, List.singleton_append] at hne ⊢
    rw [List.map_cons, List.cons_append, scanNumeralFrom, show ofCharacter e = (ofCharacter e).scripted none none from rfl,
      hstep]
    exact scanNumeralFrom_comma pointed hd more (e :: chars) (some (ofCharacter e))
      (fun f hf => h f (List.mem_cons_of_mem _ hf)) hne

/-- **Digits around a comma are scanned as one run of digits.** -/
theorem scanNumeral_comma {ws ds : List Char} (hws_ne : ws ≠ []) (hws : ∀ d ∈ ws, d.isDigit = true) (hne : ds ≠ [])
    (hds : ∀ d ∈ ds, d.isDigit = true) : ∃ numeral,
      scanNumeral (ws.map ofCharacter ++ commaAtom :: ds.map ofCharacter) = .ok numeral ∧ numeral.rest = [] ∧
        numeral.chars = ws ++ ds := by
  obtain ⟨first, more, rfl⟩ := List.exists_cons_of_ne_nil hne
  obtain ⟨front, last, hlast⟩ : ∃ front last, first :: more = front ++ [last] :=
    ⟨_, _, (List.dropLast_concat_getLast hne).symm⟩
  have hcomma := scanNumeralFrom_comma false (hds first List.mem_cons_self) (more.map ofCharacter) [] none hws
    (by rwa [List.append_nil, List.reverse_ne_nil_iff])
  rw [hlast] at hds
  have hdigits := scanNumeralFrom_digits (hds last (List.mem_append_right _ (List.mem_singleton_self _))) none none false (.nil false)
    (ws.reverse ++ []) (some commaAtom) fun d hd => hds d (List.mem_append_left _ hd)
  refine ⟨⟨ws ++ (first :: more), some (ofCharacter last), []⟩, ?_, rfl, rfl⟩
  refine hcomma.trans ?_
  rw [← List.map_cons, hlast, List.map_append, List.map_singleton]
  refine hdigits.trans ?_
  rw [List.append_nil, List.reverse_reverse, List.append_assoc]
  rfl

end Atom

/-! ### The text of a decimal -/

namespace Format

/-- The format of the style that writes a comma. -/
def braced : Format := { decimalMarker := "\x7b,\x7d" }

/-- The style changes nothing but the mark between whole and fraction. -/
theorem inStyle_eu : Settings.inStyle {} (.text "eu") = .ok { format := braced } := rfl

/-- Digits before and behind the comma. -/
def commaText (whole fraction : List Char) : String :=
  spaced (digitGroups whole) ++ (if fraction = [] then "" else "\x7b,\x7d" ++ spaced (groupsFrom 0 fraction))

theorem mantissaText_braced (whole fraction : List Char) :
    braced.mantissaText whole fraction false = .ok (commaText whole fraction) := by
  have hfraction : braced.fractionText fraction false = .ok (spaced (groupsFrom 0 fraction)) := grouped_eq 0 fraction
  rw [@mantissaText_eq braced "\x7b,\x7d" rfl rfl rfl whole fraction false _ hfraction, spaced_isEmpty]
  unfold commaText
  cases fraction with
  | nil =>
    rw [if_pos rfl, String.append_empty]
    rfl
  | cons d fraction => rfl

/-- Digits around a braced comma spell the digits with a comma between them, and with spaces between their groups. -/
theorem spells_commaText {whole fraction : List Char} (hne : whole ≠ []) (hwhole : ∀ d ∈ whole, d.isDigit = true)
    (hfraction : ∀ d ∈ fraction, d.isDigit = true) : ∃ row, Source.Spells .builtin (commaText whole fraction) row ∧
      unspaced row = whole.map ofCharacter ++ (if fraction = [] then [] else commaAtom :: fraction.map ofCharacter) := by
  obtain ⟨row, a, hspells, hrow, -⟩ := Source.spells_spaced (whole.length % 3) hne hwhole
  unfold commaText
  by_cases hnil : fraction = []
  · rw [if_pos hnil, if_pos hnil, String.append_empty, List.append_nil]
    exact ⟨_, hspells, hrow⟩
  · obtain ⟨row', a', hspells', hrow', -⟩ := Source.spells_spaced 0 hnil hfraction
    have hcomma : Source.Spells .builtin "\x7b,\x7d" [commaAtom] :=
      (Source.spells_char (d := ',') (by decide) (by decide) (by decide) (by decide) (by decide) rfl).group
    rw [if_neg hnil, if_neg hnil]
    refine ⟨_, hspells.append (hcomma.append hspells'), ?_⟩
    rw [unspaced_append (row ++ [a]), unspaced_append [commaAtom], hrow, hrow']
    rfl

/-! ### Numbers of few digits -/

/-- The number has at most `p` significant digits. -/
def HasDigits (p : Nat) (x : Rat) : Prop := ∃ (n : Nat) (k : Int), n < 10 ^ p ∧ x = n * 10 ^ k

/-- The number is a whole one with so many digits more behind it. -/
def IsWholeAt (x : Rat) (places : Nat) : Prop := ∃ m : Int, x * 10 ^ places = m

/-- Digits before and behind a comma are those of a number, of which the last one behind the comma is not zero. -/
structure IsSplit (x : Rat) (whole fraction : List Char) : Prop where
  whole_ne : whole ≠ []
  whole_digits : ∀ d ∈ whole, d.isDigit = true
  fraction_digits : ∀ d ∈ fraction, d.isDigit = true
  value : x * 10 ^ fraction.length = digitsToNat (whole ++ fraction)
  last : fraction ≠ [] → digitsToNat (whole ++ fraction) % 10 ≠ 0

/-- Such a number is not rounded. -/
theorem HasDigits.halfUp {p : Nat} (hp : 0 < p) {x : Rat} (hx : 0 < x) (h : HasDigits p x) : halfUp p x = x := by
  obtain ⟨n, k, hn, rfl⟩ := h
  have hpos : 0 < n := by
    refine Nat.pos_of_ne_zero fun hzero => ?_
    rw [hzero, Nat.cast_zero, zero_mul] at hx
    exact lt_irrefl _ hx
  have hround := @Decimal.round_up_toRat ⟨n, k⟩ hpos p
  rw [Decimal.round_of_length_le (Double.decimalLength_le hp hn), Decimal.toRat_eq] at hround
  exact hround.symm

end Format

theorem Number.Decimal.same_of_toRat {a b : Decimal} (h : a.toRat = b.toRat) : a.same b = true := by
  have each : ∀ (d : Decimal) (low : Int), low ≤ d.exponent →
      ((d.units * tenTo (d.exponent - low).toNat : Nat) : Rat) = d.toRat / 10 ^ low := by
    intro d low hlow
    rw [Decimal.toRat_eq, Nat.cast_mul, tenTo_zpow (Int.toNat_of_nonneg (by omega)), zpow_sub₀ (by norm_num), mul_div_assoc]
  refine beq_iff_eq.mpr ?_
  have := each a (min a.exponent b.exponent) (min_le_left _ _)
  rw [h, ← each b (min a.exponent b.exponent) (min_le_right _ _)] at this
  exact_mod_cast this

namespace Format

section Decimals

variable {d : Decimal} (h : 0 < d.units) (hdigits : HasDigits 14 d.toRat)

include h hdigits

theorem rounded_truncated : (rounded 14 d).truncated = false := by
  have hsame : (d.round .up 14).same d = true := by
    refine Decimal.same_of_toRat ?_
    rw [Decimal.round_up_toRat h, hdigits.halfUp (by decide) (Decimal.toRat_pos h)]
  unfold rounded
  dsimp only
  rw [hsame]
  rfl

/-- **A decimal is written as the digits before and behind its comma.** -/
theorem magnitude_braced (hlow : -6 ≤ Int.log 10 d.toRat) (hhigh : Int.log 10 d.toRat ≤ 13) : ∃ whole fraction : List Char,
    braced.magnitude d = .ok (commaText whole fraction) ∧ IsSplit d.toRat whole fraction := by
  have hround := hdigits.halfUp (by decide) (Decimal.toRat_pos h)
  obtain ⟨n, hchars, hlast, -, hvalue, -⟩ := rounded_spec h (p := 14) (by decide) (by decide)
  have hleading := rounded_leading h (p := 14) (by decide) (by decide)
  rw [hround] at hvalue hleading
  have hshift : shiftOf braced.scientificNotation 14 (rounded 14 d).leading = 0 := by
    show (if leastPlainExponent ≤ (rounded 14 d).leading ∧ (rounded 14 d).leading < (14 : Int) then (0 : Int) else _) = 0
    unfold leastPlainExponent
    rw [if_pos (by omega)]
  obtain ⟨hwhole_ne, hwhole, hfraction⟩ := splitDigits_digits n ((rounded 14 d).leading - 0 + 1)
  have hsplit := splitDigits_value n ((rounded 14 d).leading - 0 + 1)
  have hend := splitDigits_last n ((rounded 14 d).leading - 0 + 1)
  obtain ⟨⟨whole, fraction⟩, hparts⟩ :
      ∃ parts, splitDigits (Nat.toDigits 10 n) ((rounded 14 d).leading - 0 + 1) = parts := ⟨_, rfl⟩
  rw [hparts] at hwhole_ne hwhole hfraction hsplit hend
  dsimp only at hwhole_ne hwhole hfraction hsplit hend
  refine ⟨whole, fraction, ?_, hwhole_ne, hwhole, hfraction, ?_, fun hne => ?_⟩
  · show (do
      let parts := splitDigits (rounded 14 d).digits
        ((rounded 14 d).leading - shiftOf braced.scientificNotation 14 (rounded 14 d).leading + 1)
      return braced.withExponent (← braced.mantissaText parts.1 parts.2 (rounded 14 d).truncated)
        (shiftOf braced.scientificNotation 14 (rounded 14 d).leading)) = _
    rw [hshift, hchars, hparts, rounded_truncated h hdigits]
    dsimp only
    rw [mantissaText_braced]
    rfl
  · have hsum : (digitsToNat whole : Rat) + digitsToNat fraction / 10 ^ fraction.length = d.toRat := by
      rw [hsplit, ← hvalue]
      congr 2
      ring
    rw [← hsum, digitsToNat_append, Nat.cast_add, Nat.cast_mul, tenTo_cast]
    field_simp
  · obtain ⟨init, last, rfl, hdigit, -⟩ := hend hne
    have hten : tenTo [last].length = 10 := rfl
    rw [← List.append_assoc, digitsToNat_append, hten, hdigit]
    omega

end Decimals

/-! ### The number that is read -/

/-- Behind the comma are the decimal places of the number, and no more. -/
theorem IsSplit.isLeast {x : Rat} {whole fraction : List Char} (h : IsSplit x whole fraction) :
    IsLeast {k | IsWholeAt x k} fraction.length := by
  refine ⟨⟨digitsToNat (whole ++ fraction), by exact_mod_cast h.value⟩, fun k hk => Nat.le_of_not_lt fun hlt => ?_⟩
  obtain ⟨m, hm⟩ := hk
  obtain ⟨j, hj⟩ : ∃ j, fraction.length = k + 1 + j := ⟨fraction.length - k - 1, by omega⟩
  have hdivides : (digitsToNat (whole ++ fraction) : Int) = m * 10 ^ j * 10 := by
    have : (digitsToNat (whole ++ fraction) : Rat) = m * 10 ^ j * 10 := by
      rw [← h.value, ← hm, hj]
      ring
    exact_mod_cast this
  refine h.last (List.ne_nil_of_length_pos (by omega)) ?_
  omega

/-- What is read is the number itself if and only if no places were lost. -/
theorem shifted_eq_iff {x : Rat} {places : Nat} (hleast : IsLeast {k | IsWholeAt x k} places) :
    x * 10 ^ places = x ↔ IsWholeAt x 0 := by
  constructor
  · intro heq
    by_cases hzero : places = 0
    · exact hzero ▸ hleast.1
    · have hten : (10 : Rat) ^ places ≠ 1 := by
        have := one_lt_pow₀ (by norm_num : (1 : Rat) < 10) hzero
        exact this.ne'
      have hx : x = 0 := by
        by_contra hne
        exact hten (mul_left_cancel₀ hne (heq.trans (mul_one x).symm))
      exact ⟨0, by rw [hx]; norm_num⟩
  · intro hwhole
    rw [Nat.le_zero.mp (hleast.2 hwhole), pow_zero, mul_one]

/-- The numeral of a text with a braced comma is that of its digits. -/
theorem scan_commaText {x : Rat} {whole fraction : List Char} (h : IsSplit x whole fraction) : ∃ atoms numeral,
      Source.atoms .builtin (commaText whole fraction) = .ok atoms ∧ scanNumeral (unspaced atoms) = .ok numeral ∧
        numeral.rest = [] ∧ numeralValue numeral.chars = some (x * 10 ^ fraction.length) := by
  obtain ⟨hne, hwhole, hfraction, hx, -⟩ := h
  obtain ⟨row, hspells, hrow⟩ := spells_commaText hne hwhole hfraction
  have hall : ∀ d ∈ whole ++ fraction, d.isDigit = true := fun d hd =>
    (List.mem_append.mp hd).elim (hwhole d) (hfraction d)
  obtain ⟨-, -, hvalue⟩ := literal_digits (List.append_ne_nil_of_left_ne_nil hne fraction) hall
  refine ⟨row, ?_⟩
  rw [hrow, hx]
  by_cases hnil : fraction = []
  · obtain ⟨-, -, numeral, hscan, hrest, -, hread⟩ := reads_digits hne hwhole
    rw [if_pos hnil, hnil, List.append_nil, List.append_nil]
    rw [hnil] at hspells
    exact ⟨numeral, hspells.atoms, hscan, hrest, hread⟩
  · obtain ⟨numeral, hscan, hrest, hchars⟩ := scanNumeral_comma hne hwhole hnil hfraction
    rw [if_neg hnil]
    exact ⟨numeral, hspells.atoms, hscan, hrest, by rw [hchars, hvalue]⟩

theorem signed_braced {d : Decimal} (h : 0 < d.units) (hlength : decimalLength d.units ≤ contextPlaces)
    (hdigits : HasDigits 14 d.toRat) (hlow : -6 ≤ Int.log 10 d.toRat) (hhigh : Int.log 10 d.toRat ≤ 13) :
    ∃ whole fraction, braced.signed false d = .ok (commaText whole fraction) ∧ IsSplit d.toRat whole fraction := by
  obtain ⟨whole, fraction, hmagnitude, hsplit⟩ := magnitude_braced h hdigits hlow hhigh
  refine ⟨whole, fraction, ?_, hsplit⟩
  unfold signed
  rw [Decimal.round_of_length_le hlength, hmagnitude]
  show Except.ok ("" ++ _) = _
  rw [String.empty_append]

theorem number_braced {v : Datum} {x : Rat} (hv : v.IsFinite x) (hnonneg : 0 ≤ x) (hdigits : HasDigits 14 x)
    (hplace : x = 0 ∨ -6 ≤ Int.log 10 x ∧ Int.log 10 x ≤ 13) :
    ∃ whole fraction, braced.number v = .ok (commaText whole fraction) ∧ IsSplit x whole fraction := by
  have hzero : ∃ whole fraction, braced.signed false ⟨0, 0⟩ = .ok (commaText whole fraction) ∧ IsSplit 0 whole fraction := by
    refine ⟨['0'], [], ?_, List.cons_ne_nil _ _, List.all_eq_true.mp rfl, fun _ h => absurd h List.not_mem_nil, ?_,
      fun h => absurd rfl h⟩
    · decide
    · have hvalue : digitsToNat (['0'] ++ []) = 0 := rfl
      rw [hvalue, zero_mul, Nat.cast_zero]
  cases hv with
  | zero => exact hzero
  | zeroDouble negative q => exact hzero
  | @nonzero _ negative x hnumber =>
    have hpos : ∀ {d : Decimal}, 0 < d.units → 0 ≤ withMinus negative d.toRat → negative = false := by
      intro d hunits hle
      cases negative with
      | false => rfl
      | true => exact absurd (neg_nonneg.mp hle) (not_le.mpr (Decimal.toRat_pos hunits))
    have written : ∀ d : Decimal, 0 < d.units → decimalLength d.units ≤ contextPlaces → d.toRat = x →
        ∃ whole fraction, braced.signed negative d = .ok (commaText whole fraction) ∧
          IsSplit (withMinus negative x) whole fraction := by
      rintro d hunits hlength rfl
      obtain rfl := hpos hunits hnonneg
      obtain hnone | ⟨hlow, hhigh⟩ := hplace
      · exact absurd hnone (Decimal.toRat_pos hunits).ne'
      · exact signed_braced hunits hlength hdigits hlow hhigh
    cases hnumber with
    | @int n hne hlt =>
      refine written ⟨n.natAbs, 0⟩ (Int.natAbs_pos.mpr hne) (Double.decimalLength_le (by decide) hlt) ?_
      rw [Decimal.toRat_eq, zpow_zero, mul_one]
    | @float _ m hm q =>
      obtain ⟨hunits, hlength⟩ := Double.shortest_bounds hm q
      have hdouble : braced.number (.float (.finite negative m q)) = braced.signed negative (Double.shortest m q) :=
        if_neg (Nat.pos_iff_ne_zero.mp hm)
      rw [hdouble]
      exact written _ hunits (Nat.le_trans hlength (by decide)) rfl

/-- **A number with a braced comma is read as its digits.**  A finite number that is not negative, of at most fourteen
significant digits, the first of which stands between the places `-6` and `13`, is written in the style with a comma and
scanned whole.  The text that is scanned has the value of the number times the power of ten of its decimal places; that is the
number itself exactly if it has none, that is for whole numbers. -/
theorem number_braced_comma {v : Datum} {x : Rat} (hv : v.IsFinite x) (hnonneg : 0 ≤ x) (hdigits : HasDigits 14 x)
    (hplace : x = 0 ∨ -6 ≤ Int.log 10 x ∧ Int.log 10 x ≤ 13) : ∃ settings text atoms numeral places,
      Settings.inStyle {} (.text "eu") = .ok settings ∧ settings.format.number v = .ok text ∧
      Source.atoms .builtin text = .ok atoms ∧ scanNumeral (unspaced atoms) = .ok numeral ∧ numeral.rest = [] ∧
      IsLeast {k | IsWholeAt x k} places ∧ numeralValue numeral.chars = some (x * 10 ^ places) ∧
      (numeralValue numeral.chars = some x ↔ IsWholeAt x 0) := by
  obtain ⟨whole, fraction, htext, hsplit⟩ := number_braced hv hnonneg hdigits hplace
  obtain ⟨atoms, numeral, hatoms, hscan, hrest, hnumeral⟩ := scan_commaText hsplit
  refine ⟨_, _, atoms, numeral, fraction.length, inStyle_eu, htext, hatoms, hscan, hrest, hsplit.isLeast, hnumeral, ?_⟩
  rw [hnumeral, Option.some_inj]
  exact shifted_eq_iff hsplit.isLeast

/-- One and a half. -/
def threeHalves : Datum := .float (.finite false 6755399441055744 (-52))

theorem threeHalves_isFinite : threeHalves.IsFinite (3 / 2) := by
  have hvalue : withMinus false (Double.shortest 6755399441055744 (-52)).toRat = 3 / 2 := by
    have hshortest : Double.shortest 6755399441055744 (-52) = ⟨15, -1⟩ := by decide
    rw [hshortest, Decimal.toRat_eq]
    norm_num [withMinus]
  exact hvalue ▸ .nonzero (.float false (by decide) (-52))

/-- It has two digits and one decimal place. -/
theorem number_braced_comma_threeHalves :
    threeHalves.IsFinite (3 / 2) ∧ (0 : Rat) ≤ 3 / 2 ∧ HasDigits 14 (3 / 2) ∧
      (-6 ≤ Int.log 10 (3 / 2 : Rat) ∧ Int.log 10 (3 / 2 : Rat) ≤ 13) ∧ ∃ settings text atoms numeral places,
      Settings.inStyle {} (.text "eu") = .ok settings ∧ settings.format.number threeHalves = .ok text ∧
      Source.atoms .builtin text = .ok atoms ∧ scanNumeral (unspaced atoms) = .ok numeral ∧ numeral.rest = [] ∧
      IsLeast {k | IsWholeAt (3 / 2) k} places ∧ numeralValue numeral.chars = some (3 / 2 * 10 ^ places) ∧
      (numeralValue numeral.chars = some (3 / 2) ↔ IsWholeAt (3 / 2) 0) := by
  have hdigits : HasDigits 14 (3 / 2) := ⟨15, -1, by norm_num, by norm_num⟩
  have hlog : Int.log 10 (3 / 2 : Rat) = 0 := by
    have htwo : decimalLength 15 = 2 := rfl
    have hvalue : ((15 : Nat) : Rat) * 10 ^ (-1 : Int) = 3 / 2 := by norm_num
    rw [← hvalue, log_units (by decide), htwo]
    rfl
  have hplace : -6 ≤ Int.log 10 (3 / 2 : Rat) ∧ Int.log 10 (3 / 2 : Rat) ≤ 13 := by
    rw [hlog]
    decide
  exact ⟨threeHalves_isFinite, by norm_num, hdigits, hplace,
    number_braced_comma threeHalves_isFinite (by norm_num) hdigits (.inr hplace)⟩

/-- One and a half is written `1{,}5`, and read as fifteen. -/
theorem threeHalves_rescanned : threeHalves.IsFinite (3 / 2) ∧ ∃ settings atoms numeral,
    Settings.inStyle {} (.text "eu") = .ok settings ∧ settings.format.number threeHalves = .ok "1\x7b,\x7d5" ∧
      Source.atoms .builtin "1\x7b,\x7d5" = .ok atoms ∧ scanNumeral (unspaced atoms) = .ok numeral ∧ numeral.rest = [] ∧
      numeralValue numeral.chars = some 15 ∧ (15 : Rat) ≠ 3 / 2 := by
  have htext : commaText ['1'] ['5'] = "1\x7b,\x7d5" := by decide +kernel
  have hfifteen : digitsToNat (['1'] ++ ['5']) = 15 := rfl
  have hsplit : IsSplit (3 / 2) ['1'] ['5'] := by
    refine ⟨List.cons_ne_nil _ _, List.all_eq_true.mp rfl, List.all_eq_true.mp rfl, ?_, fun _ => by decide⟩
    rw [hfifteen]
    norm_num
  obtain ⟨atoms, numeral, hatoms, hscan, hrest, hvalue⟩ := scan_commaText hsplit
  rw [htext] at hatoms
  rw [hsplit.value, hfifteen] at hvalue
  exact ⟨threeHalves_isFinite, _, atoms, numeral, inStyle_eu, by decide +kernel, hatoms, hscan, hrest, by exact_mod_cast hvalue,
    by norm_num⟩

end Format

end Formula
