import Formula.Proofs.Format.Layout

/-!
# The accuracy of a layout

The digits of a rounded magnitude are those of the value rounded half up, and splitting them at the point keeps their value.
So a layout without a block shows the rounded value; one with a block shows less than one unit in the place before the
last besides, since only the last digit is replaced.
-/

namespace Formula.Format

open Number

/-! ### Rounded digits -/

/-- The digits of a rounded magnitude are those of its value rounded half up, without zeros at the end; where digits were cut
off, they fill all places. -/
theorem rounded_spec {d : Decimal} (h : 0 < d.units) {p : Nat} (hp : 0 < p) (hle : p ≤ contextPlaces) :
    ∃ n : Nat, (rounded p d).digits = Nat.toDigits 10 n ∧ n % 10 ≠ 0 ∧ decimalLength n ≤ p ∧
      (n : Rat) * 10 ^ ((rounded p d).leading - decimalLength n + 1) = halfUp p d.toRat ∧
      ((rounded p d).truncated = true → decimalLength n = p) := by
  obtain ⟨hpositive, hmost⟩ := Decimal.round_units h hp .up
  have hten : tenTo p ≤ tenTo contextPlaces := Nat.pow_le_pow_right (by decide) hle
  obtain ⟨hvalue, hkept, hunits⟩ :=
    Decimal.round_toRat (p := contextPlaces) (by decide) hpositive (Nat.le_trans hmost hten) .even
  have hlength := Decimal.normalize_length hp hkept (Nat.le_trans hunits hmost)
  obtain ⟨-, -, -, hlast⟩ := Decimal.normalize_spec hkept
  have hrounded := Decimal.normalize_toRat hkept
  rw [hvalue, Decimal.round_up_toRat h, Decimal.toRat_eq] at hrounded
  refine ⟨(((d.round .up p).round .even contextPlaces).normalize).units, rfl, hlast, hlength, ?_, fun htruncated => ?_⟩
  · rw [← hrounded]
    congr 2
    show ((decimalLength _ : Int) - 1 + _) - decimalLength _ + 1 = _
    ring
  · have hfull := (Bool.and_eq_true_iff.mp htruncated).2
    exact Nat.le_antisymm hlength (of_decide_eq_true hfull)

/-! ### The point -/

section Split

/-- Digits are split into themselves, filled up with zeros on the side where the point is not among them. -/
theorem splitDigits_spec {digits : List Char} (hne : digits ≠ []) (whole : Int) : ∃ a b : Nat,
    (splitDigits digits whole).1 ≠ [] ∧
      (splitDigits digits whole).1 ++ (splitDigits digits whole).2 = zeroChars a ++ digits ++ zeroChars b ∧
      ((splitDigits digits whole).2.length : Int) = digits.length + b - whole ∧
      ((splitDigits digits whole).2 ≠ [] → b = 0) := by
  have hpos := List.length_pos_iff.mpr hne
  have hnil : zeroChars 0 = [] := rfl
  unfold splitDigits
  by_cases hfront : whole ≤ 0
  · rw [if_pos hfront]
    refine ⟨(-whole).toNat + 1, 0, List.cons_ne_nil _ _, ?_, ?_, fun _ => rfl⟩
    · rw [hnil, List.append_nil]
      rfl
    · rw [List.length_append, zeroChars, List.length_replicate]
      push_cast
      omega
  rw [if_neg hfront]
  by_cases hbehind : (digits.length : Int) ≤ whole
  · rw [if_pos hbehind]
    refine ⟨0, whole.toNat - digits.length, List.append_ne_nil_of_left_ne_nil hne _, ?_, ?_, fun h => absurd rfl h⟩
    · rw [hnil, List.nil_append, List.append_nil]
    · rw [List.length_nil]
      omega
  · rw [if_neg hbehind]
    refine ⟨0, 0, ?_, ?_, ?_, fun _ => rfl⟩
    · apply List.ne_nil_of_length_pos
      rw [List.length_take]
      omega
    · rw [hnil, List.nil_append, List.append_nil, List.take_append_drop]
    · rw [List.length_drop]
      omega

variable (n : Nat) (whole : Int)

theorem digitsToNat_filled (a b : Nat) :
    digitsToNat (zeroChars a ++ Nat.toDigits 10 n ++ zeroChars b) = n * tenTo b := by
  rw [digitsToNat_append, digitsToNat_append, digitsToNat_zeros, digitsToNat_zeros, digitsToNat_toDigits, zeroChars,
    List.length_replicate, Nat.zero_mul, Nat.zero_add, Nat.add_zero]

theorem splitDigits_digits : (splitDigits (Nat.toDigits 10 n) whole).1 ≠ [] ∧
    (∀ d ∈ (splitDigits (Nat.toDigits 10 n) whole).1, d.isDigit = true) ∧
    ∀ d ∈ (splitDigits (Nat.toDigits 10 n) whole).2, d.isDigit = true := by
  obtain ⟨a, b, hne, hdigits, -, -⟩ := splitDigits_spec (Nat.toDigits_ne_nil (n := n) (b := 10)) whole
  have hzeros : ∀ k, ∀ d ∈ zeroChars k, d.isDigit = true := by
    intro k d hd
    rw [List.eq_of_mem_replicate hd]
    rfl
  have hall : ∀ d ∈ (splitDigits (Nat.toDigits 10 n) whole).1 ++ (splitDigits (Nat.toDigits 10 n) whole).2,
      d.isDigit = true := by
    intro d hd
    rw [hdigits] at hd
    rcases List.mem_append.mp hd with hd | hd
    · exact (List.mem_append.mp hd).elim (hzeros a d) (List.all_eq_true.mp (all_toDigits n) d)
    · exact hzeros b d hd
  exact ⟨hne, fun d hd => hall d (List.mem_append_left _ hd), fun d hd => hall d (List.mem_append_right _ hd)⟩

/-- A point among the digits divides their value by a power of ten. -/
theorem splitDigits_value : (digitsToNat (splitDigits (Nat.toDigits 10 n) whole).1 : Rat) +
    digitsToNat (splitDigits (Nat.toDigits 10 n) whole).2 / 10 ^ (splitDigits (Nat.toDigits 10 n) whole).2.length =
      n * 10 ^ (whole - decimalLength n) := by
  obtain ⟨a, b, -, hdigits, hlength, -⟩ := splitDigits_spec (Nat.toDigits_ne_nil (n := n) (b := 10)) whole
  obtain ⟨⟨front, behind⟩, hparts⟩ : ∃ parts, splitDigits (Nat.toDigits 10 n) whole = parts := ⟨_, rfl⟩
  rw [hparts] at hdigits hlength ⊢
  dsimp only at hdigits hlength ⊢
  have hvalue := congrArg digitsToNat hdigits
  rw [digitsToNat_filled, digitsToNat_append] at hvalue
  have hexponent : whole - decimalLength n = (b : Int) - behind.length := by
    rw [hlength]
    show _ = (b : Int) - ((decimalLength n : Int) + b - whole)
    ring
  have hvalue' : (digitsToNat front : Rat) * 10 ^ behind.length + digitsToNat behind = n * 10 ^ b := by
    rw [← tenTo_cast, ← tenTo_cast]
    exact_mod_cast hvalue
  rw [hexponent, zpow_sub₀ (by norm_num), zpow_natCast, zpow_natCast, ← mul_div_assoc, ← hvalue']
  field_simp

/-- The last digit behind the point is the last of the digits, and no zeros are filled in behind it. -/
theorem splitDigits_last (hne : (splitDigits (Nat.toDigits 10 n) whole).2 ≠ []) : ∃ init last,
    (splitDigits (Nat.toDigits 10 n) whole).2 = init ++ [last] ∧ digitsToNat [last] = n % 10 ∧
      ((splitDigits (Nat.toDigits 10 n) whole).2.length : Int) = decimalLength n - whole := by
  obtain ⟨a, b, -, hdigits, hlength, hb⟩ := splitDigits_spec (Nat.toDigits_ne_nil (n := n) (b := 10)) whole
  obtain rfl := hb hne
  obtain ⟨init, last, hlast⟩ : ∃ init last, (splitDigits (Nat.toDigits 10 n) whole).2 = init ++ [last] :=
    ⟨_, _, (List.dropLast_concat_getLast hne).symm⟩
  refine ⟨init, last, hlast, ?_, ?_⟩
  · have hdigit : last.isDigit = true :=
      (splitDigits_digits n whole).2.2 last (hlast ▸ List.mem_append_right _ (List.mem_singleton_self last))
    have hten : digitsToNat [last] < tenTo [last].length := digitsToNat_lt fun d hd => List.mem_singleton.mp hd ▸ hdigit
    have hvalue := congrArg digitsToNat hdigits
    rw [hlast, ← List.append_assoc, digitsToNat_filled, digitsToNat_append _ [last], tenTo_zero, Nat.mul_one] at hvalue
    have hone : tenTo [last].length = 10 := rfl
    rw [hone] at hvalue hten
    omega
  · rw [hlength]
    show (decimalLength n : Int) + (0 : Nat) - whole = _
    omega

end Split

/-! ### The block -/

/-- A value that goes on as the digits before the last one do is close to the digits: the last one is not zero. -/
theorem tail_near {front tail : List Char} {last : Char} {value : Rat} (hlast : digitsToNat [last] % 10 ≠ 0)
    (hlt : digitsToNat [last] < 10) (hlow : digitsToNat tail ≤ value * 10 ^ tail.length)
    (hhigh : value * 10 ^ tail.length ≤ digitsToNat tail + 1) :
    |(digitsToNat front + value) / 10 ^ front.length -
        digitsToNat (front ++ tail ++ [last]) / 10 ^ (front ++ tail ++ [last]).length| ≤
      9 / 10 ^ (front ++ tail ++ [last]).length := by
  have hsplit : (digitsToNat (front ++ tail ++ [last]) : Rat) =
      (digitsToNat front * 10 ^ tail.length + digitsToNat tail) * 10 + digitsToNat [last] := by
    rw [digitsToNat_append, digitsToNat_append, ← tenTo_cast]
    push_cast
    rfl
  have hpower : (10 : Rat) ^ (front ++ tail ++ [last]).length = 10 ^ front.length * 10 ^ tail.length * 10 := by
    rw [List.length_append, List.length_append, pow_add, pow_add]
    rfl
  have hone : (1 : Rat) ≤ digitsToNat [last] := by exact_mod_cast (by omega : 1 ≤ digitsToNat [last])
  have hnine : (digitsToNat [last] : Rat) ≤ 9 := by exact_mod_cast (by omega : digitsToNat [last] ≤ 9)
  have hfront : (0 : Rat) < 10 ^ front.length := by positivity
  have htens : (0 : Rat) < 10 ^ tail.length := by positivity
  rw [hsplit, hpower]
  have hdifference : (digitsToNat front + value) / 10 ^ front.length -
      ((digitsToNat front * 10 ^ tail.length + digitsToNat tail) * 10 + digitsToNat [last]) /
        (10 ^ front.length * 10 ^ tail.length * 10) =
      (10 * (value * 10 ^ tail.length - digitsToNat tail) - digitsToNat [last]) / (10 ^ front.length * 10 ^ tail.length * 10) := by
    field_simp
    ring
  rw [hdifference, abs_div, abs_of_pos (by positivity : (0 : Rat) < 10 ^ front.length * 10 ^ tail.length * 10)]
  exact div_le_div_of_nonneg_right (abs_le.mpr ⟨by linarith, by linarith⟩) (by positivity)

/-- Where the last digit is not zero, the block that replaces it is less than one unit of the place before it off. -/
theorem layoutParts_near {whole init : List Char} {last : Char} {shift : Int} {offset period : Nat}
    (hlast : digitsToNat [last] % 10 ≠ 0) (hlt : digitsToNat [last] < 10)
    (hblock : blockIn true (init ++ [last]) = some (offset, period)) {tail : Rat}
    (htail : GoesOn (layoutParts whole (init ++ [last]) true shift).block (init ++ [last]).length tail) :
    |(layoutParts whole (init ++ [last]) true shift).valueWith tail -
        (digitsToNat whole + digitsToNat (init ++ [last]) / 10 ^ (init ++ [last]).length) * 10 ^ shift| ≤
      9 / 10 ^ (init ++ [last]).length * 10 ^ shift := by
  obtain ⟨-, hfound, -⟩ := blockIn_spec hblock
  obtain ⟨hpositive, hlength, hperiod⟩ := findRepeat_spec hfound
  rw [List.dropLast_concat] at hlength hperiod
  -- `front` stands before the block, and `run` is where the block was found.
  obtain ⟨front, run, rfl, rfl⟩ : ∃ front run, init = front ++ run ∧ front.length = offset :=
    ⟨init.take offset, init.drop offset, (List.take_append_drop _ _).symm, by rw [List.length_take]; omega⟩
  rw [List.length_append] at hlength
  rw [List.drop_left] at hperiod
  have hfirst : (front ++ run ++ [last]).take front.length = front := by rw [List.append_assoc, List.take_left]
  have hrest : ((front ++ run ++ [last]).drop front.length).take period = run.take period := by
    rw [List.append_assoc, List.drop_left, List.take_append_of_le_length (by omega)]
  rw [layoutParts_block shift hblock, hfirst, hrest] at htail ⊢
  obtain ⟨hlow, hhigh⟩ := htail run (prefix_of_hasPeriod hperiod) (by simp only [List.length_append]; omega)
  have hnear := @tail_near front run last tail hlast hlt hlow hhigh
  have hpower : (0 : Rat) < 10 ^ shift := by positivity
  unfold Layout.valueWith
  dsimp only
  rw [← sub_mul, add_sub_add_left_eq_sub, abs_mul, abs_of_pos hpower]
  exact mul_le_mul_of_nonneg_right hnear hpower.le

/-- What is less than a unit of the last place but one off the rounded value is close to the value itself. -/
theorem near_of_rounded {p : Nat} (hp : 0 < p) {x shown : Rat} (hx : 0 < x) (hshown : 0 ≤ shown)
    (hcarry : halfUp p x = 10 ^ (Int.log 10 x + 1) → p = 1)
    (hnear : |shown - halfUp p x| ≤ 9 * 10 ^ (Int.log 10 (halfUp p x) - p + 1)) :
    |shown - x| < 10 ^ (2 - p : Int) * x := by
  obtain ⟨hlow, -⟩ := log_bounds hx
  have hround := halfUp_near p x
  rcases halfUp_log hp hx with hkept | hup
  · rw [hkept] at hnear
    obtain ⟨unit, hunit⟩ : ∃ unit : Rat, (10 : Rat) ^ (Int.log 10 x - p + 1) = unit := ⟨_, rfl⟩
    have hpos : 0 < unit := hunit ▸ by positivity
    have hbound : 10 * unit ≤ 10 ^ (2 - p : Int) * x := by
      have hsplit : 10 * unit = 10 ^ (2 - p : Int) * 10 ^ Int.log 10 x := by
        rw [← hunit, ← zpow_add₀ (by norm_num), ← zpow_one_add₀ (by norm_num)]
        congr 1
        ring
      rw [hsplit]
      exact mul_le_mul_of_nonneg_left hlow (by positivity)
    rw [hunit] at hnear hround
    have htriangle := abs_sub_le shown (halfUp p x) x
    linarith
  · -- One digit is left, a one where there was a nine.
    obtain rfl := hcarry hup
    obtain ⟨unit, hunit⟩ : ∃ unit : Rat, (10 : Rat) ^ Int.log 10 x = unit := ⟨_, rfl⟩
    have hpos : 0 < unit := hunit ▸ by positivity
    have hten : (10 : Rat) ^ (Int.log 10 x + 1) = 10 * unit := by
      rw [zpow_add_one₀ (by norm_num), hunit, mul_comm]
    have hone : Int.log 10 x - (1 : Nat) + 1 = Int.log 10 x := by push_cast; ring
    have htwo : Int.log 10 x + 1 - (1 : Nat) + 1 = Int.log 10 x + 1 := by push_cast; ring
    have hfactor : (10 : Rat) ^ (2 - (1 : Nat) : Int) = 10 := by norm_num
    rw [hup, log_ten_zpow, htwo, hten] at hnear
    rw [hone, hup, hten, hunit] at hround
    rw [hfactor]
    obtain ⟨-, hnear⟩ := abs_le.mp hnear
    obtain ⟨-, hround⟩ := abs_le.mp hround
    exact abs_lt.mpr ⟨by linarith, by linarith⟩

/-- The rounded value is close to the value. -/
theorem halfUp_close (p : Nat) {x : Rat} (hx : 0 < x) : |halfUp p x - x| < 10 ^ (2 - p : Int) * x := by
  obtain ⟨hlow, -⟩ := log_bounds hx
  have hunit : (10 : Rat) ^ (Int.log 10 x - p + 1) = 10 ^ (1 - p : Int) * 10 ^ Int.log 10 x := by
    rw [← zpow_add₀ (by norm_num)]
    congr 1
    ring
  have hten : (10 : Rat) ^ (2 - p : Int) = 10 * 10 ^ (1 - p : Int) := by
    rw [← zpow_one_add₀ (by norm_num)]
    congr 1
    ring
  have hpos : (0 : Rat) < 10 ^ (1 - p : Int) := by positivity
  have hle := mul_le_mul_of_nonneg_left hlow hpos.le
  have hproduct := mul_pos hpos hx
  have hnear := halfUp_near p x
  rw [hunit] at hnear
  rw [hten]
  linarith

/-! ### Layouts of decimals -/

/-- A layout is sound with any room for digits. -/
theorem layoutOf_rounded_sound (p : Nat) (d : Decimal) (shift : Int) : (layoutOf (rounded p d) shift).Sound := by
  obtain ⟨n, hn⟩ : ∃ n, (rounded p d).digits = Nat.toDigits 10 n := ⟨_, rfl⟩
  unfold layoutOf
  dsimp only
  rw [hn]
  obtain ⟨hne, hwhole, hfraction⟩ := splitDigits_digits n ((rounded p d).leading - shift + 1)
  exact layoutParts_sound hne hwhole hfraction _ _

section Decimals

variable {d : Decimal} (h : 0 < d.units) {p : Nat} (hp : 0 < p) (hle : p ≤ contextPlaces) (shift : Int)

include h hp hle

theorem layoutOf_sound : (layoutOf (rounded p d) shift).Sound := by
  obtain ⟨n, hdigits, -⟩ := rounded_spec h hp hle
  unfold layoutOf
  rw [hdigits]
  obtain ⟨hne, hwhole, hfraction⟩ := splitDigits_digits n ((rounded p d).leading - shift + 1)
  exact layoutParts_sound hne hwhole hfraction _ _

theorem rounded_leading : (rounded p d).leading = Int.log 10 (halfUp p d.toRat) := by
  obtain ⟨n, -, hlast, -, hvalue, -⟩ := rounded_spec h hp hle
  rw [← hvalue, log_units (Nat.pos_of_ne_zero fun hz => hlast (by rw [hz]))]
  ring

/-- The digits before and behind the point have the value rounded half up, without the power of ten. -/
theorem rounded_split {whole fraction : List Char}
    (hparts : splitDigits (rounded p d).digits ((rounded p d).leading - shift + 1) = (whole, fraction)) :
    ((digitsToNat whole : Rat) + digitsToNat fraction / 10 ^ fraction.length) * 10 ^ shift = halfUp p d.toRat := by
  obtain ⟨n, hdigits, -, -, hvalue, -⟩ := rounded_spec h hp hle
  have hsplit := splitDigits_value n ((rounded p d).leading - shift + 1)
  rw [hdigits] at hparts
  rw [hparts] at hsplit
  rw [hsplit, mul_assoc, ← zpow_add₀ (by norm_num), ← hvalue]
  congr 2
  ring

theorem rounded_fraction {whole fraction : List Char}
    (hparts : splitDigits (rounded p d).digits ((rounded p d).leading - shift + 1) = (whole, fraction)) :
    ∀ c ∈ fraction, c.isDigit = true := by
  obtain ⟨n, hdigits, -⟩ := rounded_spec h hp hle
  have hall := (splitDigits_digits n ((rounded p d).leading - shift + 1)).2.2
  rw [hdigits] at hparts
  rwa [hparts] at hall

/-- Where digits were cut off behind the point, the last of them is not zero and stands in the last place. -/
theorem rounded_last {whole fraction : List Char}
    (hparts : splitDigits (rounded p d).digits ((rounded p d).leading - shift + 1) = (whole, fraction))
    (htruncated : (rounded p d).truncated = true) (hne : fraction ≠ []) : ∃ init last, fraction = init ++ [last] ∧
      digitsToNat [last] % 10 ≠ 0 ∧ shift - fraction.length = Int.log 10 (halfUp p d.toRat) - p + 1 := by
  obtain ⟨n, hdigits, hlast, -, -, hfull⟩ := rounded_spec h hp hle
  have hend := splitDigits_last n ((rounded p d).leading - shift + 1)
  rw [hdigits] at hparts
  rw [hparts] at hend
  obtain ⟨init, last, hinit, hdigit, hlength⟩ := hend hne
  dsimp only at hinit hlength
  refine ⟨init, last, hinit, by omega, ?_⟩
  rw [← rounded_leading h hp hle, hlength, hfull htruncated]
  ring

/-- The next power of ten is the rounded value of a number with one digit only, where digits were cut off. -/
theorem rounded_carry (htruncated : (rounded p d).truncated = true)
    (hup : halfUp p d.toRat = 10 ^ (Int.log 10 d.toRat + 1)) : p = 1 := by
  obtain ⟨n, -, hlast, -, hvalue, hfull⟩ := rounded_spec h hp hle
  have hlog := rounded_leading h hp hle
  rw [hup, log_ten_zpow] at hlog
  obtain ⟨q, rfl⟩ : ∃ q, p = q + 1 := ⟨p - 1, by omega⟩
  -- All digits but the first are zeros, and zeros at the end are dropped.
  have hn : (n : Rat) = 10 ^ q := by
    obtain ⟨e, he⟩ : ∃ e : Int, Int.log 10 d.toRat + 1 - ((q + 1 : Nat) : Int) + 1 = e := ⟨_, rfl⟩
    have hsplit : Int.log 10 d.toRat + 1 = q + e := by
      rw [← he]
      push_cast
      ring
    rw [hlog, hfull htruncated, hup, he, hsplit, zpow_add₀ (by norm_num), zpow_natCast] at hvalue
    exact mul_right_cancel₀ (by positivity) hvalue
  cases q with
  | zero => rfl
  | succ q =>
    have hten : n = 10 ^ (q + 1) := by exact_mod_cast hn
    rw [hten, Nat.pow_succ, Nat.mul_mod_left] at hlast
    exact absurd rfl hlast

/-- Before the point stand the digits of the rounded value. -/
theorem layoutOf_whole : (digitsToNat (layoutOf (rounded p d) shift).whole : Int) = ⌊halfUp p d.toRat / 10 ^ shift⌋ := by
  obtain ⟨⟨whole, fraction⟩, hparts⟩ :
      ∃ parts, splitDigits (rounded p d).digits ((rounded p d).leading - shift + 1) = parts := ⟨_, rfl⟩
  have hwhole : (layoutOf (rounded p d) shift).whole = whole := by
    unfold layoutOf layoutParts
    rw [hparts]
    dsimp only
    split <;> rfl
  have hlt : (digitsToNat fraction : Rat) < 10 ^ fraction.length := by
    rw [← tenTo_cast]
    exact_mod_cast digitsToNat_lt (rounded_fraction h hp hle shift hparts)
  have hfraction : (digitsToNat fraction : Rat) / 10 ^ fraction.length < 1 := (div_lt_one (by positivity)).mpr hlt
  have hnonneg : (0 : Rat) ≤ digitsToNat fraction / 10 ^ fraction.length := by positivity
  rw [hwhole, ← rounded_split h hp hle shift hparts, mul_div_assoc, div_self (by positivity), mul_one, eq_comm,
    Int.floor_eq_iff]
  push_cast
  exact ⟨by linarith, by linarith⟩

/-- **Without a block the value rounded half up is shown.** -/
theorem layoutOf_value (hblock : (layoutOf (rounded p d) shift).block = []) :
    (layoutOf (rounded p d) shift).valueWith 0 = halfUp p d.toRat := by
  obtain ⟨⟨whole, fraction⟩, hparts⟩ :
      ∃ parts, splitDigits (rounded p d).digits ((rounded p d).leading - shift + 1) = parts := ⟨_, rfl⟩
  have hsplit := rounded_split h hp hle shift hparts
  unfold layoutOf at hblock ⊢
  rw [hparts] at hblock ⊢
  dsimp only at hblock ⊢
  cases hfound : blockIn (rounded p d).truncated fraction with
  | some found =>
    rw [layoutParts_block shift hfound] at hblock
    exact absurd hblock (blockIn_spec hfound).2.2
  | none =>
    rw [layoutParts_plain shift hfound, Layout.valueWith]
    dsimp only
    rw [add_zero, hsplit]

/-- **With a block what is shown is close to the value**, and so is what goes on as the block does in the places of the
rounded digits. -/
theorem layoutOf_near (hblock : (layoutOf (rounded p d) shift).block ≠ []) {tail : Rat} (hnonneg : 0 ≤ tail)
    (htail : GoesOn (layoutOf (rounded p d) shift).block
      (splitDigits (rounded p d).digits ((rounded p d).leading - shift + 1)).2.length tail) :
    |(layoutOf (rounded p d) shift).valueWith tail - d.toRat| < 10 ^ (2 - p : Int) * d.toRat := by
  obtain ⟨⟨whole, fraction⟩, hparts⟩ :
      ∃ parts, splitDigits (rounded p d).digits ((rounded p d).leading - shift + 1) = parts := ⟨_, rfl⟩
  have hsplit := rounded_split h hp hle shift hparts
  have hlayout : layoutOf (rounded p d) shift = layoutParts whole fraction (rounded p d).truncated shift := by
    rw [layoutOf, hparts]
  rw [hparts] at htail
  rw [hlayout] at hblock htail ⊢
  cases hfound : blockIn (rounded p d).truncated fraction with
  | none =>
    rw [layoutParts_plain shift hfound] at hblock
    exact absurd rfl hblock
  | some found =>
    obtain ⟨offset, period⟩ := found
    obtain ⟨htruncated, -, hne⟩ := blockIn_spec hfound
    obtain ⟨init, last, rfl, hlast, hplace⟩ :=
      rounded_last h hp hle shift hparts htruncated (by rintro rfl; simp at hne)
    have hshown : 0 ≤ (layoutParts whole (init ++ [last]) (rounded p d).truncated shift).valueWith tail := by
      unfold Layout.valueWith
      positivity
    refine near_of_rounded hp (Decimal.toRat_pos h) hshown (rounded_carry h hp hle htruncated) ?_
    rw [htruncated] at hfound htail ⊢
    have hdigits := rounded_fraction h hp hle shift hparts
    have hnear := @layoutParts_near whole init last shift offset period hlast
      (digitsToNat_lt fun c hc => hdigits c (List.mem_append_right _ hc)) hfound tail htail
    have hunit : 9 * (10 : Rat) ^ (shift - ((init ++ [last]).length : Int)) = 9 / 10 ^ (init ++ [last]).length * 10 ^ shift := by
      rw [zpow_sub₀ (by norm_num), zpow_natCast]
      ring
    rwa [← hplace, ← hsplit, hunit]

end Decimals

end Formula.Format
