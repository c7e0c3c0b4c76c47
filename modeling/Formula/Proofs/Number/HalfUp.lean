import Mathlib.Algebra.Order.Field.Power
import Mathlib.Algebra.Order.Floor.Ring
import Mathlib.Algebra.Order.Round
import Mathlib.Data.Int.Log
import Mathlib.Data.Rat.Floor
import Mathlib.Tactic.FieldSimp
import Mathlib.Tactic.Linarith
import Mathlib.Tactic.Positivity
import Mathlib.Tactic.Ring
import Formula.Proofs.Number.WholeDouble

/-!
# Rounding half up to significant digits

The value of a decimal as a rational number, and what rounding does to it.  `halfUp p x` is `x` rounded to `p` significant
digits, a half going up: a multiple of one unit in the last of them.  Rounding the digits of a decimal gives this value,
and as a power of ten its leading digit stands where `Int.log` says.
-/

namespace Formula.Number

/-- Rounds to `p` significant digits, a half going up. -/
def halfUp (p : Nat) (x : Rat) : Rat :=
  let unit := (10 : Rat) ^ (Int.log 10 x - p + 1)
  ⌊x / unit + 1 / 2⌋ * unit

/-! ### Lengths and powers -/

theorem tenTo_cast (n : Nat) : (tenTo n : Rat) = 10 ^ n := by
  show ((10 ^ n : Nat) : Rat) = _
  push_cast
  rfl

theorem tenTo_zpow {n : Nat} {k : Int} (h : (n : Int) = k) : (tenTo n : Rat) = (10 : Rat) ^ k := by
  rw [tenTo_cast, ← h, zpow_natCast]

theorem decimalLength_pos (n : Nat) : 0 < decimalLength n := Nat.length_toDigits_pos

/-- A positive number lies between the powers of ten that its length gives. -/
theorem decimalLength_bounds {n : Nat} (h : 0 < n) : tenTo (decimalLength n - 1) ≤ n ∧ n < tenTo (decimalLength n) := by
  refine ⟨?_, (Nat.length_toDigits_le_iff (by decide) Nat.length_toDigits_pos).mp (Nat.le_refl _)⟩
  by_cases hone : decimalLength n = 1
  · rw [hone]
    exact h
  · refine Nat.le_of_not_lt fun hlt => ?_
    have hpos := decimalLength_pos n
    have hle := Double.decimalLength_le (k := decimalLength n - 1) (by omega) hlt
    omega

/-- The leading digit of `n * 10 ^ k` stands at the length of `n` in front of place `k`. -/
theorem log_units {n : Nat} (h : 0 < n) (k : Int) : Int.log 10 ((n : Rat) * 10 ^ k) = decimalLength n - 1 + k := by
  obtain ⟨hle, hlt⟩ := decimalLength_bounds h
  have hpos := decimalLength_pos n
  have hn : (0 : Rat) < n := Nat.cast_pos.mpr h
  have hvalue : (0 : Rat) < n * 10 ^ k := by positivity
  have hle' : (10 : Rat) ^ ((decimalLength n : Int) - 1) ≤ n := by
    rw [← tenTo_zpow (n := decimalLength n - 1) (by omega)]
    exact Nat.cast_le.mpr hle
  have hlt' : (n : Rat) < (10 : Rat) ^ (decimalLength n : Int) := by
    rw [← tenTo_zpow rfl]
    exact Nat.cast_lt.mpr hlt
  apply le_antisymm
  · refine Int.lt_add_one_iff.mp ((Int.lt_zpow_iff_log_lt (b := 10) (by decide) hvalue).mp ?_)
    have hsplit : (decimalLength n : Int) - 1 + k + 1 = decimalLength n + k := by ring
    rw [hsplit, Nat.cast_ofNat, zpow_add₀ (by norm_num)]
    exact mul_lt_mul_of_pos_right hlt' (by positivity)
  · refine (Int.zpow_le_iff_le_log (b := 10) (by decide) hvalue).mp ?_
    rw [Nat.cast_ofNat, zpow_add₀ (by norm_num)]
    exact mul_le_mul_of_nonneg_right hle' (by positivity)

/-- A positive number lies between the powers of ten of its leading digit and the next. -/
theorem log_bounds {x : Rat} (hx : 0 < x) : (10 : Rat) ^ Int.log 10 x ≤ x ∧ x < 10 ^ (Int.log 10 x + 1) := by
  have hlow := Int.zpow_log_le_self (b := 10) (by decide) hx
  have hhigh := Int.lt_zpow_succ_log_self (b := 10) (by decide) x
  rw [Nat.cast_ofNat] at hlow hhigh
  exact ⟨hlow, hhigh⟩

theorem log_ten_zpow (k : Int) : Int.log 10 ((10 : Rat) ^ k) = k := by
  have := Int.log_zpow (R := Rat) (b := 10) (by decide) k
  rwa [Nat.cast_ofNat] at this

/-! ### Rounding half up -/

/-- Rounding moves a number by at most half a unit. -/
theorem halfUp_near (p : Nat) (x : Rat) : |halfUp p x - x| ≤ 10 ^ (Int.log 10 x - p + 1) / 2 := by
  unfold halfUp
  obtain ⟨unit, hunit⟩ : ∃ unit : Rat, (10 : Rat) ^ (Int.log 10 x - p + 1) = unit := ⟨_, rfl⟩
  have hpos : 0 < unit := hunit ▸ by positivity
  rw [hunit]
  have hlow := Int.floor_le (x / unit + 1 / 2)
  have hhigh := Int.lt_floor_add_one (x / unit + 1 / 2)
  have hx : x = x / unit * unit := (div_mul_cancel₀ x hpos.ne').symm
  rw [abs_le]
  constructor
  · have := mul_le_mul_of_nonneg_right hhigh.le hpos.le
    linarith
  · have := mul_le_mul_of_nonneg_right hlow hpos.le
    linarith

/-- Rounding stays between the powers of ten of the leading digit and the next. -/
theorem halfUp_bounds {p : Nat} (hp : 0 < p) {x : Rat} (hx : 0 < x) :
    10 ^ Int.log 10 x ≤ halfUp p x ∧ halfUp p x ≤ 10 ^ (Int.log 10 x + 1) := by
  obtain ⟨hlow, hhigh⟩ := log_bounds hx
  unfold halfUp
  obtain ⟨unit, hunit⟩ : ∃ unit : Rat, (10 : Rat) ^ (Int.log 10 x - p + 1) = unit := ⟨_, rfl⟩
  obtain ⟨q, rfl⟩ : ∃ q, p = q + 1 := ⟨p - 1, by omega⟩
  have hpos : 0 < unit := hunit ▸ by positivity
  -- Both powers of ten are whole numbers of units.
  have hleast : (10 : Rat) ^ Int.log 10 x = (10 ^ q : Int) * unit := by
    rw [← hunit]
    push_cast
    rw [← zpow_natCast, ← zpow_add₀ (by norm_num)]
    congr 1
    ring
  have hmost : (10 : Rat) ^ (Int.log 10 x + 1) = (10 ^ (q + 1) : Int) * unit := by
    rw [← hunit]
    push_cast
    rw [← zpow_natCast, ← zpow_add₀ (by norm_num)]
    congr 1
    push_cast
    ring
  rw [hunit, hleast, hmost]
  dsimp only
  constructor
  · refine mul_le_mul_of_nonneg_right (Int.cast_le.mpr (Int.le_floor.mpr ?_)) hpos.le
    have : ((10 ^ q : Int) : Rat) ≤ x / unit := (le_div_iff₀ hpos).mpr (hleast ▸ hlow)
    linarith
  · refine mul_le_mul_of_nonneg_right (Int.cast_le.mpr (Int.lt_add_one_iff.mp (Int.floor_lt.mpr ?_))) hpos.le
    have : x / unit < ((10 ^ (q + 1) : Int) : Rat) := (div_lt_iff₀ hpos).mpr (hmost ▸ hhigh)
    push_cast at this ⊢
    linarith

/-- A positive number stays positive. -/
theorem halfUp_pos {p : Nat} (hp : 0 < p) {x : Rat} (hx : 0 < x) : 0 < halfUp p x :=
  lt_of_lt_of_le (by positivity) (halfUp_bounds hp hx).1

/-- Rounding keeps the place of the leading digit, or goes up to the next power of ten. -/
theorem halfUp_log {p : Nat} (hp : 0 < p) {x : Rat} (hx : 0 < x) :
    Int.log 10 (halfUp p x) = Int.log 10 x ∨ halfUp p x = 10 ^ (Int.log 10 x + 1) := by
  obtain ⟨hlow, hhigh⟩ := halfUp_bounds hp hx
  have hvalue := halfUp_pos hp hx
  rcases eq_or_lt_of_le hhigh with heq | hlt
  · exact .inr heq
  · left
    apply le_antisymm
    · refine Int.lt_add_one_iff.mp ((Int.lt_zpow_iff_log_lt (b := 10) (by decide) hvalue).mp ?_)
      rwa [Nat.cast_ofNat]
    · refine (Int.zpow_le_iff_le_log (b := 10) (by decide) hvalue).mp ?_
      rwa [Nat.cast_ofNat]

/-! ### Rounding a quotient half up -/

theorem roundDiv_up (num : Nat) {den : Nat} (h : 0 < den) : roundDiv .up num den = (2 * num + den) / (2 * den) := by
  have hmod := Nat.mod_lt num h
  have hsplit : 2 * num + den = (2 * (num % den) + den) + 2 * den * (num / den) := by
    have hdiv := Nat.div_add_mod num den
    calc 2 * num + den = 2 * (den * (num / den) + num % den) + den := by rw [hdiv]
      _ = _ := by ring
  rw [hsplit, Nat.add_mul_div_left _ _ (by omega)]
  unfold roundDiv Tie.moves
  dsimp only
  by_cases hlow : 2 * (num % den) < den
  · have hzero : (2 * (num % den) + den) / (2 * den) = 0 := Nat.div_eq_of_lt (by omega)
    rw [if_pos hlow, hzero, Nat.zero_add]
  · have hone : (2 * (num % den) + den) / (2 * den) = 1 := Nat.div_eq_of_lt_le (by omega) (by omega)
    rw [if_neg hlow, hone, Nat.add_comm 1]
    split
    · rfl
    · rw [if_pos rfl]

theorem roundDiv_up_floor (num : Nat) {den : Nat} (h : 0 < den) :
    (roundDiv .up num den : Int) = ⌊(num : Rat) / den + 1 / 2⌋ := by
  have hsum : (num : Rat) / den + 1 / 2 = ((2 * num + den : Nat) : Rat) / (2 * den : Nat) := by
    push_cast
    field_simp
  rw [roundDiv_up num h, hsum]
  exact (Rat.floor_natCast_div_natCast _ _).symm

namespace Decimal

/-! ### Values of decimals -/

theorem toRat_eq (d : Decimal) : d.toRat = d.units * (10 : Rat) ^ d.exponent := by
  unfold toRat
  by_cases h : 0 ≤ d.exponent
  · rw [if_pos h, Nat.cast_mul, tenTo_zpow (Int.toNat_of_nonneg h)]
  · rw [if_neg h, Rat.mkRat_eq_div, tenTo_zpow (Int.toNat_of_nonneg (by omega)), zpow_neg, div_inv_eq_mul]
    push_cast
    rfl

theorem toRat_pos {d : Decimal} (h : 0 < d.units) : 0 < d.toRat := by
  rw [toRat_eq]
  have : (0 : Rat) < d.units := Nat.cast_pos.mpr h
  positivity

theorem log_toRat {d : Decimal} (h : 0 < d.units) : Int.log 10 d.toRat = decimalLength d.units - 1 + d.exponent := by
  rw [toRat_eq, log_units h]

/-- Rounding the digits half up rounds the value half up. -/
theorem round_up_toRat {d : Decimal} (h : 0 < d.units) (p : Nat) :
    (d.round .up p).toRat = halfUp p d.toRat := by
  unfold round halfUp
  dsimp only
  rw [log_toRat h]
  by_cases hs : decimalLength d.units - p = 0
  · -- All digits are kept: the value is a whole number of units.
    rw [if_pos hs]
    obtain ⟨k, hk⟩ : ∃ k : Nat, (decimalLength d.units : Int) + k = p := ⟨p - decimalLength d.units, by omega⟩
    have hunit : (decimalLength d.units : Int) - 1 + d.exponent - p + 1 = d.exponent - k := by omega
    have hquotient : d.toRat / 10 ^ (d.exponent - k) = ((d.units * tenTo k : Nat) : Rat) := by
      rw [toRat_eq, zpow_sub₀ (by norm_num), zpow_natCast]
      push_cast
      rw [tenTo_cast]
      field_simp
    have hfloor : ⌊((d.units * tenTo k : Nat) : Rat) + 1 / 2⌋ = ((d.units * tenTo k : Nat) : Int) := by
      rw [Int.floor_natCast_add]
      norm_num
    rw [hunit, hquotient, hfloor, Int.cast_natCast, ← hquotient]
    field_simp
  · rw [if_neg hs]
    obtain ⟨k, hk⟩ : ∃ k : Nat, decimalLength d.units - p = k := ⟨_, rfl⟩
    have hunit : (decimalLength d.units : Int) - 1 + d.exponent - p + 1 = d.exponent + k := by omega
    have hquotient : d.toRat / 10 ^ (d.exponent + k) = (d.units : Rat) / tenTo k := by
      rw [toRat_eq, zpow_add₀ (by norm_num), zpow_natCast, tenTo_cast]
      field_simp
    rw [hunit, hquotient, ← roundDiv_up_floor _ (tenTo_pos k), hk, toRat_eq]
    push_cast
    rfl

/-- What is left of the digits are at most `p`, or a one with `p` zeros where all of them were nines. -/
theorem round_units {d : Decimal} (h : 0 < d.units) {p : Nat} (hp : 0 < p) (tie : Tie) :
    0 < (d.round tie p).units ∧ (d.round tie p).units ≤ tenTo p := by
  obtain ⟨hle, hlt⟩ := decimalLength_bounds h
  have monotone : ∀ {a b : Nat}, a ≤ b → tenTo a ≤ tenTo b := fun hab => Nat.pow_le_pow_right (by decide) hab
  unfold round
  dsimp only
  by_cases hs : decimalLength d.units - p = 0
  · rw [if_pos hs]
    exact ⟨h, Nat.le_of_lt (Nat.lt_of_lt_of_le hlt (monotone (by omega)))⟩
  · rw [if_neg hs]
    obtain ⟨k, hk⟩ : ∃ k, decimalLength d.units = p + k := ⟨decimalLength d.units - p, by omega⟩
    have hsub : decimalLength d.units - p = k := by omega
    obtain ⟨hlow, hhigh⟩ := roundDiv_bounds tie d.units (tenTo k)
    have hquotient : d.units / tenTo k < tenTo p := by
      rw [Nat.div_lt_iff_lt_mul (tenTo_pos k), ← tenTo_add, ← hk]
      exact hlt
    have hpositive : 0 < d.units / tenTo k :=
      Nat.div_pos (Nat.le_trans (monotone (by omega)) hle) (tenTo_pos k)
    rw [hsub]
    exact ⟨Nat.lt_of_lt_of_le hpositive hlow, Nat.le_trans hhigh hquotient⟩

/-- What has at most `p` digits, or is a one with `p` zeros, keeps its value within `p` digits. -/
theorem round_toRat {d : Decimal} {p : Nat} (hp : 0 < p) (h : 0 < d.units) (hle : d.units ≤ tenTo p) (tie : Tie) :
    (d.round tie p).toRat = d.toRat ∧ 0 < (d.round tie p).units ∧ (d.round tie p).units ≤ d.units := by
  by_cases hlt : d.units < tenTo p
  · rw [round_of_length_le (Double.decimalLength_le hp hlt)]
    exact ⟨rfl, h, Nat.le_refl _⟩
  · have hunits : d.units = tenTo p := Nat.le_antisymm hle (Nat.le_of_not_lt hlt)
    obtain ⟨q, rfl⟩ : ∃ q, p = q + 1 := ⟨p - 1, by omega⟩
    have hlength : decimalLength d.units - (q + 1) = 1 := by
      have hone := decimalLength_mul_tenTo (u := 1) (by decide) (q + 1)
      have : decimalLength 1 = 1 := rfl
      rw [hunits, ← Nat.one_mul (tenTo (q + 1)), hone]
      omega
    have hround : roundDiv tie (tenTo (q + 1)) (tenTo 1) = tenTo q := by
      rw [tenTo_succ]
      exact roundDiv_mul tie (tenTo q) 10 (by decide)
    unfold round
    rw [hlength, if_neg (by decide), hunits, hround, toRat_eq, toRat_eq, hunits]
    refine ⟨?_, tenTo_pos q, Nat.pow_le_pow_right (by decide) (Nat.le_succ q)⟩
    show (tenTo q : Rat) * 10 ^ (d.exponent + 1) = (tenTo (q + 1) : Rat) * 10 ^ d.exponent
    rw [zpow_add₀ (by norm_num), zpow_one, tenTo_succ]
    push_cast
    ring

/-! ### Zeros at the end -/

/-- Only zeros are dropped. -/
theorem stripZeros_spec : ∀ (fuel : Nat) (d : Decimal), ∃ j : Nat,
    (d.stripZeros fuel).units * tenTo j = d.units ∧ (d.stripZeros fuel).exponent = d.exponent + j
  | 0, d => ⟨0, Nat.mul_one _, (Int.add_zero _).symm⟩
  | fuel + 1, d => by
    rw [stripZeros]
    by_cases hz : d.units % 10 = 0
    · rw [if_pos hz]
      obtain ⟨j, hunits, hexponent⟩ := stripZeros_spec fuel ⟨d.units / 10, d.exponent + 1⟩
      refine ⟨j + 1, ?_, ?_⟩
      · rw [tenTo_succ, ← Nat.mul_assoc, hunits, Nat.div_mul_cancel (Nat.dvd_of_mod_eq_zero hz)]
      · rw [hexponent]
        push_cast
        ring
    · rw [if_neg hz]
      exact ⟨0, Nat.mul_one _, (Int.add_zero _).symm⟩

/-- All zeros are dropped. -/
theorem stripZeros_last : ∀ {fuel : Nat} {d : Decimal}, 0 < d.units → d.units < tenTo fuel →
    (d.stripZeros fuel).units % 10 ≠ 0
  | 0, d, h, hlt => absurd (Nat.lt_of_lt_of_le h (Nat.le_of_lt_succ hlt)) (Nat.lt_irrefl 0)
  | fuel + 1, d, h, hlt => by
    rw [stripZeros]
    by_cases hz : d.units % 10 = 0
    · rw [if_pos hz]
      rw [tenTo_succ] at hlt
      exact stripZeros_last (d := ⟨d.units / 10, d.exponent + 1⟩) (by dsimp only; omega) (by dsimp only; omega)
    · rw [if_neg hz]
      exact hz

/-- The normal form of a positive decimal. -/
theorem normalize_spec {d : Decimal} (h : 0 < d.units) : ∃ j : Nat,
    d.normalize.units * tenTo j = d.units ∧ d.normalize.exponent = d.exponent + j ∧ d.normalize.units % 10 ≠ 0 := by
  unfold normalize
  rw [if_neg (Nat.pos_iff_ne_zero.mp h)]
  obtain ⟨j, hunits, hexponent⟩ := stripZeros_spec (decimalLength d.units) d
  exact ⟨j, hunits, hexponent, stripZeros_last h (decimalLength_bounds h).2⟩

theorem normalize_toRat {d : Decimal} (h : 0 < d.units) : d.normalize.toRat = d.toRat := by
  obtain ⟨j, hunits, hexponent, -⟩ := normalize_spec h
  rw [toRat_eq, toRat_eq, hexponent, ← hunits, zpow_add₀ (by norm_num), zpow_natCast]
  push_cast
  rw [tenTo_cast]
  ring

/-- What is at most a one with `p` zeros has at most `p` digits without the zeros at its end. -/
theorem normalize_length {d : Decimal} {p : Nat} (hp : 0 < p) (h : 0 < d.units) (hle : d.units ≤ tenTo p) :
    decimalLength d.normalize.units ≤ p := by
  obtain ⟨j, hunits, -, hlast⟩ := normalize_spec h
  by_cases hlt : d.units < tenTo p
  · refine Double.decimalLength_le hp (Nat.lt_of_le_of_lt ?_ hlt)
    rw [← hunits]
    exact Nat.le_mul_of_pos_right _ (tenTo_pos j)
  · have hten : d.normalize.units * tenTo j = tenTo p := by omega
    rcases Nat.lt_or_ge j p with hj | hj
    · -- The units would end in a zero.
      obtain ⟨k, rfl⟩ : ∃ k, p = k + 1 + j := ⟨p - j - 1, by omega⟩
      rw [tenTo_add, tenTo_succ] at hten
      have hunits := Nat.eq_of_mul_eq_mul_right (tenTo_pos j) hten
      rw [hunits, Nat.mul_mod_left] at hlast
      exact absurd rfl hlast
    · refine Double.decimalLength_le hp ?_
      have hten' : tenTo p ≤ tenTo j := Nat.pow_le_pow_right (by decide) hj
      have hpositive : 0 < d.normalize.units := Nat.pos_of_ne_zero fun hz => hlast (by rw [hz])
      have hone : d.normalize.units ≤ 1 := by
        refine Nat.le_of_mul_le_mul_right ?_ (tenTo_pos j)
        rw [hten, Nat.one_mul]
        exact hten'
      have : tenTo 1 ≤ tenTo p := Nat.pow_le_pow_right (by decide) hp
      have : tenTo 1 = 10 := rfl
      omega

end Decimal

end Formula.Number
