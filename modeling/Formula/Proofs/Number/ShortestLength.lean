import Formula.Proofs.Number.HalfUp

/-!
# The length of the shortest decimal

`Interval.magnitude` is the place of the point of a floating-point number.  So a decimal of as many units as
`Double.shortest` looks for has at most that many digits, or is the next power of ten; the shortest decimal of a positive
number is positive and has at most seventeen digits.
-/

namespace Formula.Number.Double

namespace Interval

/-- Only the two neighbours on the decimal grid are tried. -/
theorem units_of_candidate {i : Interval} {places : Nat} {d : Decimal} (hd : i.candidate places = some d) {e : Int}
    (he : i.magnitude - places = e) :
    i.value * tenTo (-e).toNat / (i.den * tenTo e.toNat) ≤ d.units ∧
      d.units ≤ i.value * tenTo (-e).toNat / (i.den * tenTo e.toNat) + 1 := by
  have hnear := roundDiv_bounds .even (i.value * tenTo (-e).toNat) (i.den * tenTo e.toNat)
  unfold candidate at hd
  dsimp only at hd
  rw [he] at hd
  generalize i.value * tenTo (-e).toNat / (i.den * tenTo e.toNat) = floor at hd hnear ⊢
  generalize roundDiv .even (i.value * tenTo (-e).toNat) (i.den * tenTo e.toNat) = near at hd hnear
  have hfar : floor ≤ (if near = floor then floor + 1 else floor) ∧
      (if near = floor then floor + 1 else floor) ≤ floor + 1 := by
    split <;> omega
  generalize (if near = floor then floor + 1 else floor) = far at hd hfar
  split at hd
  · cases hd
    exact hnear
  · split at hd
    · cases hd
      exact hfar
    · cases hd

variable {i : Interval} (hvalue : 0 < i.value) (hden : 0 < i.den)

include hvalue hden

/-- The value lies below the power of ten of its magnitude, and not below the one before. -/
theorem magnitude_bounds :
    (10 : Rat) ^ (i.magnitude - 1) ≤ (i.value : Rat) / i.den ∧ (i.value : Rat) / i.den < 10 ^ i.magnitude := by
  have hv : (0 : Rat) < i.value := Nat.cast_pos.mpr hvalue
  have hd : (0 : Rat) < i.den := Nat.cast_pos.mpr hden
  unfold magnitude
  by_cases hle : i.den ≤ i.value
  · rw [if_pos hle]
    have hone : 1 ≤ decimalLength (i.value / i.den) := decimalLength_pos _
    obtain ⟨hlow, hhigh⟩ := decimalLength_bounds (Nat.div_pos hle hden)
    rw [le_div_iff₀ hd, div_lt_iff₀ hd, ← tenTo_zpow (n := decimalLength (i.value / i.den) - 1) (by omega),
      ← tenTo_zpow rfl]
    exact ⟨by exact_mod_cast (Nat.le_div_iff_mul_le hden).mp hlow, by exact_mod_cast (Nat.div_lt_iff_lt_mul hden).mp hhigh⟩
  · rw [if_neg hle]
    obtain ⟨j, hj⟩ : ∃ j, decimalLength (i.den / i.value) - 1 = j := ⟨_, rfl⟩
    have hone : 1 ≤ decimalLength (i.den / i.value) := decimalLength_pos _
    obtain ⟨hlow, hhigh⟩ := decimalLength_bounds (Nat.div_pos (Nat.le_of_not_le hle) hvalue)
    have hsucc : decimalLength (i.den / i.value) = j + 1 := by omega
    rw [hj] at hlow
    rw [hsucc] at hhigh
    have hlow := (Nat.le_div_iff_mul_le hvalue).mp hlow
    have hhigh := (Nat.div_lt_iff_lt_mul hvalue).mp hhigh
    have hinverse : ∀ k : Nat, (10 : Rat) ^ (-(k : Int)) = 1 / tenTo k := fun k => by
      rw [zpow_neg, zpow_natCast, tenTo_cast, one_div]
    have hten : ∀ k : Nat, (0 : Rat) < tenTo k := fun k => Nat.cast_pos.mpr (tenTo_pos k)
    dsimp only
    rw [hj]
    by_cases hexact : i.value * tenTo j = i.den
    · -- The value is a power of ten itself.
      have hpower : (i.value : Rat) / i.den = 10 ^ (-(j : Int)) := by
        rw [hinverse, div_eq_div_iff hd.ne' (hten j).ne', one_mul]
        exact_mod_cast hexact
      rw [if_pos hexact, hpower]
      exact ⟨zpow_le_zpow_right₀ (by norm_num) (by omega), zpow_lt_zpow_right₀ (by norm_num) (by omega)⟩
    · rw [if_neg hexact]
      have hnext : -(j : Int) - 1 = -((j + 1 : Nat) : Int) := by omega
      rw [hnext, hinverse, hinverse, div_le_div_iff₀ (hten _) hd, div_lt_div_iff₀ hd (hten j), one_mul]
      refine ⟨?_, ?_⟩
      · rw [mul_comm]
        exact_mod_cast hhigh.le
      · rw [Nat.mul_comm] at hlow
        exact_mod_cast Nat.lt_of_le_of_ne hlow hexact

/-- In units of its digits the number has as many digits as are asked for. -/
theorem units_bounds {places : Nat} (hplaces : 0 < places) {e : Int} (he : i.magnitude - places = e) :
    0 < i.value * tenTo (-e).toNat / (i.den * tenTo e.toNat) ∧
      i.value * tenTo (-e).toNat / (i.den * tenTo e.toNat) < tenTo places := by
  obtain ⟨hlow, hhigh⟩ := magnitude_bounds hvalue hden
  have hd : (0 : Rat) < i.den := Nat.cast_pos.mpr hden
  have hpos : 0 < i.den * tenTo e.toNat := Nat.mul_pos hden (tenTo_pos _)
  have hsplit : (10 : Rat) ^ e = tenTo e.toNat / tenTo (-e).toNat := by
    rw [tenTo_cast, tenTo_cast, ← zpow_natCast, ← zpow_natCast, ← zpow_sub₀ (by norm_num)]
    congr 1
    omega
  have hscale : (0 : Rat) < tenTo (-e).toNat := Nat.cast_pos.mpr (tenTo_pos _)
  have hmagnitude : (10 : Rat) ^ i.magnitude = tenTo places * (tenTo e.toNat / tenTo (-e).toNat) := by
    rw [← hsplit, tenTo_zpow rfl, ← zpow_add₀ (by norm_num)]
    congr 1
    omega
  constructor
  · refine Nat.div_pos ?_ hpos
    have hleast : (10 : Rat) ^ e ≤ i.value / i.den :=
      le_trans (zpow_le_zpow_right₀ (by norm_num) (by omega)) hlow
    rw [hsplit, div_le_div_iff₀ hscale hd, mul_comm] at hleast
    exact_mod_cast hleast
  · rw [Nat.div_lt_iff_lt_mul hpos]
    rw [hmagnitude, ← mul_div_assoc, div_lt_div_iff₀ hd hscale] at hhigh
    have : (i.value * tenTo (-e).toNat : Rat) < tenTo places * (i.den * tenTo e.toNat) := by
      calc (i.value : Rat) * tenTo (-e).toNat < tenTo places * tenTo e.toNat * i.den := hhigh
        _ = _ := by ring
    exact_mod_cast this

/-- What is found is positive and has no more units than a one with seventeen zeros. -/
theorem search_bounds : ∀ (fuel places : Nat), 0 < places → places + fuel = 17 →
    0 < (i.search fuel places).units ∧ (i.search fuel places).units ≤ tenTo 17
  | 0, places, hplaces, hsum => by
    obtain ⟨hlow, hhigh⟩ := units_bounds hvalue hden hplaces rfl
    have hneg : (-(i.magnitude - places)).toNat = (places - i.magnitude).toNat := by omega
    rw [hneg] at hlow hhigh
    have hround := roundDiv_bounds .even (i.value * tenTo (places - i.magnitude).toNat)
      (i.den * tenTo (i.magnitude - places).toNat)
    obtain rfl : places = 17 := by omega
    rw [search]
    dsimp only
    omega
  | fuel + 1, places, hplaces, hsum => by
    rw [search]
    cases hd : i.candidate places with
    | none => exact search_bounds fuel (places + 1) (by omega) (by omega)
    | some d =>
      obtain ⟨hlow, hhigh⟩ := units_bounds hvalue hden hplaces rfl
      have hunits := units_of_candidate hd rfl
      have hmost : tenTo places ≤ tenTo 17 := Nat.pow_le_pow_right (by decide) (by omega)
      dsimp only
      omega

end Interval

/-- **The shortest decimal of a positive number is positive and has at most seventeen digits.** -/
theorem shortest_bounds {m : Nat} (hm : 0 < m) (q : Int) :
    0 < (shortest m q).units ∧ decimalLength (shortest m q).units ≤ 17 := by
  have hvalue : 0 < (interval m q).value := Nat.mul_pos (Nat.mul_pos (by decide) hm) (twoTo_pos _)
  obtain ⟨hpos, hle⟩ := Interval.search_bounds hvalue (twoTo_pos _) 16 1 (by decide) rfl
  obtain ⟨j, -, -, hlast⟩ := Decimal.normalize_spec hpos
  exact ⟨Nat.pos_of_ne_zero fun hz => hlast (by rw [shortest] at hz; rw [hz]), Decimal.normalize_length (by decide) hpos hle⟩

end Formula.Number.Double
