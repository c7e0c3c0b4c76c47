import Formula.Number.Shortest
import Formula.Proofs.Number.NumeralText

/-!
# Whole numbers as floating-point numbers

A whole number below `2 ^ 53` is held exactly.  One that is also at least one ulp of its own away from its neighbours, by
more than the reals that round to it, is the only whole number among them; so the shortest decimal that reads back is the
number itself, without some of the zeros at its end.
-/

namespace Formula.Number

/-! ### Digits of a product with a power of ten -/

theorem toDigits_mul_tenTo {u : Nat} (hu : 0 < u) : ∀ k : Nat,
    Nat.toDigits 10 (u * tenTo k) = Nat.toDigits 10 u ++ List.replicate k '0'
  | 0 => by rw [tenTo_zero, Nat.mul_one, List.replicate_zero, List.append_nil]
  | k + 1 => by
    have hpos : 0 < u * tenTo k := Nat.mul_pos hu (tenTo_pos k)
    have hstep := Nat.toDigits_append_toDigits (b := 10) (d := 0) (by decide) hpos (by decide)
    rw [Nat.toDigits_zero, Nat.add_zero, Nat.mul_comm 10, Nat.mul_assoc, ← tenTo_succ] at hstep
    rw [← hstep, toDigits_mul_tenTo hu k, List.append_assoc, List.replicate_succ']

theorem decimalLength_mul_tenTo {u : Nat} (hu : 0 < u) (k : Nat) :
    decimalLength (u * tenTo k) = decimalLength u + k := by
  unfold decimalLength
  rw [toDigits_mul_tenTo hu, List.length_append, List.length_replicate]

theorem digitsToNat_eq (cs : List Char) : digitsToNat cs = Nat.ofDigitChars 10 cs 0 := by
  rw [Nat.ofDigitChars_eq_foldl]
  rfl

theorem digitsToNat_toDigits (n : Nat) : digitsToNat (Nat.toDigits 10 n) = n := by
  rw [digitsToNat_eq, Nat.ofDigitChars_ten_toDigits]

/-! ### Decimals that are whole -/

namespace Decimal

/-- The decimal is the number `n`, with a power of ten that is no fraction. -/
def IsWhole (d : Decimal) (n : Nat) : Prop := ∃ k : Nat, d.exponent = k ∧ d.units * tenTo k = n

theorem IsWhole.stripZeros {n : Nat} : ∀ (fuel : Nat) {d : Decimal}, d.IsWhole n → (d.stripZeros fuel).IsWhole n
  | 0, _, h => h
  | fuel + 1, d, h => by
    rw [Decimal.stripZeros]
    by_cases hz : d.units % 10 = 0
    · rw [if_pos hz]
      obtain ⟨k, hk, hn⟩ := h
      refine IsWhole.stripZeros fuel ⟨k + 1, ?_, ?_⟩
      · show d.exponent + 1 = _
        rw [hk]
        rfl
      · show d.units / 10 * tenTo (k + 1) = n
        rw [tenTo_succ, Nat.mul_comm (tenTo k), ← Nat.mul_assoc, Nat.div_mul_cancel (Nat.dvd_of_mod_eq_zero hz), hn]
    · rw [if_neg hz]
      exact h

/-- Zeros at the end do not change the number, and zero is left with exponent zero. -/
theorem IsWhole.normalize {d : Decimal} {n : Nat} (h : d.IsWhole n) :
    d.normalize.IsWhole n ∧ (d.normalize.units = 0 → d.normalize = ⟨0, 0⟩) := by
  unfold Decimal.normalize
  by_cases hz : d.units = 0
  · rw [if_pos hz]
    obtain ⟨k, -, hn⟩ := h
    rw [hz, Nat.zero_mul] at hn
    exact ⟨⟨0, rfl, by rw [← hn]; rfl⟩, fun _ => rfl⟩
  · rw [if_neg hz]
    have hwhole := h.stripZeros (decimalLength d.units)
    refine ⟨hwhole, fun hzero => ?_⟩
    obtain ⟨k, -, hn⟩ := h
    obtain ⟨k', -, hn'⟩ := hwhole
    rw [hzero, Nat.zero_mul] at hn'
    rw [← hn'] at hn
    rcases Nat.mul_eq_zero.mp hn with h | h
    · exact absurd h hz
    · exact absurd h (Nat.pos_iff_ne_zero.mp (tenTo_pos k))

end Decimal

namespace Double

/-! ### Whole numbers are held exactly -/

/-- The significand of a whole number. -/
def wholeSignificand (n : Nat) : Nat := n * twoTo (52 - n.log2)

theorem log2_le_of_lt {n : Nat} (hpos : 0 < n) (hlt : n < twoTo 53) : n.log2 ≤ 52 :=
  Nat.le_of_lt_succ ((Nat.log2_lt (Nat.pos_iff_ne_zero.mp hpos)).mpr hlt)

theorem twoTo_log2_le {n : Nat} (hpos : 0 < n) : twoTo n.log2 ≤ n := Nat.log2_self_le (Nat.pos_iff_ne_zero.mp hpos)

theorem wholeSignificand_lt {n : Nat} (hpos : 0 < n) (hlt : n < twoTo 53) : wholeSignificand n < twoTo 53 := by
  have hlog := log2_le_of_lt hpos hlt
  have hn : n < twoTo (n.log2 + 1) := Nat.lt_log2_self
  have hsplit : twoTo 53 = twoTo (n.log2 + 1) * twoTo (52 - n.log2) := by
    rw [← twoTo_add]
    congr 1
    omega
  rw [hsplit]
  exact Nat.mul_lt_mul_of_pos_right hn (twoTo_pos _)

theorem unitExponent_whole {n : Nat} (hpos : 0 < n) (hlt : n < twoTo 53) : unitExponent n 1 = (n.log2 : Int) - 52 := by
  have hlog := log2_le_of_lt hpos hlt
  have hone : Nat.log2 1 = 0 := by decide
  have h1 : (-((n.log2 : Int) - (0 : Nat) - 53)).toNat = 53 - n.log2 := by omega
  have h2 : ((n.log2 : Int) - (0 : Nat) - 53).toNat = 0 := by omega
  have hbig : ¬n * twoTo (53 - n.log2) < significandBound := by
    have hsplit : significandBound = twoTo n.log2 * twoTo (53 - n.log2) := by
      rw [← twoTo_add]
      show twoTo 53 = _
      congr 1
      omega
    rw [hsplit]
    exact Nat.not_lt.mpr (Nat.mul_le_mul_right _ (twoTo_log2_le hpos))
  unfold unitExponent inUnits
  dsimp only
  rw [hone, h1, h2, twoTo_zero, Nat.mul_one, Nat.div_one, if_neg hbig]
  omega

/-- A whole number below `2 ^ 53` is not rounded. -/
theorem ofRatio_whole (negative : Bool) {n : Nat} (hpos : 0 < n) (hlt : n < twoTo 53) :
    ofRatio negative n 1 = .finite negative (wholeSignificand n) ((n.log2 : Int) - 52) := by
  have hlog := log2_le_of_lt hpos hlt
  have hmax : max minExponent ((n.log2 : Int) - 52) = (n.log2 : Int) - 52 := by
    unfold minExponent
    omega
  have h1 : (-((n.log2 : Int) - 52)).toNat = 52 - n.log2 := by omega
  have h2 : ((n.log2 : Int) - 52).toNat = 0 := by omega
  have hround : roundDiv .even (n * twoTo (52 - n.log2)) (1 * twoTo 0) = wholeSignificand n := by
    have := roundDiv_mul .even (wholeSignificand n) 1 (by decide)
    rwa [Nat.mul_one] at this
  unfold ofRatio
  rw [if_neg (Nat.pos_iff_ne_zero.mp hpos), unitExponent_whole hpos hlt, hmax]
  unfold inUnits
  dsimp only
  rw [h1, h2, hround, if_pos (show wholeSignificand n < significandBound from wholeSignificand_lt hpos hlt), if_pos]
  show (n.log2 : Int) - 52 ≤ maxExponent
  unfold maxExponent
  omega

theorem magnitude_whole {n : Nat} (hpos : 0 < n) (hlt : n < twoTo 53) :
    mkRat (wholeSignificand n * twoTo ((n.log2 : Int) - 52).toNat : Nat) (twoTo (-((n.log2 : Int) - 52)).toNat) =
      (n : Rat) := by
  have hlog := log2_le_of_lt hpos hlt
  have h1 : (-((n.log2 : Int) - 52)).toNat = 52 - n.log2 := by omega
  have h2 : ((n.log2 : Int) - 52).toNat = 0 := by omega
  rw [h1, h2, twoTo_zero, Nat.mul_one, wholeSignificand]
  have := Rat.mkRat_mul_right (n := n) (d := 1) (a := twoTo (52 - n.log2)) (Nat.pos_iff_ne_zero.mp (twoTo_pos _))
  rw [Nat.one_mul] at this
  rw [Int.natCast_mul, this]
  exact Rat.mkRat_one n

theorem finite_toRat? (negative : Bool) {n : Nat} (hpos : 0 < n) (hlt : n < twoTo 53) :
    (Double.finite negative (wholeSignificand n) ((n.log2 : Int) - 52)).toRat? =
      some (if negative then -(n : Rat) else n) := by
  unfold toRat?
  dsimp only
  rw [magnitude_whole hpos hlt]

theorem zero_toRat? (negative : Bool) (q : Int) : (Double.finite negative 0 q).toRat? = some 0 := by
  unfold toRat?
  dsimp only
  rw [Nat.zero_mul, Int.ofNat_zero, Rat.zero_mkRat]
  cases negative with
  | true => rfl
  | false => rfl

/-- **A whole number below `2 ^ 53` has itself as its value.** -/
theorem toRat?_ofInt {n : Int} (hlt : n.natAbs < twoTo 53) : (ofInt n).toRat? = some (n : Rat) := by
  unfold ofInt
  by_cases hzero : n.natAbs = 0
  · have : n = 0 := Int.natAbs_eq_zero.mp hzero
    subst this
    exact zero_toRat? _ _
  · have hpos : 0 < n.natAbs := Nat.pos_of_ne_zero hzero
    rw [ofRatio_whole _ hpos hlt, finite_toRat? _ hpos hlt]
    by_cases hneg : n < 0
    · have habs : (n.natAbs : Int) = -n := Int.ofNat_natAbs_of_nonpos (Int.le_of_lt hneg)
      have hrat : ((n.natAbs : Nat) : Rat) = -(n : Rat) := by
        rw [← Rat.intCast_natCast, habs, Rat.intCast_neg]
      rw [decide_eq_true hneg, if_pos rfl, hrat, Rat.neg_neg]
    · have habs : (n.natAbs : Int) = n := Int.natAbs_of_nonneg (Int.not_lt.mp hneg)
      have hrat : ((n.natAbs : Nat) : Rat) = (n : Rat) := by rw [← Rat.intCast_natCast, habs]
      rw [decide_eq_false hneg, if_neg Bool.false_ne_true, hrat]

theorem toRat?_abs_ofInt {n : Int} (hlt : n.natAbs < twoTo 53) : (ofInt n).abs.toRat? = some (n.natAbs : Rat) := by
  unfold ofInt
  by_cases hzero : n.natAbs = 0
  · rw [hzero]
    exact zero_toRat? _ _
  · have hpos : 0 < n.natAbs := Nat.pos_of_ne_zero hzero
    rw [ofRatio_whole _ hpos hlt]
    exact finite_toRat? false hpos hlt

theorem lt_of_toRat? {x y : Double} {r s : Rat} (hx : x.toRat? = some r) (hy : y.toRat? = some s) :
    x.lt y = decide (r < s) := by
  cases x with
  | nan | infinite => cases hx
  | finite =>
    cases y with
    | nan | infinite => cases hy
    | finite =>
      unfold lt
      dsimp only
      rw [hx, hy]

/-- A whole number added to one that is held exactly is added as it is. -/
theorem addInt_of_toRat? {x : Double} {n : Int} (h : x.toRat? = some (n : Rat)) (k : Int) : x.addInt k = ofInt (n + k) := by
  have hsum : ((n : Rat) + (k : Rat)) = ((n + k : Int) : Rat) := (Rat.intCast_add n k).symm
  unfold addInt
  rw [h]
  dsimp only
  rw [hsum]
  rfl

/-- The sign of a whole number is that of its floating-point number. -/
theorem neg_ofInt {n : Int} (hne : n ≠ 0) (hlt : n.natAbs < twoTo 53) : (ofInt n).neg = ofInt (-n) := by
  have hsign : (!decide (n < 0)) = decide (-n < 0) := by
    by_cases hneg : n < 0
    · rw [decide_eq_true hneg, decide_eq_false (by omega)]
      rfl
    · rw [decide_eq_false hneg, decide_eq_true (by omega)]
      rfl
  unfold ofInt
  rw [Int.natAbs_neg, ofRatio_whole _ (Int.natAbs_pos.mpr hne) hlt, ofRatio_whole _ (Int.natAbs_pos.mpr hne) hlt, ← hsign]
  rfl

/-! ### The shortest decimal -/

namespace Interval

/-- Of the whole numbers only `n` lies in the interval, and it does so inside. -/
structure IsAround (i : Interval) (n : Nat) : Prop where
  value : i.value = n * i.den
  low : i.low < i.value
  high : i.value < i.high
  below : i.value < i.low + i.den
  above : i.high < i.value + i.den

variable {i : Interval} {n : Nat}

theorem IsAround.den_pos (h : i.IsAround n) : 0 < i.den := by
  have := h.low
  have := h.below
  omega

/-- A whole number in the interval is the number itself. -/
theorem IsAround.eq_of_holds (h : i.IsAround n) {u k : Nat} (hu : i.holds u k = true) : u * tenTo k = n := by
  have hscale : tenTo (-(k : Int)).toNat = 1 := by
    have : (-(k : Int)).toNat = 0 := by omega
    rw [this, tenTo_zero]
  have hbounds : i.low ≤ u * tenTo k * i.den ∧ u * tenTo k * i.den ≤ i.high := by
    unfold holds at hu
    dsimp only at hu
    rw [hscale, Nat.mul_one, Nat.mul_one, Int.toNat_natCast] at hu
    cases hc : i.closed with
    | true =>
      rw [hc, if_pos rfl, Bool.and_eq_true, decide_eq_true_eq, decide_eq_true_eq] at hu
      exact hu
    | false =>
      rw [hc, if_neg Bool.false_ne_true, Bool.and_eq_true, decide_eq_true_eq, decide_eq_true_eq] at hu
      exact ⟨Nat.le_of_lt hu.1, Nat.le_of_lt hu.2⟩
  have hvalue := h.value
  have hupper : u * tenTo k * i.den < (n + 1) * i.den := by
    have := h.above
    rw [Nat.add_mul, Nat.one_mul]
    omega
  have hlower : n * i.den < (u * tenTo k + 1) * i.den := by
    have := h.below
    rw [Nat.add_mul, Nat.one_mul]
    omega
  have := Nat.lt_of_mul_lt_mul_right hupper
  have := Nat.lt_of_mul_lt_mul_right hlower
  omega

theorem IsAround.holds (h : i.IsAround n) : i.holds n 0 = true := by
  have hvalue := h.value
  have hlow := h.low
  have hhigh := h.high
  unfold Interval.holds
  dsimp only
  rw [Int.toNat_zero, Int.neg_zero, Int.toNat_zero, tenTo_zero, Nat.mul_one, Nat.mul_one, Nat.mul_one, ← hvalue]
  cases i.closed with
  | true => rw [if_pos rfl, decide_eq_true (Nat.le_of_lt hlow), decide_eq_true (Nat.le_of_lt hhigh), Bool.and_self]
  | false =>
    rw [if_neg Bool.false_ne_true, decide_eq_true hlow, decide_eq_true hhigh, Bool.and_self]

theorem IsAround.magnitude (h : i.IsAround n) (hpos : 0 < n) : i.magnitude = decimalLength n := by
  have hden := h.den_pos
  have hle : i.den ≤ i.value := by
    rw [h.value]
    exact Nat.le_mul_of_pos_left _ hpos
  unfold Interval.magnitude
  rw [if_pos hle, h.value, Nat.mul_div_cancel _ hden]

theorem holds_of_candidate {places : Nat} {d : Decimal} (hd : i.candidate places = some d) :
    ∃ u, d = ⟨u, i.magnitude - places⟩ ∧ i.holds u (i.magnitude - places) = true := by
  unfold candidate at hd
  dsimp only at hd
  generalize (if roundDiv _ _ _ = _ then _ else _) = far at hd
  generalize roundDiv _ _ _ = near at hd
  split at hd
  · rename_i hnear
    exact ⟨near, (Option.some.inj hd).symm, hnear⟩
  · split at hd
    · rename_i hfar
      exact ⟨far, (Option.some.inj hd).symm, hfar⟩
    · cases hd

/-- A decimal that is found with no more digits than the number has is the number. -/
theorem IsAround.isWhole_of_candidate (h : i.IsAround n) (hpos : 0 < n) {places : Nat}
    (hplaces : places ≤ decimalLength n) {d : Decimal} (hd : i.candidate places = some d) : d.IsWhole n := by
  obtain ⟨k, hk⟩ : ∃ k : Nat, i.magnitude - (places : Int) = k := by
    refine ⟨decimalLength n - places, ?_⟩
    rw [h.magnitude hpos]
    omega
  obtain ⟨u, rfl, hu⟩ := holds_of_candidate hd
  rw [hk] at hu ⊢
  exact ⟨k, rfl, h.eq_of_holds hu⟩

/-- With all of its digits the number is found. -/
theorem IsAround.candidate_length (h : i.IsAround n) (hpos : 0 < n) :
    ∃ d, i.candidate (decimalLength n) = some d := by
  have hk : i.magnitude - (decimalLength n : Int) = 0 := by
    rw [h.magnitude hpos]
    omega
  have hnear : roundDiv .even (i.value * tenTo (-0 : Int).toNat) (i.den * tenTo (0 : Int).toNat) = n := by
    rw [Int.neg_zero, Int.toNat_zero, tenTo_zero, Nat.mul_one, Nat.mul_one, h.value]
    exact roundDiv_mul .even n i.den h.den_pos
  unfold candidate
  dsimp only
  rw [hk, hnear, if_pos h.holds]
  exact ⟨_, rfl⟩

theorem IsAround.isWhole_search (h : i.IsAround n) (hpos : 0 < n) : ∀ (fuel places : Nat), places ≤ decimalLength n →
    decimalLength n < places + fuel → (i.search fuel places).IsWhole n
  | 0, places, hle, hlt => by omega
  | fuel + 1, places, hle, hlt => by
    rw [search]
    cases hd : i.candidate places with
    | some d => exact h.isWhole_of_candidate hpos hle hd
    | none =>
      have hne : places ≠ decimalLength n := by
        rintro rfl
        obtain ⟨d, hfound⟩ := h.candidate_length hpos
        rw [hd] at hfound
        cases hfound
      exact h.isWhole_search hpos fuel (places + 1) (by omega) (by omega)

end Interval

theorem interval_isAround {n : Nat} (hpos : 0 < n) (hlt : n < twoTo 51) :
    (interval (wholeSignificand n) ((n.log2 : Int) - 52)).IsAround n := by
  have hlog : n.log2 ≤ 50 := Nat.le_of_lt_succ ((Nat.log2_lt (Nat.pos_iff_ne_zero.mp hpos)).mpr hlt)
  have h1 : ((n.log2 : Int) - 52 - 2).toNat = 0 := by omega
  have h2 : (2 - ((n.log2 : Int) - 52)).toNat = 52 - n.log2 + 2 := by omega
  have hden : twoTo (52 - n.log2 + 2) = 4 * twoTo (52 - n.log2) := by
    rw [twoTo_add, Nat.mul_comm]
    rfl
  have hbig : 4 ≤ twoTo (52 - n.log2) := by
    have : 52 - n.log2 = 50 - n.log2 + 2 := by omega
    rw [this, twoTo_add]
    have := twoTo_pos (50 - n.log2)
    show 4 ≤ twoTo (50 - n.log2) * 4
    omega
  have hsig : twoTo (52 - n.log2) ≤ wholeSignificand n := Nat.le_mul_of_pos_left _ hpos
  have hvalue : 4 * wholeSignificand n = n * (4 * twoTo (52 - n.log2)) := by
    rw [wholeSignificand, Nat.mul_left_comm]
  unfold interval
  dsimp only
  rw [h1, h2, hden, twoTo_zero]
  constructor
  case value => exact (Nat.mul_one _).trans hvalue
  case high => exact Nat.mul_lt_mul_of_pos_right (by omega) Nat.one_pos
  case above =>
    dsimp only
    omega
  all_goals
    dsimp only
    split <;> omega

theorem decimalLength_le {n k : Nat} (hpos : 0 < k) (hlt : n < tenTo k) : decimalLength n ≤ k :=
  (Nat.length_toDigits_le_iff (by decide) hpos).mpr hlt

/-- **The shortest decimal of a whole number below `2 ^ 51` is the number itself.** -/
theorem isWhole_shortest {n : Nat} (hpos : 0 < n) (hlt : n < twoTo 51) :
    (shortest (wholeSignificand n) ((n.log2 : Int) - 52)).IsWhole n := by
  have hlength : decimalLength n ≤ 16 := decimalLength_le (by decide) (Nat.lt_trans hlt (by decide))
  have hone : 1 ≤ decimalLength n := Nat.length_toDigits_pos
  exact ((interval_isAround hpos hlt).isWhole_search hpos 16 1 hone (by omega)).normalize.1

/-! ### Reading digits -/

theorem ofDecimal_whole {n : Nat} (hlt : n < tenTo 100) : ofDecimal false ⟨n, 0⟩ = ofInt n := by
  have hlength : decimalLength n ≤ 100 := decimalLength_le (by decide) hlt
  have hneg : ¬((n : Int) < 0) := by omega
  unfold ofDecimal ofInt
  dsimp only
  rw [decide_eq_false hneg, Int.natAbs_natCast]
  by_cases hzero : n = 0
  · subst hzero
    rfl
  · rw [if_neg hzero, if_neg (by omega), if_neg (by omega), Int.toNat_zero, Int.neg_zero, Int.toNat_zero, tenTo_zero,
      Nat.mul_one]

/-- **The digits of a whole number are read as the number.** -/
theorem readDouble_toDigits {n : Nat} (hlt : n < tenTo 100) :
    readDouble (String.ofList (Nat.toDigits 10 n)) = some (ofInt n) := by
  have hall : (Nat.toDigits 10 n).all Char.isDigit = true :=
    List.all_eq_true.mpr fun d hd => Nat.isDigit_of_mem_toDigits (by decide) (by decide) hd
  have hnum : readNumeral (Nat.toDigits 10 n) = some ⟨Nat.toDigits 10 n, [], ⟨false, []⟩⟩ := by
    have := readNumeral_whole (x := []) hall Nat.toDigits_ne_nil (by rintro c ⟨⟩)
    rwa [List.append_nil] at this
  have hchars := isNumeralChar_of_all hall
  obtain ⟨d, ds, hcons⟩ := List.exists_cons_of_ne_nil (Nat.toDigits_ne_nil (n := n) (b := 10))
  rw [hcons] at hchars hall
  have hdigit : d.isDigit = true := List.all_eq_true.mp hall d List.mem_cons_self
  rw [hcons, readDouble_ofList (fun d hd => (hchars d hd).isGraphic) (fun d hd => (hchars d hd).ne_underscore)
    (.inl hdigit), ← hcons, hnum]
  show some (ofDecimal false ⟨digitsToNat (Nat.toDigits 10 n ++ []), 0⟩) = _
  rw [List.append_nil, digitsToNat_toDigits, ofDecimal_whole hlt]

end Double

end Formula.Number
