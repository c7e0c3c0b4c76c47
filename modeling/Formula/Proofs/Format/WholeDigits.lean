import Formula.Proofs.Number.HalfUp
import Formula.Proofs.Number.WholeText

/-!
# Integers within the precision

Magnitudes are taken with `contextPlaces` digits before they are rounded to the precision of a format.  An integer that the
precision has room for is therefore written digit by digit if the digits beyond these are zeros, and else the digits that
are written are those of another integer, `inContext`.
-/

namespace Formula.Format

open Number

/-! ### The context -/

/-- The natural number with all digits behind the first `contextPlaces` rounded away, a half to the even side. -/
def inContext (n : Nat) : Nat :=
  let kept := (⟨n, 0⟩ : Decimal).round .even contextPlaces
  kept.units * tenTo kept.exponent.toNat

theorem inContext_of_length_le {n : Nat} (h : decimalLength n ≤ contextPlaces) : inContext n = n := by
  have hkept : (⟨n, 0⟩ : Decimal).round .even contextPlaces = ⟨n, 0⟩ := Decimal.round_of_length_le h
  unfold inContext
  rw [hkept]
  exact Nat.mul_one n

theorem round_of_lt_length {n : Nat} (h : contextPlaces < decimalLength n) :
    (⟨n, 0⟩ : Decimal).round .even contextPlaces =
      ⟨roundDiv .even n (tenTo (decimalLength n - contextPlaces)), (decimalLength n - contextPlaces : Nat)⟩ := by
  unfold Decimal.round
  dsimp only
  rw [if_neg (by omega), Int.zero_add]

/-- An integer is kept in the context if the digits that are too many are zeros. -/
theorem inContext_eq_self_iff (n : Nat) : inContext n = n ↔ tenTo (decimalLength n - contextPlaces) ∣ n := by
  rcases Nat.lt_or_ge contextPlaces (decimalLength n) with h | h
  · have hvalue : inContext n = roundDiv .even n (tenTo (decimalLength n - contextPlaces)) * tenTo (decimalLength n - contextPlaces) := by
      unfold inContext
      rw [round_of_lt_length h]
      rfl
    rw [hvalue]
    constructor
    · intro heq
      exact ⟨_, by rw [Nat.mul_comm]; exact heq.symm⟩
    · rintro ⟨q, hq⟩
      rw [Nat.mul_comm] at hq
      have hround := roundDiv_mul .even q (tenTo (decimalLength n - contextPlaces)) (tenTo_pos _)
      rw [← hq] at hround
      rw [hround, ← hq]
  · rw [inContext_of_length_le h, Nat.sub_eq_zero_of_le h]
    exact iff_of_true rfl ⟨n, (Nat.one_mul n).symm⟩

/-- What the context keeps of a number. -/
theorem isWhole_inContext (n : Nat) : ((⟨n, 0⟩ : Decimal).round .even contextPlaces).IsWhole (inContext n) := by
  rcases Nat.lt_or_ge contextPlaces (decimalLength n) with h | h
  · unfold inContext
    rw [round_of_lt_length h]
    exact ⟨_, rfl, rfl⟩
  · rw [inContext_of_length_le h, Decimal.round_of_length_le h]
    exact ⟨0, rfl, Nat.mul_one n⟩

/-- Rounding in the context once more changes nothing: a carry leaves zeros only. -/
theorem normalize_round_carry (e : Int) :
    ((⟨tenTo contextPlaces, e⟩ : Decimal).round .even contextPlaces).normalize = (⟨tenTo contextPlaces, e⟩ : Decimal).normalize := by
  have hlength : decimalLength (tenTo contextPlaces) = 29 := by decide +kernel
  have hlength' : decimalLength (tenTo 27) = 28 := by decide +kernel
  have hunits : roundDiv .even (tenTo contextPlaces) (tenTo 1) = tenTo 27 := by decide +kernel
  have hround : (⟨tenTo contextPlaces, e⟩ : Decimal).round .even contextPlaces = ⟨tenTo 27, e + 1⟩ := by
    unfold Decimal.round
    dsimp only
    rw [hlength, if_neg (by decide)]
    exact congrArg₂ Decimal.mk hunits rfl
  have hstrip : (⟨tenTo contextPlaces, e⟩ : Decimal).stripZeros 29 = (⟨tenTo 27, e + 1⟩ : Decimal).stripZeros 28 := by
    rw [Decimal.stripZeros]
    dsimp only
    rw [if_pos (by decide)]
    rfl
  rw [hround]
  unfold Decimal.normalize
  dsimp only
  rw [if_neg (by decide), if_neg (by decide), hlength, hlength', hstrip]

/-- With room for all digits of a number nothing of what the context keeps of it is rounded. -/
theorem rounded_inContext {n p : Nat} (h : decimalLength n ≤ p) {d : Decimal}
    (hd : (⟨n, 0⟩ : Decimal).round .even contextPlaces = d) :
    rounded p d = ⟨d.normalize.digitChars, d.normalize.digitChars.length - 1 + d.normalize.exponent, false⟩ := by
  have hkept : d.round .up p = d ∧ (d.round .even contextPlaces).normalize = d.normalize := by
    rcases Nat.lt_or_ge contextPlaces (decimalLength n) with hlong | hshort
    · have hpos : 0 < n := by
        refine Nat.pos_of_ne_zero fun hzero => ?_
        rw [hzero] at hlong
        exact absurd hlong (by decide)
      obtain ⟨-, hmost⟩ := Decimal.round_units (show 0 < (⟨n, 0⟩ : Decimal).units from hpos) (p := contextPlaces) (by decide) .even
      rw [hd] at hmost
      rcases Nat.lt_or_ge d.units (tenTo contextPlaces) with hlt | hge
      · have hlength := Double.decimalLength_le (by decide) hlt
        exact ⟨Decimal.round_of_length_le (by omega), by rw [Decimal.round_of_length_le hlength]⟩
      · obtain ⟨units, exponent⟩ := d
        obtain rfl : units = tenTo contextPlaces := Nat.le_antisymm hmost hge
        refine ⟨Decimal.round_of_length_le ?_, normalize_round_carry exponent⟩
        have hlength : decimalLength (tenTo contextPlaces) = contextPlaces + 1 := by decide +kernel
        show decimalLength (tenTo contextPlaces) ≤ p
        omega
    · rw [Decimal.round_of_length_le hshort] at hd
      subst hd
      exact ⟨Decimal.round_of_length_le h, by rw [Decimal.round_of_length_le hshort]⟩
  have hsame : d.same d = true := beq_self_eq_true _
  unfold rounded
  dsimp only
  rw [hkept.1, hkept.2, hsame]
  rfl

/-! ### Integers -/

/-- The text consists of the digits with the separator between groups of them. -/
def WritesDigits (separator : String) (digits : List Char) (text : String) : Prop :=
  ∃ groups : List (List Char), groups.flatten = digits ∧ text = separator.intercalate (groups.map String.ofList)

theorem groupedWhole_writesDigits (separator : String) (digits : List Char) :
    ∃ text, groupedWhole (.text separator) digits = .ok text ∧ WritesDigits separator digits text := by
  unfold groupedWhole grouped
  split
  · exact ⟨_, rfl, [digits], List.flatten_singleton, by rw [List.map_singleton, String.intercalate_singleton]⟩
  · next hgrouped =>
    refine ⟨_, rfl, groupsOf (digits.length % 3) digits, ?_, rfl⟩
    have hlong : ¬digits.length ≤ 3 := fun hshort => hgrouped (by rw [decide_eq_true hshort, Bool.or_true])
    have := flatten_groupsFrom (digits.length % 3) digits
    rwa [groupsFrom, if_neg hlong] at this

/-- The context adds no digit but for a carry, which leaves a power of ten. -/
theorem inContext_le (n : Nat) : inContext n ≤ tenTo (decimalLength n) := by
  have hlt : n < tenTo (decimalLength n) :=
    (Nat.length_toDigits_le_iff (by decide) Nat.length_toDigits_pos).mp (Nat.le_refl _)
  rcases Nat.lt_or_ge contextPlaces (decimalLength n) with hlong | hshort
  · have hpos : 0 < n := by
      refine Nat.pos_of_ne_zero fun hzero => ?_
      rw [hzero] at hlong
      exact absurd hlong (by decide)
    have hmost := (@Decimal.round_units ⟨n, 0⟩ hpos contextPlaces (by decide) .even).2
    unfold inContext
    rw [round_of_lt_length hlong] at hmost ⊢
    calc _ ≤ tenTo contextPlaces * tenTo (decimalLength n - contextPlaces) := Nat.mul_le_mul_right _ hmost
      _ = tenTo (decimalLength n) := by rw [← tenTo_add, Nat.add_sub_cancel' (Nat.le_of_lt hlong)]
  · rw [inContext_of_length_le hshort]
    exact Nat.le_of_lt hlt

/-- A power of ten has a single digit besides its zeros. -/
theorem normalize_of_tenTo {d : Decimal} {p : Nat} (h : d.IsWhole (tenTo p)) : d.normalize = ⟨1, p⟩ := by
  obtain ⟨⟨k, hk, hvalue⟩, -⟩ := h.normalize
  have hunits : 0 < d.units := by
    obtain ⟨j, -, hd⟩ := h
    refine Nat.pos_of_ne_zero fun hzero => ?_
    rw [hzero, Nat.zero_mul] at hd
    exact absurd hd.symm (Nat.pos_iff_ne_zero.mp (tenTo_pos p))
  obtain ⟨-, -, -, hlast⟩ := Decimal.normalize_spec hunits
  have hle : k ≤ p := by
    refine (Nat.pow_le_pow_iff_right (a := 10) (by decide)).mp ?_
    calc 10 ^ k ≤ d.normalize.units * tenTo k := Nat.le_mul_of_pos_left _ (Nat.pos_of_ne_zero fun h => hlast (by rw [h]))
      _ = 10 ^ p := hvalue
  obtain ⟨j, rfl⟩ := Nat.exists_eq_add_of_le hle
  have hpower : d.normalize.units = tenTo j := by
    rw [Nat.add_comm, tenTo_add] at hvalue
    exact Nat.eq_of_mul_eq_mul_right (tenTo_pos k) hvalue
  cases j with
  | zero => exact congrArg₂ Decimal.mk hpower hk
  | succ j =>
    rw [hpower, tenTo_succ, Nat.mul_mod_left] at hlast
    exact absurd rfl hlast

section

variable {f : Format} {separator : String} {p : Nat} {n : Int} (hplaces : f.places = .ok (p : Int))
  (hrule : f.scientificNotation = .text "auto") (hseparator : f.groupSeparator = .text separator)
  (hlong : decimalLength n.natAbs ≤ p)

include hplaces hrule hseparator hlong

theorem magnitude_carry (hcarry : p < decimalLength (inContext n.natAbs)) :
    f.magnitude ((⟨n.natAbs, 0⟩ : Decimal).round .even contextPlaces) = .ok (f.withExponent "1" p) := by
  have hvalue : inContext n.natAbs = tenTo p := by
    have hmost : tenTo (decimalLength n.natAbs) ≤ tenTo p := Nat.pow_le_pow_right (by decide) hlong
    refine Nat.le_antisymm (Nat.le_trans (inContext_le _) hmost) (Nat.le_of_not_lt fun hlt => ?_)
    have hpos : 0 < p := Nat.lt_of_lt_of_le (decimalLength_pos _) hlong
    exact absurd (Double.decimalLength_le hpos hlt) (Nat.not_le.mpr hcarry)
  have hnormal := normalize_of_tenTo (hvalue ▸ isWhole_inContext n.natAbs)
  have hshift : shiftOf f.scientificNotation p p = p := by
    rw [hrule]
    show (if leastPlainExponent ≤ (p : Int) ∧ (p : Int) < p then (0 : Int) else p) = p
    rw [if_neg (by omega)]
  have hone : f.mantissaText ['1'] [] false = .ok "1" := by
    rw [mantissaText_whole, hseparator]
    unfold groupedWhole grouped
    rw [if_pos (by simp)]
  have hsplit : splitDigits ['1'] 1 = (['1'], []) := by decide
  unfold magnitude
  rw [hplaces]
  show (do
    let r := rounded (p : Int).toNat _
    let shift := shiftOf f.scientificNotation p r.leading
    let parts := splitDigits r.digits (r.leading - shift + 1)
    return f.withExponent (← f.mantissaText parts.1 parts.2 r.truncated) shift) = _
  rw [Int.toNat_natCast, rounded_inContext hlong rfl, hnormal]
  have hdigits : (⟨1, p⟩ : Decimal).digitChars = ['1'] := by
    show Nat.toDigits 10 1 = _
    decide
  rw [hdigits]
  dsimp only
  have hleading : ((['1'] : List Char).length : Int) - 1 + p = p := by simp
  rw [hleading, hshift, Int.sub_self, Int.zero_add, hsplit]
  dsimp only
  rw [hone]
  rfl

end

end Formula.Format
