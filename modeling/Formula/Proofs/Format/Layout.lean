import Formula.Proofs.Number.Repeating
import Formula.Proofs.Number.WholeText

/-!
# The layout of a number

What a format writes of a magnitude: digits before and behind the point in groups, a block that repeats or the mark of
digits that were cut off, and a power of ten.  `Layout` holds these parts, `Layout.text` writes them, and `Layout.value`
is the number that they show.  A magnitude is written by the layout of its rounded digits.
-/

namespace Formula.Format

open Number Text

/-- The parts of a written number. -/
structure Layout where
  whole : List Char
  fraction : List Char
  /-- The digits that repeat, if there are any. -/
  block : List Char
  /-- Digits were cut off behind the last one. -/
  cut : Bool
  shift : Int

namespace Layout

/-- The digits behind the point. -/
def fractionText (l : Layout) : String :=
  spaced (groupsFrom 0 l.fraction) ++ (if l.block = [] then "" else "\\overline\x7b" ++ String.ofList l.block ++ "\x7d")

/-- The number without its power of ten. -/
def mantissa (l : Layout) : String :=
  spaced (digitGroups l.whole) ++ (if l.fraction = [] ∧ l.block = [] then "" else "." ++ l.fractionText) ++
    (if l.cut then "\\ldots" else "")

/-- A power of ten. -/
def power (shift : Int) : String := "10^\x7b" ++ intText shift ++ "\x7d"

/-- The whole number, with `product` in front of its power of ten. -/
def text (product : String) (l : Layout) : String :=
  if l.shift = 0 then l.mantissa
  else if l.mantissa = "1" then power l.shift
  else l.mantissa ++ product ++ power l.shift

/-- The number with `tail` behind the last digit of the fraction, as a part of one unit of it. -/
def valueWith (l : Layout) (tail : Rat) : Rat :=
  (digitsToNat l.whole + (digitsToNat l.fraction + tail) / 10 ^ l.fraction.length) * 10 ^ l.shift

/-- The number that is shown. -/
def value (l : Layout) : Rat := l.valueWith (repeated l.block)

/-- Digits stand in all places, and at least one in front of the point; what repeats is not cut off. -/
structure Sound (l : Layout) : Prop where
  whole_ne : l.whole ≠ []
  whole : ∀ d ∈ l.whole, d.isDigit = true
  fraction : ∀ d ∈ l.fraction, d.isDigit = true
  block : ∀ d ∈ l.block, d.isDigit = true
  cut : l.block ≠ [] → l.cut = false

end Layout

/-- The block that repeats behind the point, as its place and its length; the last digit was rounded. -/
def blockIn (truncated : Bool) (fraction : List Char) : Option (Nat × Nat) :=
  if truncated then findRepeat fraction.dropLast else none

/-- The layout of digits before and behind the point, of which some may have been cut off. -/
def layoutParts (whole fraction : List Char) (truncated : Bool) (shift : Int) : Layout :=
  match blockIn truncated fraction with
  | some (offset, period) => ⟨whole, fraction.take offset, (fraction.drop offset).take period, false, shift⟩
  | none => ⟨whole, fraction, [], truncated, shift⟩

theorem layoutParts_plain {whole fraction : List Char} {truncated : Bool} (shift : Int)
    (h : blockIn truncated fraction = none) :
    layoutParts whole fraction truncated shift = ⟨whole, fraction, [], truncated, shift⟩ := by
  rw [layoutParts, h]

theorem layoutParts_block {whole fraction : List Char} {truncated : Bool} (shift : Int) {offset period : Nat}
    (h : blockIn truncated fraction = some (offset, period)) :
    layoutParts whole fraction truncated shift =
      ⟨whole, fraction.take offset, (fraction.drop offset).take period, false, shift⟩ := by
  rw [layoutParts, h]

theorem layoutParts_shift (whole fraction : List Char) (truncated : Bool) (shift : Int) :
    (layoutParts whole fraction truncated shift).shift = shift := by
  unfold layoutParts
  split <;> rfl

/-- The layout of rounded digits with a power of ten taken out. -/
def layoutOf (r : Rounded) (shift : Int) : Layout :=
  let parts := splitDigits r.digits (r.leading - shift + 1)
  layoutParts parts.1 parts.2 r.truncated shift

/-- What repeats are at least two blocks in front of the last digit. -/
theorem blockIn_spec {truncated : Bool} {fraction : List Char} {offset period : Nat}
    (h : blockIn truncated fraction = some (offset, period)) :
    truncated = true ∧ findRepeat fraction.dropLast = some (offset, period) ∧ (fraction.drop offset).take period ≠ [] := by
  cases truncated with
  | false => cases h
  | true =>
    obtain ⟨hpositive, hlength, -⟩ := findRepeat_spec h
    rw [List.length_dropLast] at hlength
    refine ⟨rfl, h, List.ne_nil_of_length_pos ?_⟩
    rw [List.length_take, List.length_drop]
    omega

theorem layoutParts_sound {whole fraction : List Char} (hne : whole ≠ []) (hwhole : ∀ d ∈ whole, d.isDigit = true)
    (hfraction : ∀ d ∈ fraction, d.isDigit = true) (truncated : Bool) (shift : Int) :
    (layoutParts whole fraction truncated shift).Sound := by
  unfold layoutParts
  split
  · exact ⟨hne, hwhole, fun d hd => hfraction d (List.mem_of_mem_take hd),
      fun d hd => hfraction d (List.mem_of_mem_drop (List.mem_of_mem_take hd)), fun _ => rfl⟩
  · exact ⟨hne, hwhole, hfraction, fun d hd => absurd hd List.not_mem_nil, fun h => absurd rfl h⟩

/-! ### Magnitudes -/

/-- A format for numbers: the precision, when there is an exponent, and what stands in front of it. -/
def forNumbers (precision : Int) (rule product : String) : Format where
  precision := .int precision
  scientificNotation := .text rule
  exponentProduct := .text product

theorem spaced_isEmpty (digits : List Char) : (spaced (groupsFrom 0 digits)).isEmpty = digits.isEmpty := by
  cases digits with
  | nil => rfl
  | cons d digits =>
    have hflatten := flatten_groupsFrom 0 (d :: digits)
    have hne : spaced (groupsFrom 0 (d :: digits)) ≠ "" := by
      have hgroups := groupsFrom_ne_nil 0 (List.cons_ne_nil d digits)
      cases hg : groupsFrom 0 (d :: digits) with
      | nil =>
        rw [hg] at hflatten
        cases hflatten
      | cons group groups =>
        have hgroup := hgroups group (hg ▸ List.mem_cons_self)
        intro hnil
        rw [← String.toList_inj] at hnil
        cases groups with
        | nil =>
          rw [spaced_singleton, String.toList_ofList] at hnil
          exact hgroup hnil
        | cons next groups =>
          rw [toList_spaced_cons _ (List.cons_ne_nil _ _)] at hnil
          exact List.append_ne_nil_of_left_ne_nil hgroup _ hnil
    rw [List.isEmpty_cons]
    exact Bool.eq_false_iff.mpr fun h => hne (String.isEmpty_iff.mp h)

/-- Around the digits behind the point stand the mark of the point and, where there is no fraction, that of digits cut off. -/
theorem mantissaText_eq {f : Format} {marker : String} (hseparator : f.groupSeparator = .text thinSpace)
    (hmarker : f.decimalMarker = .text marker) (hellipsis : f.ellipsis = .text "\\ldots") {whole fraction : List Char}
    {truncated : Bool} {shown : String} (h : f.fractionText fraction truncated = .ok shown) :
    f.mantissaText whole fraction truncated = .ok (if !shown.isEmpty then spaced (digitGroups whole) ++ (marker ++ shown)
      else if truncated then spaced (digitGroups whole) ++ "\\ldots" else spaced (digitGroups whole)) := by
  unfold mantissaText
  rw [h, hseparator, hmarker, hellipsis, groupedWhole_eq]
  show (if !shown.isEmpty then _ else _) = _
  cases shown.isEmpty with
  | false => rfl
  | true => cases truncated <;> rfl

/-- **The mantissa is written as the layout of its digits.** -/
theorem mantissaText_layout (precision : Int) (rule product : String) (whole fraction : List Char) (truncated : Bool)
    (shift : Int) : (forNumbers precision rule product).mantissaText whole fraction truncated =
      .ok (layoutParts whole fraction truncated shift).mantissa := by
  obtain ⟨f, hf⟩ : ∃ f, forNumbers precision rule product = f := ⟨_, rfl⟩
  have hseparator : f.groupSeparator = .text thinSpace := hf ▸ rfl
  have hellipsis : f.ellipsis = .text "\\ldots" := hf ▸ rfl
  have hbegin : f.beginRepeat = .text "\\overline\x7b" := hf ▸ rfl
  have hend : f.endRepeat = .text "\x7d" := hf ▸ rfl
  have hgrouped : ∀ digits, groupedFraction f.groupSeparator digits = .ok (spaced (groupsFrom 0 digits)) := fun digits =>
    hseparator ▸ grouped_eq 0 digits
  have hmantissa := fun shown => @mantissaText_eq f "." hseparator (hf ▸ rfl) hellipsis whole fraction truncated shown
  have hempty := spaced_isEmpty fraction
  rw [hf]
  cases hblock : blockIn truncated fraction with
  | some found =>
    obtain ⟨offset, period⟩ := found
    obtain ⟨rfl, hfound, hne⟩ := blockIn_spec hblock
    have hnil : fraction.isEmpty = false := List.isEmpty_eq_false_iff.mpr fun h => hne (by rw [h]; simp)
    have htext : f.fractionText fraction true = .ok (spaced (groupsFrom 0 (fraction.take offset)) ++
        "\\overline\x7b" ++ String.ofList ((fraction.drop offset).take period) ++ "\x7d") := by
      unfold fractionText
      rw [hnil, hfound, hbegin, hend]
      dsimp only
      rw [hgrouped (fraction.take offset)]
      rfl
    rw [hmantissa _ htext, layoutParts_block shift hblock]
    simp [Layout.mantissa, Layout.fractionText, hne, String.append_assoc]
  | none =>
    rw [layoutParts_plain shift hblock]
    by_cases hnil : fraction = []
    · -- Without a fraction the mark of digits that were cut off stands behind the whole number.
      subst hnil
      have htext : f.fractionText [] truncated = .ok "" := by
        unfold fractionText
        rw [List.isEmpty_nil, Bool.or_true, if_pos rfl]
        exact hgrouped []
      rw [hmantissa _ htext]
      cases truncated <;> simp [Layout.mantissa]
    · rw [List.isEmpty_eq_false_iff.mpr hnil] at hempty
      cases truncated with
      | false =>
        have htext : f.fractionText fraction false = .ok (spaced (groupsFrom 0 fraction)) := hgrouped fraction
        rw [hmantissa _ htext, hempty]
        simp [Layout.mantissa, Layout.fractionText, hnil]
      | true =>
        have hfound : findRepeat fraction.dropLast = none := hblock
        have htext : f.fractionText fraction true = .ok (spaced (groupsFrom 0 fraction) ++ "\\ldots") := by
          unfold fractionText
          rw [List.isEmpty_eq_false_iff.mpr hnil, hfound, hgrouped, hellipsis]
          rfl
        rw [hmantissa _ htext]
        simp [Layout.mantissa, Layout.fractionText, hnil, String.append_assoc]

theorem le_maxPlaces {p : Nat} (h : p ≤ contextPlaces) : (p : Int) ≤ maxPlaces := by
  have hmaxPlaces : maxPlaces = 999999999999999999 := by decide
  unfold contextPlaces at h
  omega

theorem places_forNumbers {p : Nat} (hp : 0 < p) (hmost : (p : Int) ≤ maxPlaces) (rule product : String) :
    (forNumbers p rule product).places = .ok (p : Int) := by
  have hmax : max 1 (p : Int) = p := max_eq_right (by omega)
  have hbound : twoTo 63 = 9223372036854775808 := by decide
  have hmaxPlaces : maxPlaces = 999999999999999999 := by decide
  show (if (twoTo 63 : Int) ≤ max 1 (p : Int) then _ else _) = _
  rw [hmax, if_neg (by omega)]
  show (if maxPlaces < (p : Int) then _ else _) = _
  rw [if_neg (by omega)]
  rfl

/-- **A magnitude is written as the layout of its rounded digits.** -/
theorem magnitude_layout {p : Nat} (hp : 0 < p) (hmost : (p : Int) ≤ maxPlaces) (rule product : String) (d : Decimal) :
    (forNumbers p rule product).magnitude d =
      .ok ((layoutOf (rounded p d) (shiftOf (.text rule) p (rounded p d).leading)).text product) := by
  have hplaces := places_forNumbers hp hmost rule product
  have hexponent : ∀ mantissa shift, (forNumbers p rule product).withExponent mantissa shift =
      if shift = 0 then mantissa else if mantissa = "1" then Layout.power shift
      else mantissa ++ product ++ Layout.power shift := fun _ _ => rfl
  have hshift : ∀ leading, (layoutOf (rounded p d) leading).shift = leading := fun _ => layoutParts_shift _ _ _ _
  unfold magnitude
  rw [hplaces]
  show ((forNumbers p rule product).mantissaText _ _ _ >>= fun mantissa =>
    pure ((forNumbers p rule product).withExponent mantissa (shiftOf (.text rule) p (rounded p d).leading))) = _
  rw [mantissaText_layout _ _ _ _ _ _ (shiftOf (.text rule) p (rounded p d).leading)]
  show Except.ok ((forNumbers p rule product).withExponent _ _) = _
  rw [hexponent, Layout.text, hshift]
  rfl

/-- A number of at most `contextPlaces` digits is a sign and a magnitude. -/
theorem signed_layout {p : Nat} (hp : 0 < p) (hle : p ≤ contextPlaces) (rule product : String) (negative : Bool)
    {d : Decimal} (hd : decimalLength d.units ≤ contextPlaces) :
    (forNumbers p rule product).signed negative d = .ok ((if negative then "-" else "") ++
      (layoutOf (rounded p d) (shiftOf (.text rule) p (rounded p d).leading)).text product) := by
  unfold signed
  rw [Decimal.round_of_length_le hd, magnitude_layout hp (le_maxPlaces hle)]
  rfl

end Formula.Format
