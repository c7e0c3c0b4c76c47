import Formula.Proofs.Format.Shown

/-!
# Repeated zeros

The digits that are searched for a block are those behind the point without the last one, which was rounded.  A block that is
found reaches over their second half, and so the digits of the block are those of the second half: it has a digit other than
zero just if the second half has one.  A value whose digits end in zeros there is written as if zeros repeated.
-/

namespace Formula

open Number

/-! ### Periods -/

/-- A digit stands again one period later. -/
theorem getElem?_of_hasPeriod {digits : List Char} {period i : Nat} (h : hasPeriod digits period = true)
    (hi : i + period < digits.length) : digits[i + period]? = digits[i]? := by
  obtain ⟨rest, hrest⟩ := List.isPrefixOf_iff_prefix.mp h
  have hlt : i < (digits.drop period).length := by
    rw [List.length_drop]
    omega
  calc digits[i + period]? = (digits.drop period)[i]? := by rw [List.getElem?_drop, Nat.add_comm]
    _ = (digits.drop period ++ rest)[i]? := (List.getElem?_append_left hlt).symm
    _ = digits[i]? := by rw [hrest]

/-- What holds of the digits in the first period holds of all of them. -/
theorem forall_of_first_period {digits : List Char} {period : Nat} (h : hasPeriod digits period = true) (hpos : 0 < period)
    {P : Char → Prop} (hfirst : ∀ d ∈ digits.take period, P d) : ∀ d ∈ digits, P d := by
  have each : ∀ (i : Nat) (d : Char), digits[i]? = some d → P d := by
    intro i
    induction i using Nat.strongRecOn with
    | ind i ih =>
      intro d hd
      by_cases hi : i < period
      · exact hfirst d (List.mem_iff_getElem?.mpr ⟨i, by rw [List.getElem?_take_of_lt hi]; exact hd⟩)
      · have hlt := (List.getElem?_eq_some_iff.mp hd).1
        have hback := @getElem?_of_hasPeriod digits period (i - period) h (by omega)
        rw [Nat.sub_add_cancel (by omega)] at hback
        exact ih (i - period) (by omega) d (hback ▸ hd)
  intro d hd
  obtain ⟨i, hi⟩ := List.mem_iff_getElem?.mp hd
  exact each i d hi

/-- What holds of the digits in the last period holds of all of them. -/
theorem forall_of_last_period {digits : List Char} {period : Nat} (h : hasPeriod digits period = true) (hpos : 0 < period)
    {P : Char → Prop} (hlast : ∀ d ∈ digits.drop (digits.length - period), P d) : ∀ d ∈ digits, P d := by
  have each : ∀ (k i : Nat) (d : Char), digits.length - i ≤ k → digits[i]? = some d → P d := by
    intro k
    induction k with
    | zero =>
      intro i d hk hd
      have hlt := (List.getElem?_eq_some_iff.mp hd).1
      omega
    | succ k ih =>
      intro i d hk hd
      have hlt := (List.getElem?_eq_some_iff.mp hd).1
      by_cases hi : i + period < digits.length
      · exact ih (i + period) d (by omega) ((getElem?_of_hasPeriod h hi).trans hd)
      · refine hlast d (List.mem_iff_getElem?.mpr ⟨i - (digits.length - period), ?_⟩)
        rw [List.getElem?_drop, Nat.add_sub_cancel' (by omega)]
        exact hd
  intro d hd
  obtain ⟨i, hi⟩ := List.mem_iff_getElem?.mp hd
  exact each _ i d (Nat.le_refl _) hi

/-- The tail that repeats begins in the first half. -/
theorem findRepeat_offset {digits : List Char} {offset period : Nat} (h : findRepeat digits = some (offset, period)) :
    offset ≤ digits.length / 2 := by
  obtain ⟨place, hplace, hfound⟩ := List.exists_of_findSome?_eq_some h
  obtain ⟨found, -, heq⟩ := Option.map_eq_some_iff.mp hfound
  cases heq
  exact Nat.le_of_lt_succ (List.mem_range.mp hplace)

/-- **A block that is found has the digits of the second half.** -/
theorem forall_block_iff {digits : List Char} {offset period : Nat} (h : findRepeat digits = some (offset, period))
    (P : Char → Prop) : (∀ d ∈ (digits.drop offset).take period, P d) ↔ ∀ d ∈ digits.drop (digits.length / 2), P d := by
  obtain ⟨hpos, hlength, hperiod⟩ := findRepeat_spec h
  have hoffset := findRepeat_offset h
  constructor
  · intro hblock d hd
    refine forall_of_first_period hperiod hpos hblock d ?_
    have hdrop : digits.drop (digits.length / 2) = (digits.drop offset).drop (digits.length / 2 - offset) := by
      rw [List.drop_drop, Nat.add_sub_cancel' hoffset]
    exact List.mem_of_mem_drop (hdrop ▸ hd)
  · intro hhalf d hd
    refine forall_of_last_period hperiod hpos (fun d hd => hhalf d ?_) d (List.mem_of_mem_take hd)
    rw [List.drop_drop, List.length_drop] at hd
    have hdrop : digits.drop (offset + (digits.length - offset - period)) =
        (digits.drop (digits.length / 2)).drop (offset + (digits.length - offset - period) - digits.length / 2) := by
      rw [List.drop_drop, Nat.add_sub_cancel' (by omega)]
    exact List.mem_of_mem_drop (hdrop ▸ hd)

/-! ### Numbers -/

/-- The value is a number that is not zero, with its sign and the decimal as which it is written: an integer, a
floating-point number, the truth value of one, or the text of a number or of a ratio that is whole. -/
inductive Datum.HasDecimal : Datum → Bool → Decimal → Prop
  | int {n : Int} (hne : n ≠ 0) : HasDecimal (.int n) (n < 0) ⟨n.natAbs, 0⟩
  | float (negative : Bool) {m : Nat} (hm : 0 < m) (q : Int) :
      HasDecimal (.float (.finite negative m q)) negative (Double.shortest m q)
  | truth : HasDecimal (.bool true) false ⟨1, 0⟩
  | text {s : String} {negative : Bool} {m : Nat} {q : Int} (hslash : (Text.trim s).toList.contains '/' = false)
      (hread : readDouble (Text.trim s) = some (.finite negative m q)) (hm : 0 < m) :
      HasDecimal (.text s) negative (Double.shortest m q)
  | ratio {s : String} {a b : Rat} (hslash : (Text.trim s).toList.contains '/' = true)
      (hnumerator : readRatio (Text.trim (String.ofList ((Text.trim s).toList.takeWhile (· ≠ '/')))) = .ok a)
      (hdenominator : readRatio (Text.trim (String.ofList (((Text.trim s).toList.dropWhile (· ≠ '/')).drop 1))) = .ok b)
      (hb : b.num ≠ 0) (hne : (a / b).num ≠ 0) (hwhole : (a / b).den = 1) :
      HasDecimal (.text s) ((a / b).num < 0) ⟨(a / b).num.natAbs, 0⟩

namespace Format

theorem number_hasDecimal {v : Datum} {negative : Bool} {d : Decimal} (hv : v.HasDecimal negative d) (f : Format) :
    f.number v = f.signed negative d ∧ 0 < d.units := by
  cases hv with
  | int hne => exact ⟨rfl, Int.natAbs_pos.mpr hne⟩
  | @float _ m hm q =>
    refine ⟨?_, (Double.shortest_bounds hm q).1⟩
    show (if m = 0 then _ else _) = _
    rw [if_neg (Nat.pos_iff_ne_zero.mp hm)]
  | truth =>
    have hone : Double.ofInt 1 = .finite false (twoTo 52) (-52) := rfl
    have hshortest : Double.shortest (twoTo 52) (-52) = ⟨1, 0⟩ := by decide +kernel
    refine ⟨?_, by decide⟩
    show f.double (Double.ofInt 1) = _
    rw [hone, ← hshortest]
    rfl
  | @text s negative m q hslash hread hm =>
    refine ⟨?_, (Double.shortest_bounds hm q).1⟩
    show f.numberText (Text.trim s) = _
    unfold numberText
    dsimp only
    rw [hslash, if_neg Bool.false_ne_true, hread]
    show (if m = 0 then _ else _) = _
    rw [if_neg (Nat.pos_iff_ne_zero.mp hm)]
  | @ratio s a b hslash hnumerator hdenominator hb hne hwhole =>
    refine ⟨?_, Int.natAbs_pos.mpr hne⟩
    show f.numberText (Text.trim s) = _
    unfold numberText
    dsimp only
    rw [if_pos hslash, ratioText, hnumerator, hdenominator]
    show (if b.num = 0 then _ else f.ratio (a / b)) = _
    rw [if_neg hb, Format.ratio, if_neg hne, if_pos hwhole]
    rfl

/-- The mark that begins a block. -/
def blockMark : List Char := "\\overline\x7b".toList

theorem unmarked_of_notMem {text : String} (h : 'o' ∉ text.toList) : ¬ blockMark <:+: text.toList :=
  fun hmark => h (hmark.subset (by decide))

theorem digitsOf_unmarked {n : Nat} {digits : String} (h : digitsOf n = .ok digits) : 'o' ∉ digits.toList := by
  rw [digitsOf] at h
  split at h
  · cases h
  · cases h
    rw [intText, if_neg (by omega), String.toList_ofList]
    intro ho
    exact absurd (List.all_eq_true.mp (all_toDigits n) 'o' ho) (by decide)

/-- A ratio that is not whole is a fraction of digits. -/
theorem ratio_unmarked {f : Format} {r : Rat} (h : r.num = 0 ∨ r.den ≠ 1) {text : String} (htext : f.ratio r = .ok text) :
    'o' ∉ text.toList := by
  rw [Format.ratio] at htext
  by_cases hzero : r.num = 0
  · rw [if_pos hzero] at htext
    cases htext
    decide
  · rw [if_neg hzero, if_neg (h.resolve_left hzero)] at htext
    cases hnumerator : digitsOf r.num.natAbs with
    | error fault =>
      rw [hnumerator] at htext
      cases htext
    | ok numerator =>
      cases hdenominator : digitsOf r.den with
      | error fault =>
        rw [hnumerator, hdenominator] at htext
        cases htext
      | ok denominator =>
        rw [hnumerator, hdenominator] at htext
        cases htext
        have hsign : 'o' ∉ (if r.num < 0 then "-" else "").toList := by split <;> decide
        simp only [String.toList_append, List.mem_append, hsign, digitsOf_unmarked hnumerator, digitsOf_unmarked hdenominator,
          or_false, false_or]
        decide

/-- The text of a ratio is written as a decimal, or without a block. -/
theorem ratio_decimal_or_unmarked {s : String} (hslash : (Text.trim s).toList.contains '/' = true) (f : Format) :
    (∃ negative d, (Datum.text s).HasDecimal negative d) ∨
      ∀ text, f.number (.text s) = .ok text → ¬ blockMark <:+: text.toList := by
  have hnumber : f.number (.text s) = f.ratioText (String.ofList ((Text.trim s).toList.takeWhile (· ≠ '/')))
      (String.ofList (((Text.trim s).toList.dropWhile (· ≠ '/')).drop 1)) := if_pos hslash
  rw [hnumber, ratioText]
  split
  · rename_i a b hnumerator hdenominator
    by_cases hb : b.num = 0
    · right
      rw [if_pos hb]
      rintro text ⟨⟩
      exact unmarked_of_notMem (by decide)
    · rw [if_neg hb]
      by_cases hne : (a / b).num = 0
      · exact .inr fun text htext => unmarked_of_notMem (ratio_unmarked (.inl hne) htext)
      by_cases hwhole : (a / b).den = 1
      · exact .inl ⟨_, _, .ratio hslash hnumerator hdenominator hb hne hwhole⟩
      · exact .inr fun text htext => unmarked_of_notMem (ratio_unmarked (.inr hwhole) htext)
  · right
    rintro text ⟨⟩
    exact unmarked_of_notMem (by decide)

/-- Digits that the context has no room for are not there to be cut off. -/
theorem truncated_of_lt {p : Nat} (h : contextPlaces < p) {d : Decimal} (hd : d.units ≤ tenTo contextPlaces) :
    (rounded p d).truncated = false := by
  have hlength : decimalLength d.units ≤ p := by
    have hlt : d.units < tenTo p :=
      Nat.lt_of_le_of_lt hd (Nat.pow_lt_pow_right (by decide) h)
    exact Double.decimalLength_le (by omega) hlt
  have hsame : d.same d = true := beq_self_eq_true _
  unfold rounded
  dsimp only
  rw [Decimal.round_of_length_le hlength, hsame]
  rfl

theorem layoutOf_plain {r : Rounded} (h : r.truncated = false) (shift : Int) : (layoutOf r shift).block = [] := by
  unfold layoutOf
  dsimp only
  rw [h, layoutParts_plain _ rfl]

/-- The block of a layout, among the digits behind the point without the last one. -/
theorem layoutOf_block {p : Nat} (hp : 0 < p) (hle : p ≤ contextPlaces) {d : Decimal} (hunits : 0 < d.units) (shift : Int)
    (hblock : (layoutOf (rounded p d) shift).block ≠ []) :
    ∃ digits last, (∀ c ∈ digits ++ [last], c.isDigit = true) ∧ last ≠ '0' ∧
      ((digitsToNat (layoutOf (rounded p d) shift).whole : Rat) +
        digitsToNat (digits ++ [last]) / 10 ^ (digits.length + 1)) * 10 ^ shift = halfUp p d.toRat ∧
      (layoutOf (rounded p d) shift).fraction ++ (layoutOf (rounded p d) shift).block <+: digits ∧
      ∀ P : Char → Prop, (∀ c ∈ (layoutOf (rounded p d) shift).block, P c) ↔
        ∀ c ∈ digits.drop (digits.length / 2), P c := by
  obtain ⟨⟨whole, fraction⟩, hparts⟩ :
      ∃ parts, splitDigits (rounded p d).digits ((rounded p d).leading - shift + 1) = parts := ⟨_, rfl⟩
  have hlayout : layoutOf (rounded p d) shift = layoutParts whole fraction (rounded p d).truncated shift := by
    rw [layoutOf, hparts]
  rw [hlayout] at hblock ⊢
  cases hfound : blockIn (rounded p d).truncated fraction with
  | none =>
    rw [layoutParts_plain shift hfound] at hblock
    exact absurd rfl hblock
  | some found =>
    obtain ⟨offset, period⟩ := found
    obtain ⟨htruncated, hrepeat, hne⟩ := blockIn_spec hfound
    obtain ⟨init, last, rfl, hlast, -⟩ :=
      rounded_last hunits hp hle shift hparts htruncated (by rintro rfl; simp at hne)
    rw [List.dropLast_concat] at hrepeat
    obtain ⟨hpos, hlength, -⟩ := findRepeat_spec hrepeat
    have htake : (init ++ [last]).take offset = init.take offset := List.take_append_of_le_length (by omega)
    have hdrop : ((init ++ [last]).drop offset).take period = (init.drop offset).take period := by
      rw [List.drop_append_of_le_length (by omega), List.take_append_of_le_length (by rw [List.length_drop]; omega)]
    have hvalue := rounded_split hunits hp hle shift hparts
    rw [List.length_append, List.length_singleton] at hvalue
    rw [layoutParts_block shift hfound, htake, hdrop]
    refine ⟨init, last, rounded_fraction hunits hp hle shift hparts, ?_, hvalue, ?_, fun P => forall_block_iff hrepeat P⟩
    · rintro rfl
      exact hlast rfl
    · dsimp only
      rw [← List.take_add]
      exact List.take_prefix _ _

/-- A number with its sign, in the usual format but for the precision. -/
theorem signed_text {p : Nat} (hp : 1 ≤ p) (hmost : (p : Int) ≤ maxPlaces) (negative : Bool) (d : Decimal) :
    ({ precision := .int p } : Format).signed negative d = .ok ((if negative then "-" else "") ++
      (layoutOf (rounded p (d.round .even contextPlaces))
        (shiftOf (.text "auto") p (rounded p (d.round .even contextPlaces)).leading)).text "\\cdot ") := by
  have hmagnitude := magnitude_layout hp hmost "auto" "\\cdot " (d.round .even contextPlaces)
  rw [signed]
  show (forNumbers p "auto" "\\cdot ").magnitude _ >>= _ = _
  rw [hmagnitude]
  rfl

end Format

end Formula
