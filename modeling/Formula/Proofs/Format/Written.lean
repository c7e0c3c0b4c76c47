import Formula.Proofs.Format.Reread

/-!
# Written numbers of any size

Every whole number and every finite floating-point number is written as a sign and the layout of its digits, however large
it is, and the text is read as the number that it shows.  A layout with a power of ten is a product, to the eye and to the
reader, unless its digits are a one; every other layout is read as one operand.
-/

namespace Formula

open Number Text Atom Expr

/-- The value is a whole number or a finite floating-point number. -/
inductive Datum.IsNumeric : Datum → Prop
  | int (n : Int) : IsNumeric (.int n)
  | float (negative : Bool) (m : Nat) (q : Int) : IsNumeric (.float (.finite negative m q))

namespace Format

/-! ### Layouts of numbers -/

/-- A sign and a magnitude of any number of digits are a sign and a layout. -/
theorem signed_sound (negative : Bool) {d : Decimal} (h : 0 < d.units) : ∃ l : Layout, l.Sound ∧
    ({} : Format).signed negative d = .ok ((if negative then "-" else "") ++ l.text "\\cdot ") := by
  obtain ⟨hunits, -⟩ := Decimal.round_units (p := contextPlaces) h (by decide) .even
  have hmagnitude := magnitude_layout (p := 14) (by decide) (by decide) "auto" "\\cdot " (d.round .even contextPlaces)
  have hsound := layoutOf_sound hunits (p := 14) (by decide) (by decide)
    (shiftOf (.text "auto") (14 : Nat) (rounded 14 (d.round .even contextPlaces)).leading)
  refine ⟨_, hsound, ?_⟩
  show ((forNumbers (14 : Nat) "auto" "\\cdot ").magnitude (d.round .even contextPlaces) >>= fun text =>
    pure ((if negative then "-" else "") ++ text)) = _
  rw [hmagnitude]
  rfl

/-- **Every number is written as a sign and a layout.** -/
theorem number_sound {v : Datum} (hv : v.IsNumeric) : ∃ (negative : Bool) (l : Layout), l.Sound ∧
    ({} : Format).number v = .ok ((if negative then "-" else "") ++ l.text "\\cdot ") := by
  have hzero : ({} : Format).signed false ⟨0, 0⟩ = .ok ((if false then "-" else "") ++ zeroLayout.text "\\cdot ") := by
    decide
  cases hv with
  | int n =>
    by_cases hn : n = 0
    · subst hn
      exact ⟨false, zeroLayout, zeroLayout_sound, hzero⟩
    · obtain ⟨l, hl, htext⟩ := signed_sound (decide (n < 0)) (d := ⟨n.natAbs, 0⟩) (Int.natAbs_pos.mpr hn)
      exact ⟨_, l, hl, htext⟩
  | float negative m q =>
    have hdouble : ({} : Format).number (.float (.finite negative m q)) =
        if m = 0 then ({} : Format).signed false ⟨0, 0⟩ else ({} : Format).signed negative (Double.shortest m q) := rfl
    rw [hdouble]
    by_cases hm : m = 0
    · rw [if_pos hm]
      exact ⟨false, zeroLayout, zeroLayout_sound, hzero⟩
    · obtain ⟨hunits, -⟩ := Double.shortest_bounds (Nat.pos_of_ne_zero hm) q
      obtain ⟨l, hl, htext⟩ := signed_sound negative hunits
      rw [if_neg hm]
      exact ⟨_, l, hl, htext⟩

/-- A minus in front is that of the number. -/
theorem Layout.beginsWith_text {l : Layout} (h : l.Sound) (negative : Bool) :
    beginsWith ((if negative then "-" else "") ++ l.text "\\cdot ") "-" = negative := by
  unfold beginsWith
  cases negative with
  | true =>
    rw [if_pos rfl, String.toList_append]
    rfl
  | false =>
    rw [if_neg Bool.false_ne_true, String.empty_append]
    cases hchars : (l.text "\\cdot ").toList with
    | nil => rfl
    | cons d ds =>
      have hd : ('-' == d) = false := beq_eq_false_iff_ne.mpr fun heq => l.text_ne_minus h ds (heq ▸ hchars)
      show ('-' == d && _) = false
      rw [hd, Bool.false_and]

/-! ### The number that is shown -/

namespace Layout

variable {l : Layout}

theorem readTail_eq (hblock : l.block = []) : l.readTail = repeated l.block := by
  have hnil : repeated [] = 0 := by norm_num [repeated]
  rw [readTail_nil hblock, hblock, hnil]

/-- The digits of a block that is written out are the first of those that it repeats. -/
theorem readTail_near (h : l.Sound) : |l.readTail - repeated l.block| ≤ 10 ^ (-20 : Int) := by
  by_cases hblock : l.block = []
  · rw [readTail_eq hblock, sub_self, abs_zero]
    positivity
  · obtain ⟨digits, hdigits⟩ : ∃ digits, blocks l.block (Source.copies l.block) = digits := ⟨_, rfl⟩
    have hfirst : digits <+: l.block ++ digits := by
      refine ⟨l.block, ?_⟩
      rw [← hdigits, blocks, ← List.flatten_concat, ← List.replicate_succ', List.replicate_succ, List.flatten_cons]
    have hlength : 20 ≤ digits.length := hdigits ▸ Source.repeatedDigits_le hblock
    obtain ⟨hlow, hhigh⟩ := repeated_prefix hblock h.block hfirst
    have hpos : (0 : Rat) < 10 ^ digits.length := by positivity
    have hunit : (1 : Rat) / 10 ^ digits.length ≤ 10 ^ (-20 : Int) := by
      rw [zpow_neg, one_div]
      exact inv_anti₀ (by positivity) (by exact_mod_cast pow_le_pow_right₀ (by norm_num : (1 : Rat) ≤ 10) hlength)
    have hdifference : l.readTail - repeated l.block =
        (digitsToNat digits - repeated l.block * 10 ^ digits.length) / 10 ^ digits.length := by
      rw [readTail, hdigits]
      field_simp
    rw [hdifference, abs_div, abs_of_pos hpos]
    exact le_trans (div_le_div_of_nonneg_right (abs_le.mpr ⟨by linarith, by linarith⟩) hpos.le) hunit

/-- **The number that is read of a layout is the one that is shown**, up to what follows behind the digits of a block that
is written out. -/
theorem valueWith_readTail_near (h : l.Sound) : (l.block = [] → l.valueWith l.readTail = l.value) ∧
    |l.valueWith l.readTail - l.value| ≤ 10 ^ (l.shift - 20) := by
  refine ⟨fun hblock => by rw [value, readTail_eq hblock], ?_⟩
  have hdifference : l.valueWith l.readTail - l.value =
      (l.readTail - repeated l.block) / 10 ^ l.fraction.length * 10 ^ l.shift := by
    unfold value valueWith
    ring
  have hpos : (0 : Rat) < 10 ^ l.shift := by positivity
  have hone : (1 : Rat) ≤ 10 ^ l.fraction.length := one_le_pow₀ (by norm_num)
  rw [hdifference, abs_mul, abs_div, abs_of_pos hpos, abs_of_pos (by positivity : (0 : Rat) < 10 ^ l.fraction.length)]
  calc |l.readTail - repeated l.block| / 10 ^ l.fraction.length * 10 ^ l.shift
    _ ≤ 10 ^ (-20 : Int) * 10 ^ l.shift :=
      mul_le_mul_of_nonneg_right (le_trans (div_le_self (abs_nonneg _) hone) (readTail_near h)) hpos.le
    _ = 10 ^ (l.shift - 20) := by
      rw [← zpow_add₀ (by norm_num)]
      congr 1
      ring

end Layout

/-! ### Products -/

namespace Layout

variable {l : Layout}

/-- The layout is the product of its digits and a power of ten. -/
def IsProduct (l : Layout) : Prop := l.shift ≠ 0 ∧ l.mantissa ≠ "1"

theorem text_product (h : l.IsProduct) (sign : String) : l.text sign = l.mantissa ++ sign ++ power l.shift := by
  rw [text, if_neg h.1, if_neg h.2]

theorem readRow_product (h : l.IsProduct) (sign : ProductSign) :
    l.readRow sign = l.readChars.map ofCharacter ++ sign.atom :: powerRow l.shift := by
  rw [readRow, if_neg h.1, if_neg h.2]

/-- **A layout that is no product is read as one operand.** -/
theorem reads_operand (h : l.Sound) (hproduct : ¬l.IsProduct) (sign : ProductSign) :
    ∃ e, IsOperand .builtin (l.readRow sign) e := by
  unfold readRow
  split
  · obtain ⟨e, hoperand, -⟩ := reads_mantissa h
    exact ⟨e, hoperand⟩
  · rename_i hshift
    obtain ⟨e, hoperand, -⟩ := reads_power l.shift
    rw [if_pos (not_not.mp fun hone => hproduct ⟨hshift, hone⟩)]
    exact ⟨e, hoperand⟩

end Layout

/-- The text has the sign of a product. -/
def Multiplied (text : String) : Prop := "\\cdot".toList <:+: text.toList

/-- All characters of the text are digits or among the signs. -/
def IsWrittenIn (signs : List Char) (s : String) : Prop := ∀ d ∈ s.toList, d.isDigit = true ∨ d ∈ signs

instance (signs : List Char) (s : String) : Decidable (IsWrittenIn signs s) :=
  List.decidableBAll (fun d : Char => d.isDigit = true ∨ d ∈ signs) s.toList

section

variable {signs : List Char} {s t : String}

theorem IsWrittenIn.append (h : IsWrittenIn signs s) (h' : IsWrittenIn signs t) : IsWrittenIn signs (s ++ t) := by
  intro d hd
  rw [String.toList_append] at hd
  exact (List.mem_append.mp hd).elim (h d) (h' d)

/-- Any other character stands nowhere in the text. -/
theorem IsWrittenIn.not_mem (h : IsWrittenIn signs s) {d : Char} (hdigit : d.isDigit = false) (hd : d ∉ signs) :
    d ∉ s.toList := by
  intro hmem
  rcases h d hmem with hdigit' | hd'
  · rw [hdigit] at hdigit'
    cases hdigit'
  · exact hd hd'

theorem isWrittenIn_digits {digits : List Char} (h : ∀ d ∈ digits, d.isDigit = true) :
    IsWrittenIn signs (String.ofList digits) := by
  intro d hd
  rw [String.toList_ofList] at hd
  exact .inl (h d hd)

theorem isWrittenIn_spaced (hspace : IsWrittenIn signs thinSpace) : ∀ {groups : List (List Char)},
    (∀ group ∈ groups, ∀ d ∈ group, d.isDigit = true) → IsWrittenIn signs (spaced groups)
  | [], _ => fun _ hd => by cases hd
  | [digits], h => by
    rw [spaced_singleton]
    exact isWrittenIn_digits (h digits List.mem_cons_self)
  | digits :: next :: groups, h => by
    rw [spaced_cons _ (List.cons_ne_nil _ _)]
    exact ((isWrittenIn_digits (h digits List.mem_cons_self)).append hspace).append
      (isWrittenIn_spaced hspace fun g hg => h g (List.mem_cons_of_mem _ hg))

theorem isWrittenIn_if {p : Prop} [Decidable p] (h : IsWrittenIn signs s) (h' : IsWrittenIn signs t) :
    IsWrittenIn signs (if p then s else t) := by
  split
  · exact h
  · exact h'

end

/-- The signs of a minus and of a number without its power of ten. -/
def mantissaSigns : List Char := "-\\, .\\overline\x7b\x7d\\ldots".toList

/-- The signs of a power of ten. -/
def powerSigns : List Char := "^-\x7b\x7d".toList

theorem isWrittenIn_minus (negative : Bool) : IsWrittenIn mantissaSigns (if negative then "-" else "") :=
  isWrittenIn_if (by decide) (by decide)

namespace Layout

variable {l : Layout}

theorem isWrittenIn_mantissa (h : l.Sound) : IsWrittenIn mantissaSigns l.mantissa := by
  have hgroups : ∀ first {digits : List Char}, (∀ d ∈ digits, d.isDigit = true) →
      IsWrittenIn mantissaSigns (spaced (groupsFrom first digits)) :=
    fun first _ hd => isWrittenIn_spaced (by decide) fun _ hg d hmem => hd d (mem_of_mem_groupsFrom hg hmem)
  have hblock : IsWrittenIn mantissaSigns ("\\overline\x7b" ++ String.ofList l.block ++ "\x7d") :=
    (IsWrittenIn.append (by decide) (isWrittenIn_digits h.block)).append (by decide)
  have hfraction : IsWrittenIn mantissaSigns l.fractionText := (hgroups 0 h.fraction).append (isWrittenIn_if (by decide) hblock)
  exact ((hgroups _ h.whole).append (isWrittenIn_if (by decide) (IsWrittenIn.append (by decide) hfraction))).append
    (isWrittenIn_if (by decide) (by decide))

theorem isWrittenIn_power (shift : Int) : IsWrittenIn powerSigns (power shift) := by
  have hdigits : IsWrittenIn powerSigns (String.ofList (Nat.toDigits 10 shift.natAbs)) :=
    isWrittenIn_digits (List.all_eq_true.mp (all_toDigits shift.natAbs))
  exact (IsWrittenIn.append (by decide) (isWrittenIn_if (IsWrittenIn.append (by decide) hdigits) hdigits)).append (by decide)

/-- **The sign of a product stands in the text of a layout if the layout is a product**, and only then. -/
theorem multiplied_iff (h : l.Sound) (negative : Bool) :
    Multiplied ((if negative then "-" else "") ++ l.text "\\cdot ") ↔ l.IsProduct := by
  constructor
  · intro hsign
    have hletter : 'c' ∈ ((if negative then "-" else "") ++ l.text "\\cdot ").toList := hsign.subset (by decide)
    rw [String.toList_append, List.mem_append] at hletter
    have htext := hletter.resolve_left ((isWrittenIn_minus negative).not_mem (by decide) (by decide))
    refine by_contra fun hproduct => ?_
    unfold text at htext
    split at htext
    · exact (isWrittenIn_mantissa h).not_mem (by decide) (by decide) htext
    · rename_i hshift
      rw [if_pos (not_not.mp fun hone => hproduct ⟨hshift, hone⟩)] at htext
      exact (isWrittenIn_power l.shift).not_mem (by decide) (by decide) htext
  · intro hproduct
    refine ⟨(if negative then "-" else "").toList ++ l.mantissa.toList, ' ' :: (power l.shift).toList, ?_⟩
    rw [text_product hproduct, String.toList_append, String.toList_append, String.toList_append]
    simp

/-- The sign of a superscript stands in the text of a layout if there is a power of ten, and only then. -/
theorem caret_mem_iff (h : l.Sound) (negative : Bool) :
    '^' ∈ ((if negative then "-" else "") ++ l.text "\\cdot ").toList ↔ l.shift ≠ 0 := by
  have hminus := (isWrittenIn_minus negative).not_mem (d := '^') (by decide) (by decide)
  have hpower : '^' ∈ (power l.shift).toList := by
    unfold power
    rw [String.toList_append, String.toList_append]
    simp
  rw [String.toList_append, List.mem_append, or_iff_right hminus]
  unfold text
  constructor
  · intro hcaret hshift
    rw [if_pos hshift] at hcaret
    exact (isWrittenIn_mantissa h).not_mem (by decide) (by decide) hcaret
  · intro hshift
    rw [if_neg hshift]
    split
    · exact hpower
    · rw [String.toList_append]
      exact List.mem_append_right _ hpower

end Layout

end Format

/-! ### Numbers that are read again -/

/-- The number is written as a text that shows it, and what is read of the text is the number that is shown; a block that
repeats is written out. -/
structure IsWrittenNumber (v : Datum) (text : String) (shown : Format.Shown) (number : Expr) : Prop where
  written : ({} : Format).number v = .ok text
  shows : Format.readShown text = some shown
  read : ∃ atoms y, Source.atoms .builtin text = .ok atoms ∧ ofAtoms .builtin atoms = .ok number ∧
    IsNumberRow (unspaced atoms) number y ∧ (shown.block = none → y = withMinus shown.negative shown.value) ∧
    |y - withMinus shown.negative shown.value| ≤ 10 ^ (shown.shift - 20)

/-- **What is written as a layout is read again.** -/
theorem Format.Layout.Sound.isWrittenNumber {l : Format.Layout} (h : l.Sound) {v : Datum} {negative : Bool}
    (htext : ({} : Format).number v = .ok ((if negative then "-" else "") ++ l.text "\\cdot ")) : ∃ number,
      IsWrittenNumber v ((if negative then "-" else "") ++ l.text "\\cdot ") (l.shown negative) number := by
  obtain ⟨atoms, number, hatoms, hread, hrow⟩ := Format.Layout.reread h .cdot negative
  obtain ⟨hexact, hnear⟩ := Format.Layout.valueWith_readTail_near h
  refine ⟨number, htext, Format.readShown_text h negative, atoms, _, hatoms, hread, hrow, fun hnone => ?_, ?_⟩
  · have hblock : l.block = [] := by
      by_contra hne
      rw [Format.Layout.shown, if_neg hne] at hnone
      cases hnone
    rw [hexact hblock, l.shown_value]
    rfl
  · rw [l.shown_value, l.shown_shift]
    show |withMinus negative (l.valueWith l.readTail) - withMinus negative l.value| ≤ _
    rwa [← withMinus_sub, abs_withMinus]

end Formula
