import Formula.Proofs.Format.Accuracy
import Formula.Proofs.Number.ShortestLength

/-!
# What a written number shows

`readShown` takes the text of a number apart again: the sign, the digits before and behind the point without the spaces
between them, the digits that repeat, and the power of ten.  It reads back every layout, so what a format writes of a
number can be told from the text alone.  `number_shows` is the main result: which number the text shows, and with which
exponent.
-/

namespace Formula.Format

open Number

/-! ### Reading a written number -/

/-- What a written number shows. -/
structure Shown where
  negative : Bool
  whole : List Char
  fraction : List Char
  /-- The digits under the line. -/
  block : Option (List Char)
  /-- The power of ten, if one is written. -/
  exponent : Option Int
deriving DecidableEq, Repr

namespace Shown

/-- The mantissa. -/
def magnitude (s : Shown) : Rat :=
  digitsToNat s.whole + (digitsToNat s.fraction + repeated (s.block.getD [])) / 10 ^ s.fraction.length

/-- The power of ten, which is zero where none is written. -/
def shift (s : Shown) : Int := s.exponent.getD 0

/-- The number without its sign. -/
def value (s : Shown) : Rat := s.magnitude * 10 ^ s.shift

end Shown

/-- A run of digits, without the small spaces between them, and what is behind it. -/
def digitRun : List Char → List Char × List Char
  | [] => ([], [])
  | '\\' :: ',' :: ' ' :: cs => digitRun cs
  | c :: cs => if c.isDigit then (c :: (digitRun cs).1, (digitRun cs).2) else ([], c :: cs)

/-- The digits behind a point, and what is behind them. -/
def readFraction : List Char → List Char × List Char
  | '.' :: cs => digitRun cs
  | cs => ([], cs)

/-- The digits under a line, and what is behind it. -/
def readBlock (cs : List Char) : Option (List Char) × List Char :=
  match cs.dropPrefix? "\\overline\x7b".toList with
  | some cs => (some (cs.takeWhile Char.isDigit), (cs.dropWhile Char.isDigit).drop 1)
  | none => (none, cs)

/-- What is behind the mark of digits that were cut off. -/
def dropEllipsis (cs : List Char) : List Char := (cs.dropPrefix? "\\ldots".toList).getD cs

/-- The digits of a brace that closes the text. -/
def readDigits (cs : List Char) : Option Nat :=
  if cs.dropWhile Char.isDigit = ['\x7d'] then some (digitsToNat (cs.takeWhile Char.isDigit)) else none

/-- The exponent of a brace that closes the text. -/
def readExponent : List Char → Option Int
  | '-' :: cs => (readDigits cs).map fun n : Nat => -(n : Int)
  | cs => (readDigits cs).map fun n : Nat => (n : Int)

/-- A number without its sign.  A bare power of ten has a one in front. -/
def readMagnitude (negative : Bool) (cs : List Char) : Option Shown :=
  let whole := digitRun cs
  let fraction := readFraction whole.2
  let block := readBlock fraction.2
  match dropEllipsis block.2 with
  | [] => some ⟨negative, whole.1, fraction.1, block.1, none⟩
  | '^' :: '\x7b' :: cs =>
    if whole.1 = ['1', '0'] ∧ fraction.1 = [] ∧ block.1 = none then
      (readExponent cs).map fun e => ⟨negative, ['1'], [], none, some e⟩
    else none
  | cs => do
    let e ← readExponent (← cs.dropPrefix? "\\cdot 10^\x7b".toList)
    return ⟨negative, whole.1, fraction.1, block.1, some e⟩

/-- The text of a number. -/
def readShown (text : String) : Option Shown :=
  match text.toList with
  | '-' :: cs => readMagnitude true cs
  | cs => readMagnitude false cs

/-! ### Layouts are read back -/

theorem digitRun_digit {c : Char} (h : c.isDigit = true) (cs : List Char) :
    digitRun (c :: cs) = (c :: (digitRun cs).1, (digitRun cs).2) := by
  rw [digitRun]
  · rw [if_pos h]
  · rintro cs rfl
    exact absurd h (by decide)

theorem digitRun_digits {digits : List Char} (h : ∀ d ∈ digits, d.isDigit = true) (cs : List Char) :
    digitRun (digits ++ cs) = (digits ++ (digitRun cs).1, (digitRun cs).2) := by
  induction digits with
  | nil => rfl
  | cons d digits ih =>
    rw [List.cons_append, digitRun_digit (h d List.mem_cons_self), ih fun e he => h e (List.mem_cons_of_mem _ he)]
    rfl

/-- Groups of digits are read as their digits. -/
theorem digitRun_spaced : ∀ {groups : List (List Char)}, (∀ group ∈ groups, ∀ d ∈ group, d.isDigit = true) →
    ∀ {cs : List Char}, digitRun cs = ([], cs) → digitRun ((spaced groups).toList ++ cs) = (groups.flatten, cs)
  | [], _, cs, hstop => hstop
  | [group], h, cs, hstop => by
    rw [spaced_singleton, String.toList_ofList, digitRun_digits (h group List.mem_cons_self), hstop, List.flatten_singleton,
      List.append_nil]
  | group :: next :: groups, h, cs, hstop => by
    have hrest := digitRun_spaced (fun g hg => h g (List.mem_cons_of_mem _ hg)) hstop
    rw [toList_spaced_cons _ (List.cons_ne_nil _ _), List.append_assoc, digitRun_digits (h group List.mem_cons_self)]
    show (group ++ (digitRun ((spaced (next :: groups)).toList ++ cs)).1, (digitRun ((spaced (next :: groups)).toList ++ cs)).2) = _
    rw [hrest]
    rfl

theorem digitRun_groups (first : Nat) {digits : List Char} (h : ∀ d ∈ digits, d.isDigit = true) {cs : List Char}
    (hstop : digitRun cs = ([], cs)) : digitRun ((spaced (groupsFrom first digits)).toList ++ cs) = (digits, cs) := by
  rw [digitRun_spaced (fun _ hg d hd => h d (mem_of_mem_groupsFrom hg hd)) hstop, flatten_groupsFrom]

theorem readDigits_toDigits (n : Nat) : readDigits (Nat.toDigits 10 n ++ ['\x7d']) = some n := by
  have htake := @takeWhile_digits _ ['\x7d'] (all_toDigits n) (by rintro c ⟨⟩; rfl)
  have hdrop := @dropWhile_digits _ ['\x7d'] (all_toDigits n) (by rintro c ⟨⟩; rfl)
  rw [readDigits, hdrop, if_pos rfl, htake, digitsToNat_toDigits]

theorem readExponent_intText (n : Int) : readExponent ((intText n).toList ++ ['\x7d']) = some n := by
  unfold intText
  by_cases hneg : n < 0
  · rw [if_pos hneg, String.toList_append, String.toList_ofList, String.toList_ofList]
    show readExponent ('-' :: (Nat.toDigits 10 n.natAbs ++ ['\x7d'])) = _
    rw [readExponent, readDigits_toDigits, Option.map_some]
    congr 1
    omega
  · rw [if_neg hneg, String.toList_ofList]
    have hhead : ∀ cs, Nat.toDigits 10 n.natAbs ++ ['\x7d'] = '-' :: cs → False := by
      intro cs hcs
      obtain ⟨d, ds, hdigits⟩ := List.exists_cons_of_ne_nil (Nat.toDigits_ne_nil (n := n.natAbs) (b := 10))
      have hd := List.all_eq_true.mp (all_toDigits n.natAbs) d (hdigits ▸ List.mem_cons_self)
      rw [hdigits] at hcs
      cases hcs
      exact absurd hd (by decide)
    rw [readExponent, readDigits_toDigits, Option.map_some]
    · congr 1
      omega
    · exact hhead

/-- Behind the mantissa stands nothing or the sign of a product. -/
def Ends (cs : List Char) : Prop := cs = [] ∨ ∃ rest, cs = "\\cdot ".toList ++ rest

/-- Behind the digits of a mantissa. -/
theorem read_end {cs : List Char} (hcs : Ends cs) (cut : Bool) :
    ∃ behind, (if cut then "\\ldots" else "").toList ++ cs = behind ∧ digitRun behind = ([], behind) ∧
      readFraction behind = ([], behind) ∧ readBlock behind = (none, behind) ∧ dropEllipsis behind = cs := by
  refine ⟨_, rfl, ?_⟩
  rcases hcs with rfl | ⟨rest, rfl⟩
  · cases cut <;> exact ⟨rfl, rfl, rfl, rfl⟩
  · cases cut <;> exact ⟨rfl, rfl, rfl, rfl⟩

/-- What the reader has in front of it while it reads the mantissa of a layout. -/
theorem read_mantissa {l : Layout} (h : l.Sound) {cs : List Char} (hcs : Ends cs) :
    ∃ behind more, digitRun (l.mantissa.toList ++ cs) = (l.whole, behind) ∧ readFraction behind = (l.fraction, more) ∧
      (readBlock more).1 = (if l.block = [] then none else some l.block) ∧ dropEllipsis (readBlock more).2 = cs := by
  obtain ⟨last, hlast, hstop, hfraction, hblock, hellipsis⟩ := read_end hcs l.cut
  unfold Layout.mantissa
  rw [String.toList_append, List.append_assoc, hlast, String.toList_append, List.append_assoc]
  by_cases hplain : l.fraction = [] ∧ l.block = []
  · refine ⟨last, last, ?_, ?_, ?_, ?_⟩
    · rw [if_pos hplain]
      exact digitRun_groups _ h.whole hstop
    · rw [hfraction, hplain.1]
    · rw [hblock, if_pos hplain.2]
    · rw [hblock, hellipsis]
  · -- The line over a block stops a run of digits, as what is behind the mantissa does.
    obtain ⟨line, hline, hlinestop, hlineblock, hlinebehind⟩ : ∃ line,
        (if l.block = [] then "" else "\\overline\x7b" ++ String.ofList l.block ++ "\x7d").toList ++ last = line ∧
          digitRun line = ([], line) ∧ (readBlock line).1 = (if l.block = [] then none else some l.block) ∧
            (readBlock line).2 = last := by
      refine ⟨_, rfl, ?_⟩
      by_cases hnil : l.block = []
      · rw [if_pos hnil, if_pos hnil]
        show digitRun last = ([], last) ∧ (readBlock last).1 = none ∧ (readBlock last).2 = last
        rw [hblock]
        exact ⟨hstop, rfl, rfl⟩
      · have hall := List.all_eq_true.mpr h.block
        have htake := @takeWhile_digits _ ('\x7d' :: last) hall (by rintro c ⟨⟩; rfl)
        have hdrop := @dropWhile_digits _ ('\x7d' :: last) hall (by rintro c ⟨⟩; rfl)
        have hchars : ("\\overline\x7b" ++ String.ofList l.block ++ "\x7d").toList ++ last =
            "\\overline\x7b".toList ++ (l.block ++ '\x7d' :: last) := by
          rw [String.toList_append, String.toList_append, @String.toList_ofList l.block, List.append_assoc, List.append_assoc]
          rfl
        have hread : readBlock ("\\overline\x7b".toList ++ (l.block ++ '\x7d' :: last)) = (some l.block, last) := by
          rw [readBlock, List.dropPrefix?_eq_some_iff.mpr ⟨_, rfl, beq_self_eq_true _⟩]
          dsimp only
          rw [htake, hdrop]
          rfl
        rw [if_neg hnil, if_neg hnil, hchars, hread]
        exact ⟨rfl, rfl, rfl⟩
    have hpoint : ("." ++ l.fractionText).toList ++ last = '.' :: (l.fractionText.toList ++ last) := by
      rw [String.toList_append]
      rfl
    refine ⟨'.' :: (l.fractionText.toList ++ last), line, ?_, ?_, hlineblock, hlinebehind ▸ hellipsis⟩
    · rw [if_neg hplain, hpoint]
      exact digitRun_groups _ h.whole rfl
    · unfold readFraction Layout.fractionText
      rw [String.toList_append, List.append_assoc, hline]
      exact digitRun_groups _ h.fraction hlinestop

/-- What a layout shows. -/
def Layout.shown (l : Layout) (negative : Bool) : Shown where
  negative := negative
  whole := l.whole
  fraction := l.fraction
  block := if l.block = [] then none else some l.block
  exponent := if l.shift = 0 then none else some l.shift

theorem Layout.shown_shift (l : Layout) (negative : Bool) : (l.shown negative).shift = l.shift := by
  show (if l.shift = 0 then none else some l.shift).getD 0 = l.shift
  by_cases h : l.shift = 0
  · rw [if_pos h, h]
    rfl
  · rw [if_neg h]
    rfl

theorem Layout.shown_value (l : Layout) (negative : Bool) : (l.shown negative).value = l.value := by
  have hblock : (l.shown negative).block.getD [] = l.block := by
    show (if l.block = [] then none else some l.block).getD [] = l.block
    by_cases h : l.block = []
    · rw [if_pos h, h]
      rfl
    · rw [if_neg h]
      rfl
  rw [Shown.value, Shown.magnitude, hblock, Layout.shown_shift]
  rfl

/-- A mantissa that is written as a one has no other digits. -/
theorem Layout.eq_one {l : Layout} (h : l.Sound) (hone : l.mantissa = "1") :
    l.whole = ['1'] ∧ l.fraction = [] ∧ l.block = [] := by
  obtain ⟨behind, more, hwhole, hfraction, hblock, -⟩ := read_mantissa h (.inl rfl)
  have hread : digitRun ("1".toList ++ []) = (['1'], []) := rfl
  rw [hone, hread] at hwhole
  obtain ⟨hone, rfl⟩ := Prod.mk.inj hwhole
  obtain ⟨hnone, rfl⟩ := Prod.mk.inj hfraction
  refine ⟨hone.symm, hnone.symm, ?_⟩
  by_contra hne
  rw [if_neg hne] at hblock
  cases hblock

/-- **A layout is read back as what it shows.** -/
theorem readMagnitude_text {l : Layout} (h : l.Sound) (negative : Bool) :
    readMagnitude negative (l.text "\\cdot ").toList = some (l.shown negative) := by
  unfold Layout.text
  by_cases hzero : l.shift = 0
  · obtain ⟨behind, more, hwhole, hfraction, hblock, hend⟩ := read_mantissa h (.inl rfl)
    rw [List.append_nil] at hwhole
    unfold readMagnitude Layout.shown
    dsimp only
    rw [if_pos hzero, hwhole, hfraction]
    dsimp only
    rw [hend, hblock, if_pos hzero]
  rw [if_neg hzero]
  by_cases hone : l.mantissa = "1"
  · obtain ⟨hwhole, hfraction, hblock⟩ := Layout.eq_one h hone
    have hchars : (Layout.power l.shift).toList = '1' :: '0' :: '^' :: '\x7b' :: ((intText l.shift).toList ++ ['\x7d']) := by
      rw [Layout.power, String.toList_append, String.toList_append, List.append_assoc]
      rfl
    have hread : readMagnitude negative ('1' :: '0' :: '^' :: '\x7b' :: ((intText l.shift).toList ++ ['\x7d'])) =
        (readExponent ((intText l.shift).toList ++ ['\x7d'])).map fun e => ⟨negative, ['1'], [], none, some e⟩ := rfl
    rw [if_pos hone, hchars, hread, readExponent_intText, Layout.shown, hwhole, hfraction, if_pos hblock, if_neg hzero]
    rfl
  · obtain ⟨behind, more, hwhole, hfraction, hblock, hend⟩ :=
      @read_mantissa l h ("\\cdot 10^\x7b".toList ++ ((intText l.shift).toList ++ ['\x7d'])) (.inr ⟨_, rfl⟩)
    have hchars : (l.mantissa ++ "\\cdot " ++ Layout.power l.shift).toList =
        l.mantissa.toList ++ ("\\cdot 10^\x7b".toList ++ ((intText l.shift).toList ++ ['\x7d'])) := by
      rw [String.toList_append, String.toList_append, List.append_assoc, Layout.power, String.toList_append,
        String.toList_append, List.append_assoc]
      rfl
    rw [if_neg hone, hchars]
    unfold readMagnitude
    dsimp only
    rw [hwhole, hfraction]
    dsimp only
    rw [hend, hblock]
    show ((("\\cdot 10^\x7b".toList ++ ((intText l.shift).toList ++ ['\x7d'])).dropPrefix? "\\cdot 10^\x7b".toList).bind
      fun cs => (readExponent cs).bind fun e => some _) = _
    rw [List.dropPrefix?_eq_some_iff.mpr ⟨_, rfl, beq_self_eq_true _⟩, Option.bind_some, readExponent_intText,
      Option.bind_some, Layout.shown, if_neg hzero]

/-- No layout begins with a minus. -/
theorem Layout.text_ne_minus {l : Layout} (h : l.Sound) (cs : List Char) : (l.text "\\cdot ").toList ≠ '-' :: cs := by
  have hmantissa : ∀ behind, l.mantissa.toList ++ behind ≠ '-' :: cs := by
    intro behind hminus
    obtain ⟨more, -, hwhole, -⟩ := read_mantissa h (.inl rfl)
    rw [List.append_nil] at hwhole
    cases hchars : l.mantissa.toList with
    | nil =>
      rw [hchars] at hwhole
      exact h.whole_ne (Prod.mk.inj hwhole).1.symm
    | cons c rest =>
      rw [hchars] at hwhole hminus
      obtain ⟨rfl, -⟩ := List.cons.inj hminus
      exact h.whole_ne (Prod.mk.inj hwhole).1.symm
  unfold Layout.text
  split
  · exact List.append_nil l.mantissa.toList ▸ hmantissa []
  · split
    · rw [Layout.power, String.toList_append, String.toList_append]
      exact fun h => absurd (List.cons.inj h).1 (by decide)
    · rw [String.toList_append, String.toList_append, List.append_assoc]
      exact hmantissa _

theorem readShown_plain {text : String} (h : ∀ cs, text.toList ≠ '-' :: cs) :
    readShown text = readMagnitude false text.toList := by
  unfold readShown
  split
  · rename_i cs hcs
    exact absurd hcs (h cs)
  · rfl

/-- With its sign a layout is read back too. -/
theorem readShown_text {l : Layout} (h : l.Sound) (negative : Bool) :
    readShown ((if negative then "-" else "") ++ l.text "\\cdot ") = some (l.shown negative) := by
  cases negative with
  | true =>
    unfold readShown
    rw [if_pos rfl, String.toList_append]
    exact readMagnitude_text h true
  | false =>
    rw [if_neg Bool.false_ne_true, String.empty_append, readShown_plain (Layout.text_ne_minus h)]
    exact readMagnitude_text h false

/-! ### Exponents -/

/-- When a number is written with a power of ten. -/
inductive ExponentRule where
  | auto
  | on
  | engineering
deriving DecidableEq, Repr

namespace ExponentRule

/-- The name of the rule. -/
def name : ExponentRule → String
  | auto => "auto"
  | on => "on"
  | engineering => "engineering"

/-- The exponent that the rule asks for, of a number that was rounded to `p` digits. -/
def Fits (p : Nat) (r : Rat) (exponent : Option Int) : ExponentRule → Prop
  | auto => (exponent = none ↔ -7 < Int.log 10 r ∧ Int.log 10 r < p) ∧ ∀ e, exponent = some e → e = Int.log 10 r
  | on => exponent.getD 0 = Int.log 10 r ∧ 1 ≤ r / 10 ^ exponent.getD 0 ∧ r / 10 ^ exponent.getD 0 < 10
  | engineering => 3 ∣ exponent.getD 0 ∧ 1 ≤ r / 10 ^ exponent.getD 0 ∧ r / 10 ^ exponent.getD 0 < 1000

/-- The power of ten that is taken out is the one that the rule asks for. -/
theorem fits_shiftOf (rule : ExponentRule) {p : Nat} (hp : 0 < p) {r : Rat} (h : 0 < r) (negative : Bool) {l : Layout}
    (hshift : l.shift = shiftOf (.text rule.name) p (Int.log 10 r)) : rule.Fits p r (l.shown negative).exponent := by
  obtain ⟨hlow, hhigh⟩ := log_bounds h
  obtain ⟨k, hk⟩ : ∃ k, Int.log 10 r = k := ⟨_, rfl⟩
  have hscaled : ∀ {e : Int} {n : Nat}, e ≤ k → k + 1 ≤ e + n → 1 ≤ r / 10 ^ e ∧ r / 10 ^ e < 10 ^ n := by
    intro e n hle hlt
    have hpos : (0 : Rat) < 10 ^ e := by positivity
    rw [hk] at hlow hhigh
    rw [le_div_iff₀ hpos, one_mul, div_lt_iff₀ hpos, ← zpow_natCast, ← zpow_add₀ (by norm_num)]
    exact ⟨le_trans (zpow_le_zpow_right₀ (by norm_num) hle) hlow,
      lt_of_lt_of_le hhigh (zpow_le_zpow_right₀ (by norm_num) (by omega))⟩
  have hexponent : (l.shown negative).exponent = if l.shift = 0 then none else some l.shift := rfl
  have hgetD : (l.shown negative).exponent.getD 0 = l.shift := l.shown_shift negative
  rw [hk] at hshift
  cases rule with
  | auto =>
    have hauto : shiftOf (.text ExponentRule.auto.name) p k = if leastPlainExponent ≤ k ∧ k < p then 0 else k := rfl
    rw [hauto] at hshift
    unfold leastPlainExponent at hshift
    unfold Fits
    rw [hk, hexponent]
    split at hshift
    · rename_i hplain
      rw [if_pos hshift]
      exact ⟨⟨fun _ => ⟨by omega, hplain.2⟩, fun _ => rfl⟩, fun e he => by cases he⟩
    · rename_i hplain
      -- A number between one and ten is plain, however small the precision.
      have hzero : l.shift ≠ 0 := fun hzero => hplain (by omega)
      rw [if_neg hzero]
      exact ⟨⟨fun hnone => absurd hnone (Option.some_ne_none _), fun hrange => absurd ⟨by omega, hrange.2⟩ hplain⟩,
        fun e he => (Option.some.inj he).symm.trans hshift⟩
  | on =>
    have hon : shiftOf (.text ExponentRule.on.name) p k = k := rfl
    rw [hon] at hshift
    unfold Fits
    rw [hgetD, hk, hshift]
    exact ⟨rfl, by simpa using hscaled (e := k) (n := 1) (by omega) (by omega)⟩
  | engineering =>
    have hengineering : shiftOf (.text ExponentRule.engineering.name) p k = k - k.emod 3 := rfl
    rw [hengineering] at hshift
    have hmod : k.emod 3 = k % 3 := rfl
    unfold Fits
    rw [hgetD, hshift, hmod]
    have hbounds := hscaled (e := k - k % 3) (n := 3) (by omega) (by omega)
    refine ⟨by omega, hbounds.1, ?_⟩
    have := hbounds.2
    norm_num at this ⊢
    exact this

end ExponentRule

/-! ### Numbers -/

end Format

open Number

/-- The value is a number that is not zero, with its sign and its magnitude: an integer of at most `contextPlaces` digits, or
a floating-point number, which is taken as the shortest decimal that reads back. -/
inductive Datum.IsNumber : Datum → Bool → Rat → Prop
  | int {n : Int} (hne : n ≠ 0) (hlt : n.natAbs < tenTo Format.contextPlaces) : IsNumber (.int n) (n < 0) n.natAbs
  | float (negative : Bool) {m : Nat} (hm : 0 < m) (q : Int) :
      IsNumber (.float (.finite negative m q)) negative (Double.shortest m q).toRat

namespace Format

/-- A number is written as the layout of its rounded digits. -/
theorem number_layout {v : Datum} {negative : Bool} {x : Rat} (hv : v.IsNumber negative x) {p : Nat} (hp : 0 < p)
    (hle : p ≤ contextPlaces) (rule product : String) : ∃ d : Decimal, 0 < d.units ∧ d.toRat = x ∧
      (forNumbers p rule product).number v = .ok ((if negative then "-" else "") ++
        (layoutOf (rounded p d) (shiftOf (.text rule) p (rounded p d).leading)).text product) := by
  cases hv with
  | @int n hne hlt =>
    refine ⟨⟨n.natAbs, 0⟩, Int.natAbs_pos.mpr hne, ?_, ?_⟩
    · rw [Decimal.toRat_eq, zpow_zero, mul_one]
    · exact signed_layout hp hle rule product _ (Double.decimalLength_le (by decide) hlt)
  | @float _ m hm q =>
    obtain ⟨hunits, hlength⟩ := Double.shortest_bounds hm q
    refine ⟨Double.shortest m q, hunits, rfl, ?_⟩
    show (if m = 0 then _ else _) = _
    rw [if_neg (Nat.pos_iff_ne_zero.mp hm)]
    exact signed_layout hp hle rule product _ (Nat.le_trans hlength (by decide))

/-- **What is written of a number shows it.**  The text can be read back, with the sign of the number.  Without a block of
digits that repeat it shows the number rounded half up to `p` digits; with one it shows a number that is less than ten units
of the last place off.  The exponent follows the rule, and the digits before the point are those of the rounded number. -/
theorem number_shows {v : Datum} {negative : Bool} {x : Rat} (hv : v.IsNumber negative x) {p : Nat} (hp : 1 ≤ p)
    (hle : p ≤ contextPlaces) (rule : ExponentRule) :
    ∃ text shown, (forNumbers p rule.name "\\cdot ").number v = .ok text ∧ readShown text = some shown ∧
      shown.negative = negative ∧
      (shown.block = none → shown.value = halfUp p x) ∧
      (∀ block, shown.block = some block → |shown.value - x| < 10 ^ (2 - p : Int) * x) ∧
      rule.Fits p (halfUp p x) shown.exponent ∧
      (digitsToNat shown.whole : Int) = ⌊halfUp p x / 10 ^ shown.shift⌋ := by
  obtain ⟨d, hunits, rfl, htext⟩ := number_layout hv hp hle rule.name "\\cdot "
  obtain ⟨shift, hshift⟩ : ∃ shift, shiftOf (.text rule.name) p (rounded p d).leading = shift := ⟨_, rfl⟩
  have hsound := layoutOf_sound hunits hp hle shift
  rw [hshift] at htext
  refine ⟨_, (layoutOf (rounded p d) shift).shown negative, htext, readShown_text hsound negative, rfl, ?_, ?_, ?_, ?_⟩
  · intro hnone
    have hblock : (layoutOf (rounded p d) shift).block = [] := by
      by_contra hne
      rw [Layout.shown, if_neg hne] at hnone
      cases hnone
    have hnil : repeated [] = 0 := by norm_num [repeated]
    rw [Layout.shown_value, Layout.value, hblock, hnil, layoutOf_value hunits hp hle shift hblock]
  · intro block hsome
    have hblock : (layoutOf (rounded p d) shift).block ≠ [] := by
      intro hnil
      rw [Layout.shown, if_pos hnil] at hsome
      cases hsome
    rw [Layout.shown_value]
    exact layoutOf_near hunits hp hle shift hblock (repeated_bounds hblock hsound.block).1
      (goesOn_repeated hblock hsound.block _)
  · refine rule.fits_shiftOf hp (halfUp_pos hp (Decimal.toRat_pos hunits)) negative ?_
    rw [← rounded_leading hunits hp hle, hshift]
    exact layoutParts_shift _ _ _ _
  · rw [Layout.shown_shift]
    show _ = ⌊_ / 10 ^ (layoutParts _ _ _ shift).shift⌋
    rw [layoutParts_shift]
    exact layoutOf_whole hunits hp hle shift

/-- An integer of which a digit is rounded: the half goes up, and the exponent is a multiple of three. -/
theorem number_shows_half : Datum.IsNumber (.int (-1250)) true 1250 ∧ 1 ≤ 2 ∧ 2 ≤ contextPlaces ∧
    ∃ text shown, (forNumbers 2 "engineering" "\\cdot ").number (.int (-1250)) = .ok text ∧ readShown text = some shown ∧
      shown.negative = true ∧
      (shown.block = none → shown.value = halfUp 2 1250) ∧
      (∀ block, shown.block = some block → |shown.value - 1250| < 10 ^ (2 - (2 : Nat) : Int) * 1250) ∧
      ExponentRule.engineering.Fits 2 (halfUp 2 1250) shown.exponent ∧
      (digitsToNat shown.whole : Int) = ⌊halfUp 2 1250 / 10 ^ shown.shift⌋ :=
  have hnumber : Datum.IsNumber (.int (-1250)) true 1250 := .int (by decide) (by decide)
  ⟨hnumber, by decide, by decide, number_shows hnumber (by decide) (by decide) .engineering⟩

example : readShown "-1.3\\cdot 10^\x7b3\x7d" = some ⟨true, ['1'], ['3'], none, some 3⟩ := rfl

end Formula.Format
