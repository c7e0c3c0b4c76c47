import Formula.Expr.Latex
import Formula.Proofs.Catalog.Characters
import Formula.Proofs.Number.WholeDouble

/-!
# Whole numbers in full

A whole number with no more digits than a format has places is written in full: a minus in front if it is negative, and
its digits.  In the usual format these come in groups of three with a small space between them; in a source they are read
one by one, with an atom of space between two groups.
-/

namespace Formula

open Number Text Atom

namespace Format

/-! ### Groups of digits -/

theorem flatten_threes : ∀ (n : Nat) (digits : List Char), digits.length ≤ 3 * n →
    ((List.range n).map fun i => (digits.drop (3 * i)).take 3).flatten = digits
  | 0, digits, h => (List.length_eq_zero_iff.mp (Nat.le_zero.mp h)).symm
  | n + 1, digits, h => by
    have hrest := flatten_threes n (digits.drop 3) (by rw [List.length_drop]; omega)
    have hshift : ∀ i, digits.drop (3 * (i + 1)) = (digits.drop 3).drop (3 * i) := by
      intro i
      rw [List.drop_drop, Nat.mul_succ, Nat.add_comm]
    rw [List.range_succ_eq_map, List.map_cons, List.flatten_cons, List.map_map]
    simp only [Function.comp_def, Nat.succ_eq_add_one, hshift, hrest, Nat.mul_zero, List.drop_zero, List.take_append_drop]

/-- The digits in groups of three, of which the first has `first` digits. -/
def groupsFrom (first : Nat) (digits : List Char) : List (List Char) :=
  if digits.length ≤ 3 then [digits] else groupsOf first digits

theorem flatten_groupsFrom (first : Nat) (digits : List Char) : (groupsFrom first digits).flatten = digits := by
  unfold groupsFrom
  split
  · rw [List.flatten_singleton]
  · have hthrees := flatten_threes (((digits.drop first).length + 2) / 3) (digits.drop first) (by omega)
    unfold groupsOf
    dsimp only
    split
    · rename_i hfirst
      rw [hthrees, hfirst, List.drop_zero]
    · rw [List.flatten_cons, hthrees, List.take_append_drop]

theorem groupsFrom_ne_nil (first : Nat) {digits : List Char} (hne : digits ≠ []) :
    ∀ group ∈ groupsFrom first digits, group ≠ [] := by
  have threes : ∀ (ds : List Char), ∀ group ∈ (List.range ((ds.length + 2) / 3)).map fun i => (ds.drop (3 * i)).take 3,
      group ≠ [] := by
    intro ds group hg
    obtain ⟨i, hi, rfl⟩ := List.mem_map.mp hg
    have := List.mem_range.mp hi
    apply List.ne_nil_of_length_pos
    rw [List.length_take, List.length_drop]
    omega
  unfold groupsFrom
  split
  · intro group hg
    rw [List.mem_singleton.mp hg]
    exact hne
  · unfold groupsOf
    dsimp only
    split
    · exact threes _
    · rename_i hfirst
      intro group hg
      rcases List.mem_cons.mp hg with rfl | hg
      · apply List.ne_nil_of_length_pos
        rw [List.length_take]
        have := List.length_pos_iff.mpr hne
        omega
      · exact threes _ group hg

theorem mem_of_mem_groupsFrom {first : Nat} {digits group : List Char} (hg : group ∈ groupsFrom first digits) {d : Char}
    (hd : d ∈ group) : d ∈ digits := by
  rw [← flatten_groupsFrom first digits]
  exact List.mem_flatten.mpr ⟨group, hg, hd⟩

/-- The digits in groups of three, the last of them full. -/
def digitGroups (digits : List Char) : List (List Char) := groupsFrom (digits.length % 3) digits

/-- The space between two groups of digits. -/
def thinSpace : String := "\\, "

/-- Groups of digits with small spaces between them. -/
def spaced (groups : List (List Char)) : String := thinSpace.intercalate (groups.map String.ofList)

theorem spaced_singleton (group : List Char) : spaced [group] = String.ofList group := String.intercalate_singleton

theorem spaced_cons (group : List Char) {groups : List (List Char)} (hne : groups ≠ []) :
    spaced (group :: groups) = String.ofList group ++ thinSpace ++ spaced groups := by
  have hmap : groups.map String.ofList ≠ [] := fun h => hne (List.map_eq_nil_iff.mp h)
  exact String.intercalate_cons_of_ne_nil hmap

/-- A whole number, with a space between groups of three digits. -/
def wholeText (n : Nat) : String := spaced (digitGroups (Nat.toDigits 10 n))

theorem grouped_eq (first : Nat) (digits : List Char) :
    grouped (.text thinSpace) first digits = .ok (spaced (groupsFrom first digits)) := by
  unfold grouped groupsFrom spaced
  have hvoid : (Datum.text thinSpace).isVoid = false := rfl
  rw [hvoid, Bool.false_or]
  by_cases hshort : digits.length ≤ 3
  · rw [if_pos hshort, decide_eq_true hshort, if_pos rfl, List.map_singleton, String.intercalate_singleton]
  · rw [if_neg hshort, decide_eq_false hshort, if_neg Bool.false_ne_true]

theorem groupedWhole_eq (digits : List Char) :
    groupedWhole (.text thinSpace) digits = .ok (spaced (digitGroups digits)) := grouped_eq _ digits

/-! ### Magnitudes -/

/-- The format writes whole numbers of up to `places` digits in full. -/
structure WritesInFull (f : Format) (places : Nat) : Prop where
  places_eq : f.places = .ok places
  pos : 0 < places
  le : places ≤ 14
  rule : f.scientificNotation = .text "auto"

theorem writesInFull : WritesInFull {} 14 := ⟨rfl, by decide, by decide, rfl⟩

theorem rounded_whole {places : Nat} (hpos : 0 < places) (hle : places ≤ 14) {d : Decimal} {n : Nat} (h : d.IsWhole n)
    (hlt : n < tenTo places) : rounded places d =
      ⟨d.normalize.digitChars, d.normalize.digitChars.length - 1 + d.normalize.exponent, false⟩ := by
  obtain ⟨k, -, hn⟩ := h
  have hunits : d.units ≤ n := hn ▸ Nat.le_mul_of_pos_right _ (tenTo_pos k)
  have hlength : decimalLength d.units ≤ places := Double.decimalLength_le hpos (Nat.lt_of_le_of_lt hunits hlt)
  have hcontext : places ≤ contextPlaces := Nat.le_trans hle (by decide)
  have hsame : d.same d = true := beq_self_eq_true _
  unfold rounded
  dsimp only
  rw [Decimal.round_of_length_le hlength, Decimal.round_of_length_le (Nat.le_trans hlength hcontext), hsame]
  rfl

/-- With all of its digits in front of the point a number has no fraction. -/
theorem mantissaText_whole (f : Format) (digits : List Char) :
    f.mantissaText digits [] false = groupedWhole f.groupSeparator digits := by
  have hfraction : f.fractionText [] false = .ok "" := by
    show grouped f.groupSeparator 0 [] = _
    unfold grouped
    rw [if_pos (by simp)]
  unfold mantissaText
  rw [hfraction]
  exact bind_pure _

theorem splitDigits_whole (digits : List Char) (k : Nat) (hne : digits ≠ []) :
    splitDigits digits ((digits.length : Int) + k) = (digits ++ List.replicate k '0', []) := by
  have hpos := List.length_pos_iff.mpr hne
  have hzeros : ((digits.length : Int) + k).toNat - digits.length = k := by omega
  unfold splitDigits
  rw [if_neg (by omega), if_pos (by omega), hzeros]
  rfl

/-- **A whole number that is not rounded and not too long is written in full.** -/
theorem magnitude_of_rounded {f : Format} {places n : Nat} {text : String} (hplaces : f.places = .ok (places : Int))
    (hrule : f.scientificNotation = .text "auto") {d : Decimal} (h : d.IsWhole n) (hlong : decimalLength n ≤ places)
    (hrounded : rounded places d =
      ⟨d.normalize.digitChars, d.normalize.digitChars.length - 1 + d.normalize.exponent, false⟩)
    (htext : groupedWhole f.groupSeparator (Nat.toDigits 10 n) = .ok text) : f.magnitude d = .ok text := by
  obtain ⟨⟨k, hk, hn⟩, hzero⟩ := h.normalize
  have hdigits : d.normalize.digitChars ++ List.replicate k '0' = Nat.toDigits 10 n := by
    by_cases hu : d.normalize.units = 0
    · have hnormal := hzero hu
      have hk' : k = 0 := by
        have : d.normalize.exponent = 0 := by rw [hnormal]
        omega
      rw [hk', hu, Nat.zero_mul] at hn
      rw [hk', List.replicate_zero, List.append_nil, ← hn, Decimal.digitChars, hu]
    · rw [← hn, toDigits_mul_tenTo (Nat.pos_of_ne_zero hu)]
      rfl
  have hne : d.normalize.digitChars ≠ [] := Nat.toDigits_ne_nil
  have hpos := List.length_pos_iff.mpr hne
  have hlength : d.normalize.digitChars.length + k ≤ places := by
    have hlong : (Nat.toDigits 10 n).length ≤ places := hlong
    rw [← hdigits, List.length_append, List.length_replicate] at hlong
    exact hlong
  have hshift : shiftOf f.scientificNotation places (d.normalize.digitChars.length - 1 + d.normalize.exponent) = 0 := by
    rw [hrule]
    show (if leastPlainExponent ≤ _ ∧ _ < (places : Int) then (0 : Int) else _) = 0
    unfold leastPlainExponent
    rw [if_pos (by omega)]
  have hplace : (d.normalize.digitChars.length : Int) - 1 + d.normalize.exponent - 0 + 1 = d.normalize.digitChars.length + k := by
    omega
  unfold magnitude
  rw [hplaces]
  show (do
    let r := rounded (places : Int).toNat d
    let shift := shiftOf f.scientificNotation places r.leading
    let parts := splitDigits r.digits (r.leading - shift + 1)
    return f.withExponent (← f.mantissaText parts.1 parts.2 r.truncated) shift) = _
  rw [Int.toNat_natCast, hrounded]
  dsimp only
  rw [hshift, hplace, splitDigits_whole _ _ hne, hdigits]
  dsimp only
  rw [mantissaText_whole, htext]
  rfl

section

variable {f : Format} {places n : Nat} {text : String} (hf : f.WritesInFull places) (hlt : n < tenTo places)
  (htext : groupedWhole f.groupSeparator (Nat.toDigits 10 n) = .ok text)
include hf hlt htext

theorem magnitude_whole {d : Decimal} (h : d.IsWhole n) : f.magnitude d = .ok text :=
  magnitude_of_rounded hf.places_eq hf.rule h (Double.decimalLength_le hf.pos hlt) (rounded_whole hf.pos hf.le h hlt) htext

theorem signed_whole {d : Decimal} (negative : Bool) (h : d.IsWhole n) :
    f.signed negative d = .ok ((if negative then "-" else "") ++ text) := by
  have hlength : decimalLength d.units ≤ contextPlaces := by
    obtain ⟨k, -, hn⟩ := h
    have hunits : d.units ≤ n := hn ▸ Nat.le_mul_of_pos_right _ (tenTo_pos k)
    have hplaces := Double.decimalLength_le hf.pos (Nat.lt_of_le_of_lt hunits hlt)
    exact Nat.le_trans (Nat.le_trans hplaces hf.le) (by decide)
  unfold signed
  rw [Decimal.round_of_length_le hlength, magnitude_whole hf hlt htext h]
  rfl

end

/-! ### Numbers -/

/-- The sign of a negative number. -/
def signText (n : Int) : String := if n < 0 then "-" else ""

theorem signText_natCast (n : Nat) : signText n = "" := if_neg (Int.not_lt.mpr (Int.natCast_nonneg n))

end Format

/-- The value is a whole number: an integer, or the floating-point number of one. -/
inductive Datum.IsWhole : Datum → Int → Prop
  | int (n : Int) : IsWhole (.int n) n
  | float (n : Int) : IsWhole (.float (.ofInt n)) n
  | minusZero : IsWhole (.float (.finite true 0 Double.minExponent)) 0

namespace Format

/-- **A whole number that is not too long is written as its sign and its digits.** -/
theorem number_inFull {f : Format} {places : Nat} (hf : f.WritesInFull places) {value : Datum} {n : Int}
    (h : value.IsWhole n) (hlt : n.natAbs < tenTo places) {text : String}
    (htext : groupedWhole f.groupSeparator (Nat.toDigits 10 n.natAbs) = .ok text) :
    f.number value = .ok (signText n ++ text) := by
  have hplain : (⟨n.natAbs, 0⟩ : Decimal).IsWhole n.natAbs := ⟨0, rfl, Nat.mul_one _⟩
  cases h with
  | int =>
    show f.signed (decide (n < 0)) ⟨n.natAbs, 0⟩ = _
    rw [signed_whole hf hlt htext _ hplain]
    unfold signText
    by_cases hneg : n < 0
    · rw [decide_eq_true hneg, if_pos hneg, if_pos rfl]
    · rw [decide_eq_false hneg, if_neg hneg, if_neg Bool.false_ne_true]
  | float =>
    by_cases hzero : n = 0
    · subst hzero
      exact signed_whole hf hlt htext false hplain
    · have hpos : 0 < n.natAbs := Int.natAbs_pos.mpr hzero
      have hplaces : tenTo places ≤ tenTo 14 := Nat.pow_le_pow_right (by decide) hf.le
      have hlt' : n.natAbs < twoTo 51 := Nat.lt_trans (Nat.lt_of_lt_of_le hlt hplaces) (by decide)
      have hsig : Double.wholeSignificand n.natAbs ≠ 0 :=
        Nat.pos_iff_ne_zero.mp (Nat.mul_pos hpos (twoTo_pos _))
      show f.double (Double.ofInt n) = _
      unfold Double.ofInt
      rw [Double.ofRatio_whole _ hpos (Nat.lt_trans hlt' (by decide))]
      show (if Double.wholeSignificand n.natAbs = 0 then _ else _) = _
      rw [if_neg hsig, signed_whole hf hlt htext _ (Double.isWhole_shortest hpos hlt')]
      unfold signText
      by_cases hneg : n < 0
      · rw [decide_eq_true hneg, if_pos hneg, if_pos rfl]
      · rw [decide_eq_false hneg, if_neg hneg, if_neg Bool.false_ne_true]
  | minusZero => exact signed_whole hf hlt htext false hplain

/-- A whole number of less than fifteen digits in the usual format. -/
theorem number_whole {value : Datum} {n : Int} (h : value.IsWhole n) (hlt : n.natAbs < tenTo 14) :
    ({} : Format).number value = .ok (signText n ++ wholeText n.natAbs) :=
  number_inFull writesInFull h hlt (groupedWhole_eq _)

/-! ### Plain numbers -/

theorem replaceChars_skip {old new : List Char} (cs rest : List Char) :
    replaceChars old new cs.length (cs ++ rest) = replaceChars old new 0 rest := by
  induction cs with
  | nil => rfl
  | cons d cs ih => exact ih

/-- Where the text to replace cannot begin, nothing is replaced. -/
theorem replaceChars_of_ne {o : Char} {old new cs : List Char} (h : ∀ d ∈ cs, d ≠ o) (rest : List Char) :
    replaceChars (o :: old) new 0 (cs ++ rest) = cs ++ replaceChars (o :: old) new 0 rest := by
  induction cs with
  | nil => rfl
  | cons d cs ih =>
    have hne : (o == d) = false := beq_eq_false_iff_ne.mpr (Ne.symm (h d List.mem_cons_self))
    rw [List.cons_append, replaceChars, List.isPrefixOf_cons_cons, hne, Bool.false_and, if_neg Bool.false_ne_true,
      ih fun d hd => h d (List.mem_cons_of_mem _ hd), List.cons_append]

theorem replaceChars_old {o : Char} {old new : List Char} (rest : List Char) :
    replaceChars (o :: old) new 0 (o :: (old ++ rest)) = new ++ replaceChars (o :: old) new 0 rest := by
  have hprefix : (o :: old).isPrefixOf (o :: (old ++ rest)) = true :=
    List.isPrefixOf_iff_prefix.mpr ⟨rest, rfl⟩
  rw [replaceChars, hprefix, if_pos rfl, List.length_cons, Nat.add_sub_cancel, replaceChars_skip]

theorem toList_spaced_cons (group : List Char) {groups : List (List Char)} (hne : groups ≠ []) :
    (spaced (group :: groups)).toList = group ++ '\\' :: ',' :: ' ' :: (spaced groups).toList := by
  rw [spaced_cons group hne, String.toList_append, String.toList_append, String.toList_ofList, List.append_assoc]
  rfl

/-- Without the spaces between them the groups are the digits. -/
theorem replaceChars_groups : ∀ {groups : List (List Char)}, (∀ group ∈ groups, ∀ d ∈ group, d ≠ '\\') →
    replaceChars ['\\', ',', ' '] [] 0 (spaced groups).toList = groups.flatten
  | [], _ => rfl
  | [group], h => by
    have := @replaceChars_of_ne _ [',', ' '] [] _ (h group List.mem_cons_self) []
    rw [List.append_nil] at this
    rw [spaced_singleton, String.toList_ofList, this, List.flatten_singleton]
    exact List.append_nil _
  | group :: next :: groups, h => by
    have hold := @replaceChars_old '\\' [',', ' '] [] (spaced (next :: groups)).toList
    rw [toList_spaced_cons _ (List.cons_ne_nil _ _), replaceChars_of_ne (h group List.mem_cons_self)]
    exact congrArg _ (hold.trans (replaceChars_groups fun g hg => h g (List.mem_cons_of_mem _ hg)))

theorem all_toDigits (n : Nat) : (Nat.toDigits 10 n).all Char.isDigit = true :=
  List.all_eq_true.mpr fun _ hd => Nat.isDigit_of_mem_toDigits (by decide) (by decide) hd

theorem isDigit_of_mem_groups {n : Nat} {group : List Char} (hg : group ∈ digitGroups (Nat.toDigits 10 n)) :
    ∀ d ∈ group, d.isDigit = true :=
  fun _ hd => List.all_eq_true.mp (all_toDigits n) _ (mem_of_mem_groupsFrom hg hd)

/-- A point for the decimal marker changes nothing in digits. -/
theorem replaceAll_point (n : Nat) :
    replaceAll (String.ofList (Nat.toDigits 10 n)) "." "." = String.ofList (Nat.toDigits 10 n) := by
  have hne : ∀ d ∈ Nat.toDigits 10 n, d ≠ '.' := by
    rintro d hd rfl
    exact absurd (List.all_eq_true.mp (all_toDigits n) _ hd) (by decide)
  have := @replaceChars_of_ne _ [] ['.'] _ hne []
  rw [List.append_nil] at this
  show String.ofList (replaceChars ['.'] ['.'] 0 (String.ofList (Nat.toDigits 10 n)).toList) = _
  rw [String.toList_ofList, this]
  exact congrArg String.ofList (List.append_nil _)

theorem plainDigitsOf_wholeText (n : Nat) :
    Expr.plainDigitsOf {} (wholeText n) = .ok (String.ofList (Nat.toDigits 10 n)) := by
  have hslash : ∀ group ∈ digitGroups (Nat.toDigits 10 n), ∀ d ∈ group, d ≠ '\\' := by
    rintro group hg d hd rfl
    exact absurd (isDigit_of_mem_groups hg _ hd) (by decide)
  have hspaces : replaceAll (wholeText n) thinSpace "" = String.ofList (Nat.toDigits 10 n) := by
    show String.ofList (replaceChars ['\\', ',', ' '] [] 0 (wholeText n).toList) = _
    rw [wholeText, replaceChars_groups hslash, digitGroups, flatten_groupsFrom]
  show Except.ok (replaceAll (replaceAll (wholeText n) thinSpace "") "." ".") = _
  rw [hspaces, replaceAll_point]

/-- A minus in front stays in front. -/
theorem replaceChars_minus {o : Char} (ho : o ≠ '-') (old new : List Char) (s : String) :
    String.ofList (replaceChars (o :: old) new 0 ("-" ++ s).toList) =
      "-" ++ String.ofList (replaceChars (o :: old) new 0 s.toList) := by
  have := @replaceChars_of_ne o old new ['-'] (List.forall_mem_singleton.mpr ho.symm) s.toList
  rw [String.toList_append]
  exact (congrArg String.ofList this).trans String.ofList_append

theorem plainDigitsOf_minus (s : String) : ∃ digits, Expr.plainDigitsOf {} ("-" ++ s) = .ok ("-" ++ digits) := by
  have hdigits : Expr.plainDigitsOf {} ("-" ++ s) = .ok (String.ofList (replaceChars ['.'] ['.'] 0
    (String.ofList (replaceChars ['\\', ',', ' '] [] 0 ("-" ++ s).toList)).toList)) := rfl
  rw [replaceChars_minus (by decide), replaceChars_minus (by decide)] at hdigits
  exact ⟨_, hdigits⟩

theorem isPlain_toDigits (n : Nat) : isPlain (String.ofList (Nat.toDigits 10 n)) = true := by
  have htake := @takeWhile_digits _ [] (all_toDigits n) (by rintro c ⟨⟩)
  have hdrop := @dropWhile_digits _ [] (all_toDigits n) (by rintro c ⟨⟩)
  rw [List.append_nil] at htake hdrop
  unfold isPlain
  rw [String.toList_ofList]
  dsimp only
  rw [htake, hdrop, List.isEmpty_eq_false_iff.mpr Nat.toDigits_ne_nil]
  rfl

/-- What is no part of the text to replace stays. -/
theorem mem_replaceChars {o d : Char} {old new cs : List Char} (hd : d ∉ o :: old) (skip : Nat) (h : d ∈ cs.drop skip) :
    d ∈ replaceChars (o :: old) new skip cs := by
  induction cs generalizing skip with
  | nil =>
    rw [List.drop_nil] at h
    cases h
  | cons c cs ih =>
    cases skip with
    | succ skip => exact ih skip h
    | zero =>
      rw [List.drop_zero] at h
      rw [replaceChars]
      split
      · rename_i hprefix
        obtain ⟨rest, hrest⟩ := List.isPrefixOf_iff_prefix.mp hprefix
        have hcs : old ++ rest = cs := (List.cons.inj hrest).2
        refine List.mem_append_right _ (ih _ ?_)
        rw [← hrest] at h
        rw [List.length_cons, Nat.add_sub_cancel, ← hcs, List.drop_left]
        exact (List.mem_append.mp h).resolve_left hd
      · exact (List.mem_cons.mp h).elim (fun heq => heq ▸ List.mem_cons_self) fun h => List.mem_cons_of_mem _ (ih 0 h)

/-- A plain number is of digits and a point. -/
theorem mem_of_isPlain {s : String} (h : isPlain s = true) : ∀ d ∈ s.toList, d.isDigit = true ∨ d = '.' := by
  intro d hd
  unfold isPlain at h
  rw [← @List.takeWhile_append_dropWhile _ Char.isDigit s.toList, List.mem_append] at hd
  rcases hd with hd | hd
  · exact .inl (List.all_eq_true.mp List.all_takeWhile d hd)
  · dsimp only at h
    split at h
    · rename_i heq
      rw [heq] at hd
      cases hd
    · rename_i heq
      rw [Bool.and_eq_true, Bool.and_eq_true] at h
      rw [heq] at hd
      exact (List.mem_cons.mp hd).elim .inr fun hd => .inl (List.all_eq_true.mp h.2.2 d hd)
    · rw [Bool.and_false] at h
      cases h

/-- What is a plain number without its spaces holds no power. -/
theorem caret_not_mem_of_isPlain {s digits : String} (hdigits : Expr.plainDigitsOf {} s = .ok digits)
    (h : isPlain digits = true) : '^' ∉ s.toList := by
  intro hmem
  have hplain : Expr.plainDigitsOf {} s = .ok (String.ofList (replaceChars ['.'] ['.'] 0
    (String.ofList (replaceChars ['\\', ',', ' '] [] 0 s.toList)).toList)) := rfl
  obtain rfl := Except.ok.inj (hplain.symm.trans hdigits)
  have hstays : '^' ∈ (String.ofList (replaceChars ['\\', ',', ' '] [] 0 s.toList)).toList := by
    rw [String.toList_ofList]
    exact mem_replaceChars (by decide) 0 hmem
  rcases mem_of_isPlain h '^' (by rw [String.toList_ofList]; exact mem_replaceChars (by decide) 0 hstays) with h | h <;>
    exact absurd h (by decide)

/-- A text with a minus in front is no plain number. -/
theorem isPlain_minus (s : String) : isPlain ("-" ++ s) = false := by
  unfold isPlain
  rw [String.toList_append]
  rfl

theorem digitGroups_ne_nil (n : Nat) : digitGroups (Nat.toDigits 10 n) ≠ [] := by
  intro h
  have hflatten : (digitGroups (Nat.toDigits 10 n)).flatten = Nat.toDigits 10 n := flatten_groupsFrom _ _
  rw [h] at hflatten
  exact Nat.toDigits_ne_nil hflatten.symm

/-- A digit stands at the start of a whole number. -/
theorem toList_wholeText (n : Nat) : ∃ d rest, (wholeText n).toList = d :: rest ∧ d.isDigit = true := by
  obtain ⟨group, groups, hgroups⟩ := List.exists_cons_of_ne_nil (digitGroups_ne_nil n)
  have hmem : group ∈ digitGroups (Nat.toDigits 10 n) := by
    rw [hgroups]
    exact List.mem_cons_self
  obtain ⟨d, ds, rfl⟩ := List.exists_cons_of_ne_nil (groupsFrom_ne_nil _ Nat.toDigits_ne_nil group hmem)
  obtain ⟨rest, hrest⟩ : ∃ rest, (wholeText n).toList = d :: rest := by
    unfold wholeText
    rw [hgroups]
    cases groups with
    | nil => exact ⟨ds, by rw [spaced_singleton, String.toList_ofList]⟩
    | cons next groups => exact ⟨_, toList_spaced_cons (d :: ds) (List.cons_ne_nil _ _)⟩
  exact ⟨d, rest, hrest, isDigit_of_mem_groups hmem _ List.mem_cons_self⟩

theorem beginsWith_wholeText (n : Nat) : beginsWith (wholeText n) "-" = false := by
  obtain ⟨d, rest, hrest, hdigit⟩ := toList_wholeText n
  have hd : ('-' == d) = false := by
    rw [beq_eq_false_iff_ne]
    rintro rfl
    exact absurd hdigit (by decide)
  unfold beginsWith
  rw [hrest]
  show ('-' == d && _) = false
  rw [hd, Bool.false_and]

theorem beginsWith_signText (n : Int) : beginsWith (signText n ++ wholeText n.natAbs) "-" = decide (n < 0) := by
  unfold signText
  by_cases hneg : n < 0
  · rw [if_pos hneg, decide_eq_true hneg, beginsWith, String.toList_append]
    rfl
  · rw [if_neg hneg, decide_eq_false hneg, String.empty_append, beginsWith_wholeText]

/-- A number of up to three digits is written without spaces. -/
theorem wholeText_short {n : Nat} (hlt : n < tenTo 3) : wholeText n = String.ofList (Nat.toDigits 10 n) := by
  have hlength : (Nat.toDigits 10 n).length ≤ 3 := Double.decimalLength_le (by decide) hlt
  unfold wholeText digitGroups groupsFrom
  rw [if_pos hlength, spaced_singleton]

theorem holds_wholeText_short {n : Nat} (hlt : n < tenTo 3) : holds (wholeText n) "\\" = false := by
  have digits : ∀ cs : List Char, (∀ d ∈ cs, d.isDigit = true) → holdsChars ['\\'] cs = false := by
    intro cs h
    induction cs with
    | nil => rfl
    | cons d cs ih =>
      have hd : ('\\' == d) = false := by
        rw [beq_eq_false_iff_ne]
        rintro rfl
        exact absurd (h _ List.mem_cons_self) (by decide)
      rw [holdsChars, List.isPrefixOf_cons_cons, hd, ih fun e he => h e (List.mem_cons_of_mem _ he)]
      rfl
  rw [wholeText_short hlt, holds, @String.toList_ofList (Nat.toDigits 10 n)]
  exact digits _ fun d hd => List.all_eq_true.mp (all_toDigits n) d hd

end Format

/-! ### Whole numbers in a source -/

namespace Source

theorem spells_characters : ∀ {cs : List Char}, (∀ d ∈ cs, isLetterOrDigit d = true) →
    Spells .builtin (String.ofList cs) (cs.map ofCharacter)
  | [], _ => ⟨[], Token.Scans.nil, Yields.nil⟩
  | d :: cs, h => by
    have htext : String.ofList (d :: cs) = d.toString ++ String.ofList cs := by
      rw [← String.toList_inj, String.toList_append, String.toList_ofList, String.toList_ofList, Char.toString,
        String.toList_singleton]
      rfl
    rw [htext]
    exact (spells_character (h d List.mem_cons_self)).append (spells_characters fun d hd => h d (List.mem_cons_of_mem _ hd))

theorem spells_digits {digits : List Char} (h : ∀ d ∈ digits, d.isDigit = true) :
    Spells .builtin (String.ofList digits) (digits.map ofCharacter) :=
  spells_characters fun d hd => isLetterOrDigit_of_isDigit (h d hd)

/-- The atom of the space between two groups of digits. -/
def thinSpaceAtom : Atom := { type := .spacing, latex := "\\," }

theorem spells_thinSpace : Spells .builtin Format.thinSpace [thinSpaceAtom] :=
  ⟨[.command ","], (Token.scans_sign (by decide) (by decide)).append (Token.scans_blank (by decide)),
    yields_space (by decide) (by decide) (by decide)⟩

/-- The spaces of the row are those between two groups of digits. -/
def IsThinlySpaced (row : List Atom) : Prop := ∀ a ∈ row, a.type = .spacing → a = thinSpaceAtom

theorem IsThinlySpaced.append {row row' : List Atom} (h : IsThinlySpaced row) (h' : IsThinlySpaced row') :
    IsThinlySpaced (row ++ row') := fun a ha => (List.mem_append.mp ha).elim (h a) (h' a)

theorem isThinlySpaced_characters (cs : List Char) : IsThinlySpaced (cs.map ofCharacter) := by
  intro a ha htype
  obtain ⟨d, -, rfl⟩ := List.mem_map.mp ha
  cases htype

/-- Groups of digits spell their digits, with spaces between them; a digit stands at the end. -/
theorem spells_groups : ∀ {groups : List (List Char)}, groups ≠ [] → (∀ group ∈ groups, group ≠ []) →
    (∀ group ∈ groups, ∀ d ∈ group, d.isDigit = true) →
    ∃ row last, Spells .builtin (Format.spaced groups) (row ++ [ofCharacter last]) ∧
      unspaced (row ++ [ofCharacter last]) = groups.flatten.map ofCharacter ∧ IsThinlySpaced (row ++ [ofCharacter last])
  | [], hne, _, _ => absurd rfl hne
  | [group], _, hgroup, hdigit => by
    obtain ⟨digits, last, rfl⟩ : ∃ digits last, group = digits ++ [last] :=
      ⟨_, _, (List.dropLast_concat_getLast (hgroup group List.mem_cons_self)).symm⟩
    have hspells := spells_digits (hdigit _ List.mem_cons_self)
    have hthin := isThinlySpaced_characters (digits ++ [last])
    rw [List.map_append, List.map_singleton] at hspells hthin
    refine ⟨digits.map ofCharacter, last, ?_, ?_, hthin⟩
    · rwa [Format.spaced_singleton]
    · rw [List.flatten_singleton, List.map_append, List.map_singleton]
      refine unspaced_eq_self fun a ha => ?_
      rw [← List.map_singleton, ← List.map_append] at ha
      obtain ⟨d, -, rfl⟩ := List.mem_map.mp ha
      exact fun h => by cases h
  | group :: next :: groups, _, hgroup, hdigit => by
    obtain ⟨row, last, hspells, hrow, hthin⟩ := spells_groups (List.cons_ne_nil next groups)
      (fun g hg => hgroup g (List.mem_cons_of_mem _ hg)) fun g hg => hdigit g (List.mem_cons_of_mem _ hg)
    refine ⟨group.map ofCharacter ++ thinSpaceAtom :: row, last, ?_, ?_, ?_⟩
    · rw [Format.spaced_cons _ (List.cons_ne_nil _ _)]
      have := ((spells_digits (hdigit group List.mem_cons_self)).append spells_thinSpace).append hspells
      rwa [List.append_assoc, List.singleton_append, ← List.cons_append, ← List.append_assoc] at this
    · have hown : unspaced (group.map ofCharacter) = group.map ofCharacter := unspaced_eq_self fun a ha => by
        obtain ⟨d, -, rfl⟩ := List.mem_map.mp ha
        exact fun h => by cases h
      rw [List.append_assoc, List.cons_append, List.flatten_cons, List.map_append, ← hrow]
      rw [unspaced_append, hown, unspaced_cons_of_spacing rfl]
    · rw [List.append_assoc, List.cons_append]
      refine (isThinlySpaced_characters group).append fun a ha htype => ?_
      rcases List.mem_cons.mp ha with rfl | ha
      · rfl
      · exact hthin a ha htype

/-- **A whole number spells its digits.** -/
theorem spells_wholeText (n : Nat) :
    ∃ row last, Spells .builtin (Format.wholeText n) (row ++ [ofCharacter last]) ∧
      unspaced (row ++ [ofCharacter last]) = (Nat.toDigits 10 n).map ofCharacter := by
  have hflatten : (Format.digitGroups (Nat.toDigits 10 n)).flatten = Nat.toDigits 10 n := Format.flatten_groupsFrom _ _
  obtain ⟨row, last, hspells, hrow, -⟩ := spells_groups (Format.digitGroups_ne_nil n) (Format.groupsFrom_ne_nil _ Nat.toDigits_ne_nil)
    fun group hg => Format.isDigit_of_mem_groups hg
  rw [hflatten] at hrow
  exact ⟨row, last, hspells, hrow⟩

end Source

end Formula
