import Mathlib.Data.List.TakeWhile
import Formula.Proofs.Number.NumeralText

/-!
# Blanks and slashes in texts of numbers

`readDouble` and `readRatio` remove different blanks from the ends of a text: the information separators stay for the first.  A
text with one of them is no double (`readDouble_eq_none_or`).  The text of a ratio is read as two runs of digits, with a sign
in front of the first: `readRatio_slash` takes it apart at the slash, and `readRatio_whole` reads either side alone.
-/

namespace Formula.Number

open Formula.Text

/-! ### Blanks at the ends -/

section

variable {p q : Char → Bool} {cs : List Char}

/-- The characters without those at both ends that are removed. -/
def stripped (p : Char → Bool) (cs : List Char) : List Char := ((cs.dropWhile p).reverse.dropWhile p).reverse

/-- Neither the first character nor the last one is removed. -/
def EndsKept (p : Char → Bool) (cs : List Char) : Prop := (∀ c ∈ cs.head?, p c = false) ∧ ∀ c ∈ cs.getLast?, p c = false

theorem EndsKept.of_forall (h : ∀ c ∈ cs, p c = false) : EndsKept p cs :=
  ⟨fun c hc => h c (List.mem_of_mem_head? hc), fun c hc => h c (List.mem_of_mem_getLast? hc)⟩

theorem EndsKept.mono (h : EndsKept p cs) (hle : ∀ c, p c = false → q c = false) : EndsKept q cs :=
  ⟨fun c hc => hle c (h.1 c hc), fun c hc => hle c (h.2 c hc)⟩

theorem dropWhile_of_head? (h : ∀ c ∈ cs.head?, p c = false) : cs.dropWhile p = cs := by
  cases cs with
  | nil => rfl
  | cons c rest => rw [List.dropWhile_cons_of_neg (by rw [h c rfl]; exact Bool.false_ne_true)]

/-- What is between removed characters and has kept ends remains. -/
theorem stripped_eq {before middle behind : List Char} (hbefore : ∀ c ∈ before, p c = true)
    (hbehind : ∀ c ∈ behind, p c = true) (hends : EndsKept p middle) : stripped p (before ++ (middle ++ behind)) = middle := by
  unfold stripped
  rw [List.dropWhile_append_of_pos hbefore]
  cases middle with
  | nil =>
    rw [List.nil_append, List.dropWhile_eq_nil_iff.mpr hbehind]
    rfl
  | cons c rest =>
    have hfirst : (c :: rest ++ behind).dropWhile p = c :: rest ++ behind := dropWhile_of_head? fun d hd => hends.1 d hd
    have hlast : (c :: rest).reverse.dropWhile p = (c :: rest).reverse :=
      dropWhile_of_head? fun d hd => hends.2 d (by rwa [List.head?_reverse] at hd)
    rw [hfirst, List.reverse_append, List.dropWhile_append_of_pos fun d hd => hbehind d (List.mem_reverse.mp hd), hlast,
      List.reverse_reverse]

theorem stripped_of_endsKept (h : EndsKept p cs) : stripped p cs = cs := by
  have := @stripped_eq p [] cs [] (by simp) (by simp) h
  rwa [List.nil_append, List.append_nil] at this

theorem stripped_spec (p : Char → Bool) (cs : List Char) : ∃ before behind, cs = before ++ (stripped p cs ++ behind) ∧
    (∀ c ∈ before, p c = true) ∧ (∀ c ∈ behind, p c = true) ∧ EndsKept p (stripped p cs) := by
  have hends : ∀ ds : List Char, ∀ c ∈ (ds.dropWhile p).head?, p c = false := by
    intro ds c hc
    have := List.head?_dropWhile_not p ds
    rw [hc] at this
    exact this
  have hsplit : cs.dropWhile p = stripped p cs ++ ((cs.dropWhile p).reverse.takeWhile p).reverse := by
    rw [stripped, ← List.reverse_append, List.takeWhile_append_dropWhile, List.reverse_reverse]
  refine ⟨cs.takeWhile p, ((cs.dropWhile p).reverse.takeWhile p).reverse, ?_, fun c hc => List.mem_takeWhile_imp hc,
    fun c hc => List.mem_takeWhile_imp (List.mem_reverse.mp hc), fun c hc => ?_, fun c hc => ?_⟩
  · rw [← hsplit, List.takeWhile_append_dropWhile]
  · refine hends cs c ?_
    rw [hsplit, List.head?_append, hc]
    rfl
  · rw [stripped, List.getLast?_reverse] at hc
    exact hends _ c hc

end

theorem numberBlank_isBlank {c : Char} (h : isBlank c = false) : isNumberBlank c = false := by
  rw [isNumberBlank, h, Bool.false_and]

theorem trimChars_ends (cs : List Char) : EndsKept isBlank (trimChars cs) := by
  obtain ⟨_, _, -, -, -, hends⟩ := stripped_spec isBlank cs
  exact hends

/-- A double is read from what is left of a trimmed text, if there are no separators that only trimming removes. -/
theorem readDouble_trim {s : String} (h : stripped isNumberBlank s.toList = trimChars s.toList) :
    readDouble (trim s) = readDouble s := by
  have hkept : stripped isNumberBlank (trimChars s.toList) = trimChars s.toList :=
    stripped_of_endsKept ((trimChars_ends _).mono fun _ => numberBlank_isBlank)
  have hchars : numberChars (trim s) = numberChars s := by
    show plainDigits (stripped isNumberBlank (trim s).toList) = plainDigits (stripped isNumberBlank s.toList)
    rw [trim, String.toList_ofList, hkept, h]
  rw [readDouble, readDouble, hchars]

/-- Trimming once is enough. -/
theorem readRatio_trim (s : String) : readRatio (trim s) = readRatio s := by
  have htwice : trimChars (trimChars s.toList) = trimChars s.toList := stripped_of_endsKept (trimChars_ends _)
  rw [readRatio, readRatio, trim, String.toList_ofList, htwice]

/-! ### The characters of a double -/

theorem mem_of_dropUnderscores : ∀ {cs : List Char} {before : Bool} {ds : List Char}, dropUnderscores before cs = some ds →
    ∀ {c : Char}, c ∈ cs → c ∈ ds ∨ c = '_' := by
  intro cs before
  fun_induction dropUnderscores before cs with
  | case1 => simp
  | case2 before d rest hd ih =>
    intro ds h c hc
    obtain ⟨es, hes, rfl⟩ := Option.map_eq_some_iff.mp h
    rcases List.mem_cons.mp hc with rfl | hc
    · exact .inr rfl
    rcases List.mem_cons.mp hc with rfl | hc
    · exact .inl List.mem_cons_self
    · exact (ih hes hc).imp_left (List.mem_cons_of_mem _)
  | case3 | case4 =>
    intro _ h
    cases h
  | case5 before d rest _ hd ih =>
    intro ds h c hc
    obtain ⟨es, hes, rfl⟩ := Option.map_eq_some_iff.mp h
    rcases List.mem_cons.mp hc with rfl | hc
    · exact .inl List.mem_cons_self
    · exact (ih hes hc).imp_left (List.mem_cons_of_mem _)

theorem mem_takeSign {cs : List Char} {c : Char} (h : c ∈ cs) : c ∈ (takeSign cs).2 ∨ c = '-' ∨ c = '+' := by
  unfold takeSign
  split
  · exact (List.mem_cons.mp h).elim (fun h => .inr (.inl h)) .inl
  · exact (List.mem_cons.mp h).elim (fun h => .inr (.inr h)) .inl
  · exact .inl h

theorem isGraphic_of_readExponent {cs : List Char} {e : Exponent} (h : readExponent cs = some e) : ∀ c ∈ cs, IsGraphic c := by
  cases cs with
  | nil => simp
  | cons d rest =>
    rw [readExponent] at h
    split at h
    · next hd =>
      dsimp only at h
      split at h
      · cases h
      · next hdigits =>
        have hall : (takeSign rest).2.all Char.isDigit = true := by simp_all
        intro c hc
        rcases List.mem_cons.mp hc with rfl | hc
        · rcases hd with rfl | rfl <;> decide
        rcases mem_takeSign hc with hc | rfl | rfl
        · exact isGraphic_of_isDigit (List.all_eq_true.mp hall c hc)
        all_goals decide
    · cases h

theorem isGraphic_of_readNumeral {cs : List Char} {n : Numeral} (h : readNumeral cs = some n) : ∀ c ∈ cs, IsGraphic c := by
  have hdigit : ∀ {ds : List Char}, ∀ c ∈ ds.takeWhile Char.isDigit, IsGraphic c := fun c hc =>
    isGraphic_of_isDigit (List.mem_takeWhile_imp hc)
  have hsplit : ∀ ds : List Char, ∀ c ∈ ds, c ∈ ds.takeWhile Char.isDigit ∨ c ∈ ds.dropWhile Char.isDigit := fun ds c hc => by
    rwa [← List.mem_append, List.takeWhile_append_dropWhile]
  have hread : ∀ {whole fraction tail : List Char} {empty : Bool},
      (if empty then none else (readExponent tail).map fun e => ⟨whole, fraction, e⟩ : Option Numeral) = some n →
      ∀ c ∈ tail, IsGraphic c := by
    intro whole fraction tail empty h
    cases empty with
    | true => cases h
    | false =>
      obtain ⟨e, he, -⟩ := Option.map_eq_some_iff.mp h
      exact isGraphic_of_readExponent he
  intro c hc
  rcases hsplit cs c hc with hc | hc
  · exact hdigit c hc
  rw [readNumeral] at h
  split at h
  · next rest hrest =>
    rw [hrest] at hc
    rcases List.mem_cons.mp hc with rfl | hc
    · decide
    · exact (hsplit rest c hc).elim (hdigit c) (hread h c)
  · exact hread h c hc

theorem isGraphic_of_toLower {c : Char} (h : IsGraphic c.toLower) : IsGraphic c := by
  unfold Char.toLower at h
  split at h
  · next hupper =>
    have hleast := UInt32.le_iff_toNat_le.mp hupper.1
    have hmost := UInt32.le_iff_toNat_le.mp hupper.2
    exact ⟨Nat.le_trans (by decide) hleast, Nat.le_trans hmost (by decide)⟩
  · exact h

theorem isGraphic_of_specialWord {negative : Bool} {cs : List Char} {x : Double} (h : specialWord? negative cs = some x) :
    ∀ c ∈ cs, IsGraphic c := by
  have hword : ∀ {word : String}, (word.toList.all fun c => decide (IsGraphic c)) = true →
      String.ofList (cs.map Char.toLower) = word → ∀ c ∈ cs, IsGraphic c := by
    rintro word hgraphic rfl c hc
    rw [String.toList_ofList, List.all_eq_true] at hgraphic
    exact isGraphic_of_toLower (of_decide_eq_true (hgraphic _ (List.mem_map_of_mem hc)))
  rw [specialWord?] at h
  split at h
  · next hinf => exact hinf.elim (hword (by decide)) (hword (by decide))
  split at h
  · next hnan => exact hword (by decide) hnan
  · cases h

theorem isGraphic_of_readDouble {s : String} {x : Double} (h : readDouble s = some x) : ∀ c ∈ numberChars s, IsGraphic c := by
  rw [readDouble] at h
  split at h
  · cases h
  next cs hcs =>
  have hall : ∀ c ∈ (takeSign cs).2, IsGraphic c := by
    dsimp only at h
    split at h
    · next hword => exact isGraphic_of_specialWord hword
    · obtain ⟨n, hn, -⟩ := Option.map_eq_some_iff.mp h
      exact isGraphic_of_readNumeral hn
  intro c hc
  rcases mem_of_dropUnderscores hcs hc with hc | rfl
  · rcases mem_takeSign hc with hc | rfl | rfl
    · exact hall c hc
    all_goals decide
  · decide

/-- The digits of all scripts are no blanks. -/
theorem isBlank_of_digitValue {c : Char} {v : Nat} (h : digitValue? c = some v) : isBlank c = false := by
  rw [digitValue?] at h
  split at h
  · next hdigit => exact isBlank_of_isGraphic (isGraphic_of_isDigit hdigit)
  · obtain ⟨z, hz, -⟩ := Option.map_eq_some_iff.mp h
    have hmem := List.mem_of_find?_eq_some hz
    have hrange := List.find?_some hz
    rw [Bool.and_eq_true, decide_eq_true_eq, decide_eq_true_eq] at hrange
    have hzeros : ∀ z ∈ zeros, ∀ r ∈ blankRanges, r.2 < z ∨ z + 9 < r.1 := by decide
    refine Bool.eq_false_iff.mpr fun hb => ?_
    obtain ⟨r, hr, h3, h4⟩ := inRanges_iff.mp hb
    have := hzeros z hmem r hr
    omega

/-- Characters that stand for plain ones are no blanks. -/
theorem isBlank_of_plainDigits {cs : List Char} (h : ∀ c ∈ plainDigits cs, IsGraphic c) : ∀ c ∈ cs, isBlank c = false := by
  intro c hc
  have himage := h _ (List.mem_map_of_mem hc)
  cases hv : digitValue? c with
  | some v => exact isBlank_of_digitValue hv
  | none =>
    rw [hv] at himage
    exact isBlank_of_isGraphic himage

/-- **No separator is left around a double**: those that only trimming removes make the text none. -/
theorem stripped_of_readDouble {s : String} {x : Double} (h : readDouble s = some x) :
    stripped isNumberBlank s.toList = trimChars s.toList := by
  have hplain := isBlank_of_plainDigits (isGraphic_of_readDouble h)
  obtain ⟨before, behind, hsplit, hbefore, hbehind, -⟩ := stripped_spec isNumberBlank s.toList
  have hblank : ∀ {c}, isNumberBlank c = true → isBlank c = true := fun hc => (Bool.and_eq_true _ _ ▸ hc).1
  have := @stripped_eq isBlank before _ behind (fun c hc => hblank (hbefore c hc)) (fun c hc => hblank (hbehind c hc))
    (.of_forall hplain)
  exact this.symm.trans (congrArg (stripped isBlank) hsplit.symm)

/-! ### The sides of a slash -/

theorem digitChar_ne_slash (v : Nat) : Nat.digitChar v ≠ '/' := by
  rcases Nat.lt_or_ge v 16 with h | h
  · revert v
    decide
  · unfold Nat.digitChar
    simp (disch := omega) only [if_neg]
    decide

theorem slash_notMem_plainDigits {cs : List Char} (h : '/' ∉ cs) : '/' ∉ plainDigits cs := by
  intro hmem
  obtain ⟨c, hc, himage⟩ := List.mem_map.mp hmem
  split at himage
  · exact digitChar_ne_slash _ himage
  · exact h (himage ▸ hc)

/-- Without underscores there is no other character than before. -/
theorem dropUnderscores_subset : ∀ {cs : List Char} {before : Bool} {ds : List Char}, dropUnderscores before cs = some ds →
    ds ⊆ cs := by
  intro cs before
  fun_induction dropUnderscores before cs with
  | case1 =>
    rintro ds ⟨⟩
    exact fun _ h => h
  | case2 before d rest hd ih =>
    intro ds h
    obtain ⟨es, hes, rfl⟩ := Option.map_eq_some_iff.mp h
    exact List.subset_cons_of_subset _ (List.cons_subset_cons _ (ih hes))
  | case3 | case4 =>
    intro _ h
    cases h
  | case5 before d rest _ hd ih =>
    intro ds h
    obtain ⟨es, hes, rfl⟩ := Option.map_eq_some_iff.mp h
    exact List.cons_subset_cons _ (ih hes)

/-- No underscore stands next to a slash. -/
theorem dropUnderscores_slash (before : Bool) (cs tail : List Char) : dropUnderscores before (cs ++ '/' :: tail) =
    (dropUnderscores before cs).bind fun ds => (dropUnderscores false tail).map fun es => ds ++ '/' :: es := by
  fun_induction dropUnderscores before cs with
  | case1 before =>
    rw [List.nil_append, dropUnderscores, if_neg (by decide)]
    · rfl
    · exact fun _ _ h => absurd h (by decide)
  | case2 before d rest hd ih =>
    rw [List.cons_append, List.cons_append, dropUnderscores, if_pos hd, ih]
    cases dropUnderscores true rest <;> cases dropUnderscores false tail <;> rfl
  | case3 before d rest hd =>
    rw [List.cons_append, List.cons_append, dropUnderscores, if_neg hd]
    rfl
  | case4 before rest hne =>
    cases rest with
    | nil =>
      rw [List.cons_append, List.nil_append, dropUnderscores, if_neg (by simp)]
      rfl
    | cons d rest => exact absurd rfl (hne d rest rfl)
  | case5 before d rest _ hd ih =>
    rw [List.cons_append, dropUnderscores, if_neg hd, ih]
    · cases dropUnderscores d.isDigit rest <;> cases dropUnderscores false tail <;> rfl
    · rintro e es rfl
      exact absurd rfl hd

theorem takeSign_slash (cs tail : List Char) :
    takeSign (cs ++ '/' :: tail) = ((takeSign cs).1, (takeSign cs).2 ++ '/' :: tail) := by
  cases cs with
  | nil => rfl
  | cons c cs =>
    by_cases hminus : c = '-'
    · subst hminus
      rfl
    by_cases hplus : c = '+'
    · subst hplus
      rfl
    rw [List.cons_append, takeSign_of_ne hminus hplus, takeSign_of_ne hminus hplus]
    rfl

theorem takeSign_subset (cs : List Char) : (takeSign cs).2 ⊆ cs := by
  unfold takeSign
  split
  · exact List.subset_cons_self _ _
  · exact List.subset_cons_self _ _
  · exact fun _ h => h

/-- The characters write a whole number with the sign and the digits: there may be underscores between two digits, and there are
no blanks. -/
structure WritesWhole (cs sign ds : List Char) : Prop where
  chars : dropUnderscores false (plainDigits cs) = some (sign ++ ds)
  sign : sign = [] ∨ sign = ['-'] ∨ sign = ['+']
  nonempty : ds ≠ []
  digits : ds.all Char.isDigit = true

/-- The number with the sign. -/
def signedBy (sign : List Char) (r : Rat) : Rat := if sign = ['-'] then -r else r

namespace WritesWhole

variable {cs sign ds tail es : List Char}

theorem takeSign_eq (h : WritesWhole cs sign ds) : takeSign (sign ++ ds) = (sign == ['-'], ds) := by
  obtain ⟨d, rest, rfl⟩ := List.exists_cons_of_ne_nil h.nonempty
  rcases h.sign with rfl | rfl | rfl
  · exact takeSign_of_isDigit (List.all_eq_true.mp h.digits d List.mem_cons_self)
  · rfl
  · rfl

theorem isBlank_eq_false (h : WritesWhole cs sign ds) : ∀ c ∈ cs, isBlank c = false := by
  refine isBlank_of_plainDigits fun c hc => ?_
  rcases mem_of_dropUnderscores h.chars hc with hc | rfl
  · rcases List.mem_append.mp hc with hc | hc
    · rcases h.sign with rfl | rfl | rfl
      · cases hc
      all_goals
        cases List.mem_singleton.mp hc
        decide
    · exact isGraphic_of_isDigit (List.all_eq_true.mp h.digits c hc)
  · decide

theorem trimChars_eq (h : WritesWhole cs sign ds) : trimChars cs = cs := stripped_of_endsKept (.of_forall h.isBlank_eq_false)

theorem notMem_slash (h : WritesWhole cs sign ds) : '/' ∉ ds := fun hmem =>
  absurd (List.all_eq_true.mp h.digits '/' hmem) (by decide)

theorem readNat_eq (h : WritesWhole cs sign ds) :
    readNat ds = if maxIntDigits < ds.length then .error (.tooLong ds.length) else .ok (digitsToNat ds) := by
  rw [readNat, List.isEmpty_eq_false_iff.mpr h.nonempty, h.digits]
  rfl

end WritesWhole

theorem takeWhile_slash {cs tail : List Char} (h : '/' ∉ cs) : (cs ++ '/' :: tail).takeWhile (· ≠ '/') = cs := by
  rw [List.takeWhile_append_of_pos fun c hc => by simpa using fun heq : c = '/' => h (heq ▸ hc)]
  simp

theorem dropWhile_slash {cs tail : List Char} (h : '/' ∉ cs) : (cs ++ '/' :: tail).dropWhile (· ≠ '/') = '/' :: tail := by
  rw [List.dropWhile_append_of_pos fun c hc => by simpa using fun heq : c = '/' => h (heq ▸ hc)]
  simp

theorem notMem_takeWhile_slash (cs : List Char) : '/' ∉ cs.takeWhile (· ≠ '/') := by
  intro hslash
  simpa using List.mem_takeWhile_imp hslash

/-- The first slash and its two sides. -/
theorem split_slash {cs : List Char} (h : '/' ∈ cs) :
    cs = cs.takeWhile (· ≠ '/') ++ '/' :: (cs.dropWhile (· ≠ '/')).drop 1 := by
  have hsplit := List.takeWhile_append_dropWhile (p := (· ≠ '/')) (l := cs)
  cases hrest : cs.dropWhile (· ≠ '/') with
  | nil => simpa using List.dropWhile_eq_nil_iff.mp hrest '/' h
  | cons c rest =>
    have hc : c = '/' := by
      have := List.head?_dropWhile_not (· ≠ '/') cs
      rw [hrest] at this
      simpa using this
    rw [hrest, hc] at hsplit
    exact hsplit.symm

theorem dropWhile_noSlash {cs : List Char} (h : '/' ∉ cs) : cs.dropWhile (· ≠ '/') = [] :=
  List.dropWhile_eq_nil_iff.mpr fun c hc => by simpa using fun heq : c = '/' => h (heq ▸ hc)

theorem toRatio_whole {cs sign ds : List Char} (h : WritesWhole cs sign ds) : (⟨ds, [], ⟨false, []⟩⟩ : Numeral).toRatio =
    if maxIntDigits < ds.length then .error .malformed else .ok (digitsToNat ds : Rat) := by
  have hpart : ratioPart ds = if maxIntDigits < ds.length then .error .malformed else .ok (digitsToNat ds) := by
    rw [ratioPart, List.isEmpty_eq_false_iff.mpr h.nonempty, if_neg Bool.false_ne_true, h.readNat_eq]
    by_cases hlong : maxIntDigits < ds.length
    · rw [if_pos hlong, if_pos hlong]
    · rw [if_neg hlong, if_neg hlong]
  unfold Numeral.toRatio
  dsimp only
  rw [hpart]
  split
  · rfl
  · show Except.ok (mkRat (((digitsToNat ds * 1 + 0) * 1 : Nat) : Int) (1 * 1)) = _
    rw [Nat.mul_one, Nat.add_zero, Nat.mul_one, Nat.mul_one, Rat.mkRat_one]
    rfl

/-- One side of a slash, read alone. -/
theorem readRatio_whole {cs sign ds : List Char} (h : WritesWhole cs sign ds) : readRatio (String.ofList cs) =
    if maxIntDigits < ds.length then .error .malformed else .ok (signedBy sign (digitsToNat ds)) := by
  have hnumeral : readNumeral ds = some ⟨ds, [], ⟨false, []⟩⟩ := by
    have := @readNumeral_whole ds [] h.digits h.nonempty (by nofun)
    rwa [List.append_nil] at this
  rw [readRatio, String.toList_ofList, h.trimChars_eq, h.chars]
  dsimp only
  rw [h.takeSign_eq]
  dsimp only
  rw [dropWhile_noSlash h.notMem_slash]
  dsimp only
  rw [hnumeral]
  dsimp only
  rw [toRatio_whole h]
  by_cases hlong : maxIntDigits < ds.length
  · rw [if_pos hlong, if_pos hlong]
    rfl
  · rw [if_neg hlong, if_neg hlong]
    show Except.ok (if (sign == ['-']) = true then -(digitsToNat ds : Rat) else digitsToNat ds) = _
    simp only [beq_iff_eq, signedBy]

theorem plainDigits_slash (cs tail : List Char) :
    plainDigits (cs ++ '/' :: tail) = plainDigits cs ++ '/' :: plainDigits tail := by
  rw [plainDigits, List.map_append, List.map_cons]
  rfl

/-- Both sides of a slash. -/
theorem readRatio_slash {cs sign ds tail es : List Char} (h : WritesWhole cs sign ds) (ht : WritesWhole tail [] es) :
    readRatio (String.ofList (cs ++ '/' :: tail)) =
      if maxIntDigits < ds.length ∨ maxIntDigits < es.length then .error .malformed
      else if digitsToNat es = 0 then .error .zeroDenominator
      else .ok (signedBy sign (digitsToNat ds) / digitsToNat es) := by
  have htrim : trimChars (cs ++ '/' :: tail) = cs ++ '/' :: tail := by
    refine stripped_of_endsKept (.of_forall fun c hc => ?_)
    rcases List.mem_append.mp hc with hc | hc
    · exact h.isBlank_eq_false c hc
    rcases List.mem_cons.mp hc with rfl | hc
    · decide
    · exact ht.isBlank_eq_false c hc
  have hchars : dropUnderscores false (plainDigits (cs ++ '/' :: tail)) = some (sign ++ (ds ++ '/' :: es)) := by
    rw [plainDigits_slash, dropUnderscores_slash, h.chars, ht.chars, ← List.append_assoc]
    rfl
  have hsign : takeSign (sign ++ (ds ++ '/' :: es)) = (sign == ['-'], ds ++ '/' :: es) := by
    rw [← List.append_assoc, takeSign_slash, h.takeSign_eq]
  rw [readRatio, String.toList_ofList, htrim, hchars]
  dsimp only
  rw [hsign]
  dsimp only
  rw [dropWhile_slash h.notMem_slash, takeWhile_slash h.notMem_slash]
  dsimp only
  by_cases hlong : maxIntDigits < ds.length
  · rw [h.readNat_eq, if_pos hlong, if_pos (Or.inl hlong)]
  by_cases hlong' : maxIntDigits < es.length
  · rw [ht.readNat_eq, if_pos hlong', if_pos (Or.inr hlong')]
    cases readNat ds <;> rfl
  rw [h.readNat_eq, ht.readNat_eq, if_neg hlong, if_neg hlong', if_neg (not_or.mpr ⟨hlong, hlong'⟩)]
  dsimp only
  refine if_congr Iff.rfl rfl (congrArg Except.ok ?_)
  rw [signedBy, Rat.mkRat_eq_div]
  simp only [beq_iff_eq]
  split
  · rw [Rat.div_def, Rat.div_def, Rat.neg_mul]
    rfl
  · rfl

theorem digits_of_readNat {cs : List Char} {n : Nat} (h : readNat cs = .ok n) : cs ≠ [] ∧ cs.all Char.isDigit = true := by
  rw [readNat] at h
  split at h
  · cases h
  · next hform => simpa using hform

theorem takeSign_split (cs : List Char) : ∃ sign, (sign = [] ∨ sign = ['-'] ∨ sign = ['+']) ∧ cs = sign ++ (takeSign cs).2 := by
  unfold takeSign
  split
  · exact ⟨['-'], .inr (.inl rfl), rfl⟩
  · exact ⟨['+'], .inr (.inr rfl), rfl⟩
  · exact ⟨[], .inl rfl, rfl⟩

/-- What is read as a ratio writes a whole number on either side of the slash. -/
theorem writesWhole_of_readRatio {cs tail : List Char} {r : Rat} (hcs : '/' ∉ cs)
    (hends : EndsKept isBlank (cs ++ '/' :: tail)) (h : readRatio (String.ofList (cs ++ '/' :: tail)) = .ok r) :
    ∃ sign ds es, WritesWhole cs sign ds ∧ WritesWhole tail [] es := by
  have htrim : trimChars (cs ++ '/' :: tail) = cs ++ '/' :: tail := stripped_of_endsKept hends
  rw [readRatio, String.toList_ofList, htrim, plainDigits_slash, dropUnderscores_slash] at h
  cases hds : dropUnderscores false (plainDigits cs) with
  | none =>
    rw [hds] at h
    cases h
  | some ds =>
    cases hes : dropUnderscores false (plainDigits tail) with
    | none =>
      rw [hds, hes] at h
      cases h
    | some es =>
      have hslash : '/' ∉ (takeSign ds).2 := fun hmem =>
        slash_notMem_plainDigits hcs (dropUnderscores_subset hds (takeSign_subset ds hmem))
      rw [hds, hes] at h
      dsimp only [Option.bind_some, Option.map_some] at h
      rw [takeSign_slash] at h
      dsimp only at h
      rw [dropWhile_slash hslash, takeWhile_slash hslash] at h
      dsimp only at h
      split at h
      · next hn hd =>
        obtain ⟨hne, hall⟩ := digits_of_readNat hn
        obtain ⟨hne', hall'⟩ := digits_of_readNat hd
        obtain ⟨sign, hsign, hsplit⟩ := takeSign_split ds
        exact ⟨sign, _, es, ⟨hds.trans (congrArg some hsplit), hsign, hne, hall⟩, ⟨hes, .inl rfl, hne', hall'⟩⟩
      · cases h

end Formula.Number
