import Formula.Number.Reading

/-!
# Numerals as texts

A numeral written with ordinary digits is a mantissa, with or without a point, and perhaps an exponent.  `readDouble`
reads every such text, however long, to the double nearest to the decimal that is written; and a text that ends behind
the sign of its exponent is no number.
-/

namespace Formula.Number

open Formula.Text

/-! ### Plain characters -/

/-- The printable characters of ASCII, the space left out. -/
def IsGraphic (c : Char) : Prop := 33 ≤ c.toNat ∧ c.toNat ≤ 126

instance (c : Char) : Decidable (IsGraphic c) := inferInstanceAs (Decidable (_ ∧ _))

theorem toNat_of_isDigit {c : Char} (h : c.isDigit = true) : 48 ≤ c.toNat ∧ c.toNat ≤ 57 := Char.isDigit_iff_toNat.mp h

theorem isGraphic_of_isDigit {c : Char} (h : c.isDigit = true) : IsGraphic c := by
  obtain ⟨h1, h2⟩ := toNat_of_isDigit h
  exact ⟨by omega, by omega⟩

theorem isBlank_of_isGraphic {c : Char} (h : IsGraphic c) : isBlank c = false := by
  obtain ⟨h1, h2⟩ := h
  refine Bool.eq_false_iff.mpr fun hb => ?_
  obtain ⟨r, hr, h3, h4⟩ := inRanges_iff.mp hb
  simp only [blankRanges, List.mem_cons, List.not_mem_nil, or_false] at hr
  rcases hr with rfl | rfl | rfl | rfl | rfl | rfl | rfl | rfl | rfl | rfl <;> dsimp only at h3 h4 <;> omega

theorem digitChar_of_isDigit {c : Char} (h : c.isDigit = true) : Nat.digitChar (c.toNat - 48) = c := by
  obtain ⟨h1, h2⟩ := toNat_of_isDigit h
  apply Char.toNat_inj.mp
  rw [Nat.toNat_digitChar_of_lt_ten (by omega)]
  omega

/-- Ordinary digits stand for themselves, and other plain characters for no digit. -/
theorem plainDigits_eq_self {cs : List Char} (h : ∀ c ∈ cs, IsGraphic c) : plainDigits cs = cs := by
  unfold plainDigits
  refine (List.map_congr_left fun c hc => ?_).trans (List.map_id cs)
  have hg := h c hc
  by_cases hd : c.isDigit = true
  · simp only [digitValue?, hd, if_true, id, digitChar_of_isDigit hd]
  · have hnone : zeros.find? (fun z => z ≤ c.toNat && c.toNat ≤ z + 9) = none := by
      refine List.find?_eq_none.mpr fun z hz => ?_
      have hmin : 1632 ≤ z := by
        have : ∀ z ∈ zeros, 1632 ≤ z := by decide
        exact this z hz
      have := hg.2
      simp only [Bool.and_eq_true, decide_eq_true_eq]
      omega
    simp only [digitValue?, hd, hnone, Option.map_none, id]
    rfl

theorem isNumberBlank_of_isGraphic {c : Char} (h : IsGraphic c) : isNumberBlank c = false := by
  unfold isNumberBlank
  rw [isBlank_of_isGraphic h, Bool.false_and]

theorem dropWhile_eq_self {p : Char → Bool} {cs : List Char} (h : ∀ c ∈ cs, p c = false) : cs.dropWhile p = cs := by
  cases cs with
  | nil => rfl
  | cons c rest => rw [List.dropWhile_cons_of_neg (by rw [h c List.mem_cons_self]; exact Bool.false_ne_true)]

theorem numberChars_ofList {cs : List Char} (h : ∀ c ∈ cs, IsGraphic c) : numberChars (String.ofList cs) = cs := by
  have hb : ∀ c ∈ cs, isNumberBlank c = false := fun c hc => isNumberBlank_of_isGraphic (h c hc)
  unfold numberChars
  rw [String.toList_ofList, dropWhile_eq_self hb, dropWhile_eq_self fun c hc => hb c (List.mem_reverse.mp hc),
    List.reverse_reverse, plainDigits_eq_self h]

theorem dropUnderscores_eq_self : ∀ {cs : List Char} {before : Bool}, (∀ c ∈ cs, c ≠ '_') →
    dropUnderscores before cs = some cs
  | [], _, _ => by rw [dropUnderscores]
  | c :: rest, before, h => by
    have hc : c ≠ '_' := h c List.mem_cons_self
    rw [dropUnderscores, if_neg hc, dropUnderscores_eq_self fun d hd => h d (List.mem_cons_of_mem _ hd), Option.map_some]
    rintro d tail rfl
    exact absurd rfl hc

/-! ### Mantissas and exponents -/

/-- Digits, with a point among them if `pointed` says so. -/
def IsMantissa (pointed : Bool) (cs : List Char) : Prop :=
  if pointed then ∃ w f : List Char, w.all Char.isDigit = true ∧ f.all Char.isDigit = true ∧ cs = w ++ '.' :: f
  else cs.all Char.isDigit = true

/-- Nothing, or an exponent with at least one digit. -/
def IsExponent (cs : List Char) : Prop :=
  cs = [] ∨ ∃ ds : List Char, ds ≠ [] ∧ ds.all Char.isDigit = true ∧
    (cs = 'e' :: ds ∨ cs = 'e' :: '+' :: ds ∨ cs = 'e' :: '-' :: ds)

theorem IsMantissa.snoc_digit {pointed : Bool} {m : List Char} {d : Char} (hm : IsMantissa pointed m)
    (hd : d.isDigit = true) : IsMantissa pointed (m ++ [d]) := by
  cases pointed with
  | false =>
    have hm : m.all Char.isDigit = true := hm
    show (m ++ [d]).all Char.isDigit = true
    rw [List.all_append, hm, List.all_cons, hd]
    rfl
  | true =>
    obtain ⟨w, f, hw, hf, rfl⟩ := hm
    refine ⟨w, f ++ [d], hw, ?_, ?_⟩
    · rw [List.all_append, hf, List.all_cons, hd]
      rfl
    · rw [List.append_assoc, List.cons_append]

theorem IsMantissa.snoc_point {m : List Char} (hm : IsMantissa false m) : IsMantissa true (m ++ ['.']) :=
  ⟨m, [], hm, rfl, rfl⟩

theorem IsExponent.snoc_digit {x : List Char} {d : Char} (hx : IsExponent x) (hne : x ≠ []) (hd : d.isDigit = true) :
    IsExponent (x ++ [d]) := by
  obtain rfl | ⟨ds, -, hds, rfl | rfl | rfl⟩ := hx
  · exact absurd rfl hne
  all_goals
    refine .inr ⟨ds ++ [d], by simp, ?_, ?_⟩
    · rw [List.all_append, hds, List.all_cons, hd]
      rfl
    · simp

theorem takeWhile_digits {ds rest : List Char} (hd : ds.all Char.isDigit = true)
    (hr : ∀ c, rest.head? = some c → c.isDigit = false) : (ds ++ rest).takeWhile Char.isDigit = ds := by
  rw [List.takeWhile_append_of_pos fun c hc => List.all_eq_true.mp hd c hc]
  cases rest with
  | nil => exact List.append_nil ds
  | cons c tail => rw [List.takeWhile_cons_of_neg (by rw [hr c rfl]; exact Bool.false_ne_true), List.append_nil]

theorem dropWhile_digits {ds rest : List Char} (hd : ds.all Char.isDigit = true)
    (hr : ∀ c, rest.head? = some c → c.isDigit = false) : (ds ++ rest).dropWhile Char.isDigit = rest := by
  rw [List.dropWhile_append_of_pos fun c hc => List.all_eq_true.mp hd c hc]
  cases rest with
  | nil => rfl
  | cons c tail => rw [List.dropWhile_cons_of_neg (by rw [hr c rfl]; exact Bool.false_ne_true)]

/-- A whole number in front of what is no digit and no point. -/
theorem readNumeral_whole {w x : List Char} (hw : w.all Char.isDigit = true) (hne : w ≠ [])
    (hx : ∀ c, x.head? = some c → c.isDigit = false ∧ c ≠ '.') :
    readNumeral (w ++ x) = (readExponent x).map fun e => ⟨w, [], e⟩ := by
  unfold readNumeral
  have hd : ∀ c, x.head? = some c → c.isDigit = false := fun c hc => (hx c hc).1
  rw [takeWhile_digits hw hd, dropWhile_digits hw hd]
  have hempty : w.isEmpty = false := by simpa using hne
  cases x with
  | nil => simp only [hempty, Bool.false_and, Bool.false_eq_true, if_false]
  | cons c tail =>
    have hc := (hx c rfl).2
    dsimp only
    split
    · rename_i heq
      exact absurd (List.cons.inj heq).1 hc
    · simp only [hempty, Bool.false_and, Bool.false_eq_true, if_false]

/-- Digits around a point in front of what is no digit. -/
theorem readNumeral_pointed {w f x : List Char} (hw : w.all Char.isDigit = true) (hf : f.all Char.isDigit = true)
    (hne : w ≠ [] ∨ f ≠ []) (hx : ∀ c, x.head? = some c → c.isDigit = false) :
    readNumeral (w ++ '.' :: (f ++ x)) = (readExponent x).map fun e => ⟨w, f, e⟩ := by
  unfold readNumeral
  have hd : ∀ c, ('.' :: (f ++ x)).head? = some c → c.isDigit = false := by
    rintro c ⟨⟩
    rfl
  rw [takeWhile_digits hw hd, dropWhile_digits hw hd]
  simp only [takeWhile_digits hf hx, dropWhile_digits hf hx]
  have hempty : (w.isEmpty && f.isEmpty) = false := by
    rcases hne with h | h <;> simp [h]
  simp only [hempty, Bool.false_eq_true, if_false]

theorem head?_of_isExponent {x : List Char} (h : IsExponent x) : ∀ c, x.head? = some c → c.isDigit = false ∧ c ≠ '.' := by
  intro c hc
  obtain rfl | ⟨ds, -, -, rfl | rfl | rfl⟩ := h
  · cases hc
  all_goals
    cases hc
    decide

/-- No sign stands in front of a digit or a point. -/
theorem takeSign_of_ne {c : Char} {rest : List Char} (hm : c ≠ '-') (hp : c ≠ '+') :
    takeSign (c :: rest) = (false, c :: rest) := by
  unfold takeSign
  split
  · rename_i h
    exact absurd (List.cons.inj h).1 hm
  · rename_i h
    exact absurd (List.cons.inj h).1 hp
  · rfl

theorem takeSign_of_isDigit {d : Char} {rest : List Char} (h : d.isDigit = true) :
    takeSign (d :: rest) = (false, d :: rest) := by
  refine takeSign_of_ne ?_ ?_
  · rintro rfl
    exact absurd h (by decide)
  · rintro rfl
    exact absurd h (by decide)

theorem readExponent_isSome {x : List Char} (h : IsExponent x) : ∃ e, readExponent x = some e := by
  obtain rfl | ⟨ds, hne, hd, rfl | rfl | rfl⟩ := h
  · exact ⟨_, rfl⟩
  · have hs : takeSign ds = (false, ds) := by
      obtain ⟨d, ds, rfl⟩ := List.exists_cons_of_ne_nil hne
      have hdigit : d.isDigit = true := List.all_eq_true.mp hd d List.mem_cons_self
      exact takeSign_of_isDigit hdigit
    exact ⟨⟨false, ds⟩, by simp [readExponent, hs, hne, hd]⟩
  · exact ⟨⟨false, ds⟩, by simp [readExponent, takeSign, hne, hd]⟩
  · exact ⟨⟨true, ds⟩, by simp [readExponent, takeSign, hne, hd]⟩

/-- An exponent without digits is none. -/
theorem readExponent_bare {s : Char} (hs : s = '+' ∨ s = '-') : readExponent ['e', s] = none := by
  rcases hs with rfl | rfl <;> rfl

/-! ### Doubles from numerals -/

theorem toLower_of_lt {c : Char} (h : c.toNat < 65) : c.toLower = c := by
  unfold Char.toLower
  have : ¬('A'.val ≤ c.val ∧ c.val ≤ 'Z'.val) := fun hc => by
    have := UInt32.le_iff_toNat_le.mp hc.1
    exact absurd (Nat.le_trans (by decide : 65 ≤ 'A'.val.toNat) this) (Nat.not_le.mpr h)
  rw [dif_neg this]

/-- No word for a special value begins with a digit or a point. -/
theorem specialWord?_eq_none {c : Char} {rest : List Char} (negative : Bool) (h : c.toNat < 65) :
    specialWord? negative (c :: rest) = none := by
  have hword : ∀ (d : Char) (ds : List Char), 65 ≤ d.toNat →
      String.ofList ((c :: rest).map Char.toLower) ≠ String.ofList (d :: ds) := by
    intro d ds hd heq
    have := congrArg String.toList heq
    simp only [String.toList_ofList, List.map_cons, toLower_of_lt h] at this
    have := congrArg Char.toNat (List.cons.inj this).1
    omega
  unfold specialWord?
  have h1 := hword 'i' ['n', 'f'] (by decide)
  have h2 := hword 'i' ['n', 'f', 'i', 'n', 'i', 't', 'y'] (by decide)
  have h3 := hword 'n' ['a', 'n'] (by decide)
  rw [if_neg (not_or.mpr ⟨h1, h2⟩), if_neg h3]

/-- A text that begins with a digit or a point is read as a numeral. -/
theorem readDouble_ofList {c : Char} {rest : List Char} (hg : ∀ d ∈ c :: rest, IsGraphic d) (hu : ∀ d ∈ c :: rest, d ≠ '_')
    (hc : c.isDigit = true ∨ c = '.') :
    readDouble (String.ofList (c :: rest)) = (readNumeral (c :: rest)).map fun n => .ofDecimal false n.toDecimal := by
  have hlt : c.toNat < 65 := by
    rcases hc with h | rfl
    · have := toNat_of_isDigit h
      omega
    · decide
  have hsign : takeSign (c :: rest) = (false, c :: rest) := by
    rcases hc with h | rfl
    · exact takeSign_of_isDigit h
    · rfl
  unfold readDouble
  rw [numberChars_ofList hg, dropUnderscores_eq_self hu]
  simp only [hsign, specialWord?_eq_none false hlt]

/-- The characters of a mantissa and an exponent. -/
def IsNumeralChar (c : Char) : Prop := c.isDigit = true ∨ c = '.' ∨ c = 'e' ∨ c = '+' ∨ c = '-'

theorem IsNumeralChar.isGraphic {c : Char} (h : IsNumeralChar c) : IsGraphic c := by
  rcases h with h | rfl | rfl | rfl | rfl
  · exact isGraphic_of_isDigit h
  all_goals decide

theorem IsNumeralChar.ne_underscore {c : Char} (h : IsNumeralChar c) : c ≠ '_' := by
  rintro rfl
  rcases h with h | h | h | h | h <;> exact absurd h (by decide)

theorem isNumeralChar_of_all {ds : List Char} (h : ds.all Char.isDigit = true) : ∀ c ∈ ds, IsNumeralChar c :=
  fun c hc => .inl (List.all_eq_true.mp h c hc)

theorem isNumeralChar_of_isMantissa {pointed : Bool} {m : List Char} (h : IsMantissa pointed m) :
    ∀ c ∈ m, IsNumeralChar c := by
  cases pointed with
  | false => exact isNumeralChar_of_all h
  | true =>
    obtain ⟨w, f, hw, hf, rfl⟩ := h
    intro c hc
    rcases List.mem_append.mp hc with hc | hc
    · exact isNumeralChar_of_all hw c hc
    · rcases List.mem_cons.mp hc with rfl | hc
      · exact .inr (.inl rfl)
      · exact isNumeralChar_of_all hf c hc

theorem isNumeralChar_of_isExponent {x : List Char} (h : IsExponent x) : ∀ c ∈ x, IsNumeralChar c := by
  intro c hc
  obtain rfl | ⟨ds, -, hd, rfl | rfl | rfl⟩ := h
  · cases hc
  · rcases List.mem_cons.mp hc with rfl | hc
    · exact .inr (.inr (.inl rfl))
    · exact isNumeralChar_of_all hd c hc
  · rcases List.mem_cons.mp hc with rfl | hc
    · exact .inr (.inr (.inl rfl))
    · rcases List.mem_cons.mp hc with rfl | hc
      · exact .inr (.inr (.inr (.inl rfl)))
      · exact isNumeralChar_of_all hd c hc
  · rcases List.mem_cons.mp hc with rfl | hc
    · exact .inr (.inr (.inl rfl))
    · rcases List.mem_cons.mp hc with rfl | hc
      · exact .inr (.inr (.inr (.inr rfl)))
      · exact isNumeralChar_of_all hd c hc

/-- A mantissa with a digit in front of what is no digit and no point: the numeral hangs on what stands there alone. -/
theorem readNumeral_mantissa {pointed : Bool} {m x : List Char} (hm : IsMantissa pointed m)
    (hd : m.any Char.isDigit = true) (hx : ∀ c, x.head? = some c → c.isDigit = false ∧ c ≠ '.') :
    ∃ w f : List Char, readNumeral (m ++ x) = (readExponent x).map fun e => ⟨w, f, e⟩ := by
  cases pointed with
  | false =>
    refine ⟨m, [], readNumeral_whole hm ?_ hx⟩
    rintro rfl
    cases hd
  | true =>
    obtain ⟨w, f, hw, hf, rfl⟩ := hm
    refine ⟨w, f, ?_⟩
    rw [List.append_assoc, List.cons_append]
    refine readNumeral_pointed hw hf ?_ fun c hc => (hx c hc).1
    by_cases hne : w = []
    · refine .inr ?_
      rintro rfl
      rw [hne] at hd
      exact absurd hd (by decide)
    · exact .inl hne

theorem head_of_isMantissa {pointed : Bool} {m : List Char} (hm : IsMantissa pointed m) (hd : m.any Char.isDigit = true) :
    ∃ c rest, m = c :: rest ∧ (c.isDigit = true ∨ c = '.') := by
  cases m with
  | nil => cases hd
  | cons c rest =>
    refine ⟨c, rest, rfl, ?_⟩
    cases pointed with
    | false => exact .inl (List.all_eq_true.mp hm c List.mem_cons_self)
    | true =>
      obtain ⟨w, f, hw, -, h⟩ := hm
      cases w with
      | nil => exact .inr (List.cons.inj h).1
      | cons d w =>
        rw [(List.cons.inj h).1]
        exact .inl (List.all_eq_true.mp hw d List.mem_cons_self)

/-- **A mantissa with a digit and an exponent are a number.** -/
theorem readDouble_isSome {pointed : Bool} {m x : List Char} (hm : IsMantissa pointed m) (hd : m.any Char.isDigit = true)
    (hx : IsExponent x) : ∃ d, readDouble (String.ofList (m ++ x)) = some d := by
  have hall : ∀ c ∈ m ++ x, IsNumeralChar c := by
    intro c hc
    rcases List.mem_append.mp hc with hc | hc
    · exact isNumeralChar_of_isMantissa hm c hc
    · exact isNumeralChar_of_isExponent hx c hc
  obtain ⟨w, f, hread⟩ := readNumeral_mantissa hm hd (head?_of_isExponent hx)
  obtain ⟨e, he⟩ := readExponent_isSome hx
  obtain ⟨c, rest, rfl, hc⟩ := head_of_isMantissa hm hd
  rw [List.cons_append] at hall hread ⊢
  rw [readDouble_ofList (fun d hd => (hall d hd).isGraphic) (fun d hd => (hall d hd).ne_underscore) hc, hread, he]
  exact ⟨_, rfl⟩

/-- **Behind the sign of an exponent there has to be a digit.** -/
theorem readDouble_bare_exponent {pointed : Bool} {m : List Char} {s : Char} (hm : IsMantissa pointed m)
    (hd : m.any Char.isDigit = true) (hs : s = '+' ∨ s = '-') :
    readDouble (String.ofList (m ++ ['e', s])) = none := by
  have hall : ∀ c ∈ m ++ ['e', s], IsNumeralChar c := by
    intro c hc
    rcases List.mem_append.mp hc with hc | hc
    · exact isNumeralChar_of_isMantissa hm c hc
    · rcases List.mem_cons.mp hc with rfl | hc
      · exact .inr (.inr (.inl rfl))
      · rw [List.mem_singleton.mp hc]
        exact .inr (.inr (.inr hs))
  obtain ⟨w, f, hread⟩ := readNumeral_mantissa (x := ['e', s]) hm hd (by rintro c ⟨⟩; decide)
  obtain ⟨c, rest, rfl, hc⟩ := head_of_isMantissa hm hd
  rw [List.cons_append] at hall hread ⊢
  rw [readDouble_ofList (fun d hd => (hall d hd).isGraphic) (fun d hd => (hall d hd).ne_underscore) hc, hread,
    readExponent_bare hs]
  rfl

end Formula.Number
