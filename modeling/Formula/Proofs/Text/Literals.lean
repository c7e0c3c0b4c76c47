import Mathlib.Algebra.GroupWithZero.Nat
import Mathlib.Data.Set.Function
import Formula.Datum
import Formula.Json
import Formula.Text.Quoted

/-!
# Literals tell their end

A value that stands in a row of values is written on its own: numbers and names of values without a comma or a parenthesis in
them, and texts in quotes.  The characters between quotes are read back one by one (`readCharacter_quotedChar`), and none of them
begins with the quote that closes the text, so that of two quoted texts with something behind them that are the same, the texts
are the same and what is behind them (`quoted_split`).  So each literal tells where it ends, and which kind of value it is: a
floating-point number has a point, an exponent or a name, a whole number none of them, and no number begins with a capital letter.

Main statement: `IsLabel.split`, that what stands in front of a comma or a parenthesis is the literal of one label only, if
the floating-point numbers among the labels have different texts.
-/

namespace Formula

open Number Text

namespace Text

/-! ### Characters of closed texts -/

/-- A property of all characters of a row is decided along the row, and not along all characters that there are. -/
instance decidableAllChars (p : Char → Prop) [DecidablePred p] (cs : List Char) : Decidable (∀ c ∈ cs, p c) :=
  List.decidableBAll p cs

instance decidableSomeChar (p : Char → Prop) [DecidablePred p] (cs : List Char) : Decidable (∃ c ∈ cs, p c) :=
  List.decidableBEx p cs

/-! ### Hexadecimal digits -/

/-- The number that hexadecimal digits write. -/
def hexValue (cs : List Char) : Nat := cs.foldl (fun n c => 16 * n + (Json.hexDigit? c).getD 0) 0

theorem hexValue_toDigits (n : Nat) : hexValue (Nat.toDigits 16 n) = n := by
  have hdigit : ∀ d < 16, (Json.hexDigit? (Nat.digitChar d)).getD 0 = d := by decide
  induction n using Nat.strongRecOn with
  | ind n ih =>
    rcases Nat.lt_or_ge n 16 with hlt | hge
    · rw [Nat.toDigits_of_lt_base hlt, hexValue, List.foldl_cons, List.foldl_nil, hdigit n hlt]
      exact Nat.zero_add n
    · have hfront : hexValue (Nat.toDigits 16 (n / 16)) = n / 16 := ih _ (Nat.div_lt_self (by omega) (by decide))
      rw [Nat.toDigits_of_base_le (by decide) hge, hexValue, List.foldl_append, ← hexValue, hfront, List.foldl_cons,
        List.foldl_nil, hdigit _ (Nat.mod_lt n (by decide))]
      exact Nat.div_add_mod n 16

/-- Zeros in front do not count. -/
theorem hexValue_hexChars (width n : Nat) : hexValue (hexChars width n) = n := by
  have hzeros : ∀ k, (List.replicate k '0').foldl (fun n c => 16 * n + (Json.hexDigit? c).getD 0) 0 = 0 := by
    intro k
    induction k with
    | zero => rfl
    | succ k ih =>
      rw [List.replicate_succ, List.foldl_cons]
      exact ih
  rw [hexChars, hexValue, List.foldl_append, hzeros, ← hexValue, hexValue_toDigits]

theorem length_hexChars {width n : Nat} (hpos : 0 < width) (h : n < 16 ^ width) : (hexChars width n).length = width := by
  have hle := (Nat.length_toDigits_le_iff (by decide) hpos).mpr h
  rw [hexChars, List.length_append, List.length_replicate]
  omega

/-! ### Characters between quotes -/

/-- How many hexadecimal digits stand behind a letter that announces a code point. -/
def codeWidth? (c : Char) : Option Nat := [('x', 2), ('u', 4), ('U', 8)].lookup c

/-- The character that stands between quotes in front, and what is behind it. -/
def readCharacter : List Char → Option (Char × List Char)
  | '\\' :: c :: rest =>
    if c = 'n' then some ('\n', rest)
    else if c = 'r' then some ('\r', rest)
    else if c = 't' then some ('\t', rest)
    else match codeWidth? c with
      | some width => some (Char.ofNat (hexValue (rest.take width)), rest.drop width)
      | none => some (c, rest)
  | c :: rest => some (c, rest)
  | [] => none

/-- A code point is read back from its digits. -/
theorem readCharacter_code {mark : Char} {width : Nat} (hmark : (mark, width) ∈ [('x', 2), ('u', 4), ('U', 8)]) {c : Char}
    (h : c.toNat < 16 ^ width) (rest : List Char) :
    readCharacter ('\\' :: mark :: (hexChars width c.toNat ++ rest)) = some (c, rest) := by
  have hfacts : ∀ p ∈ [('x', 2), ('u', 4), ('U', 8)], p.1 ≠ 'n' ∧ p.1 ≠ 'r' ∧ p.1 ≠ 't' ∧ codeWidth? p.1 = some p.2 ∧ 0 < p.2 := by
    decide
  obtain ⟨hn, hr, ht, hwidth, hpos⟩ := hfacts _ hmark
  have hlength := length_hexChars hpos h
  rw [readCharacter, if_neg hn, if_neg hr, if_neg ht, hwidth]
  dsimp only
  rw [List.take_left' hlength, List.drop_left' hlength, hexValue_hexChars, Char.ofNat_toNat]

variable {quote : Char} (hquote : quote ∈ ['\'', '"'])

include hquote

/-- **Every character is read back from between the quotes.** -/
theorem readCharacter_quotedChar (c : Char) (rest : List Char) : readCharacter (quotedChar quote c ++ rest) = some (c, rest) := by
  have hself : ∀ d ∈ ['\'', '"', '\\'], readCharacter ('\\' :: d :: rest) = some (d, rest) := by
    intro d hd
    simp only [List.mem_cons, List.not_mem_nil, or_false] at hd
    rcases hd with rfl | rfl | rfl <;> rfl
  unfold quotedChar
  split
  next h =>
    refine hself c ?_
    rcases h with rfl | rfl
    · exact List.mem_append_left ['\\'] hquote
    · decide
  next hplain =>
    split
    next h => rw [h]; rfl
    split
    next h => rw [h]; rfl
    split
    next h => rw [h]; rfl
    split
    next =>
      rw [List.singleton_append, readCharacter.eq_def]
      split
      next heq =>
        cases heq
        exact absurd (Or.inr rfl) hplain
      next heq =>
        cases heq
        rfl
      next heq => cases heq
    split
    next h => exact readCharacter_code (by decide) h rest
    split
    next h => exact readCharacter_code (by decide) h rest
    next => exact readCharacter_code (by decide) c.val.toNat_lt rest

/-- No character between the quotes begins with the quote. -/
theorem quotedChar_ne_quote (c : Char) : ∃ d more, quotedChar quote c = d :: more ∧ d ≠ quote := by
  have hslash : '\\' ≠ quote := by
    rintro rfl
    exact absurd hquote (by decide)
  unfold quotedChar
  split
  next => exact ⟨_, _, rfl, hslash⟩
  next hplain =>
    repeat' split
    all_goals first
      | exact ⟨_, _, rfl, hslash⟩
      | exact ⟨_, _, rfl, fun h => hplain (.inl h)⟩

/-- The characters of a text end at the quote that closes it. -/
theorem quotedChars_split {cs : List Char} : ∀ {ds x y : List Char},
    cs.flatMap (quotedChar quote) ++ quote :: x = ds.flatMap (quotedChar quote) ++ quote :: y → cs = ds ∧ x = y := by
  induction cs with
  | nil =>
    rintro (_ | ⟨d, ds⟩) x y h
    · exact ⟨rfl, (List.cons.inj h).2⟩
    · obtain ⟨e, more, hd, hne⟩ := quotedChar_ne_quote hquote d
      rw [List.flatMap_cons, hd] at h
      exact absurd (List.cons.inj h).1.symm hne
  | cons c cs ih =>
    rintro (_ | ⟨d, ds⟩) x y h
    · obtain ⟨e, more, hc, hne⟩ := quotedChar_ne_quote hquote c
      rw [List.flatMap_cons, hc] at h
      exact absurd (List.cons.inj h).1 hne
    · rw [List.flatMap_cons, List.flatMap_cons, List.append_assoc, List.append_assoc] at h
      have hread := congrArg readCharacter h
      rw [readCharacter_quotedChar hquote, readCharacter_quotedChar hquote] at hread
      obtain ⟨rfl, hrest⟩ := Prod.mk.inj (Option.some.inj hread)
      obtain ⟨rfl, rfl⟩ := ih hrest
      exact ⟨rfl, rfl⟩

omit hquote

theorem quoteFor_mem (cs : List Char) : quoteFor cs ∈ ['\'', '"'] := by
  unfold quoteFor
  split <;> decide

/-- **A quoted text tells its end**: two of them with something behind them are the same only if their texts are. -/
theorem quoted_split {s t : String} {x y : List Char} (h : (quoted s).toList ++ x = (quoted t).toList ++ y) : s = t ∧ x = y := by
  simp only [quoted, String.toList_ofList, List.cons_append, List.append_assoc] at h
  obtain ⟨hquote, hrest⟩ := List.cons.inj h
  rw [← hquote] at hrest
  obtain ⟨hchars, hbehind⟩ := quotedChars_split (quoteFor_mem s.toList) hrest
  exact ⟨String.toList_inj.mp hchars, hbehind⟩

end Text

/-- Two lists that are the same up to the first element of a kind are the same up to there, and from there on. -/
theorem split_first {α : Type} {p : α → Prop} {front front' : List α} {c d : α} {x y : List α} (h : ∀ e ∈ front, ¬ p e)
    (h' : ∀ e ∈ front', ¬ p e) (hc : p c) (hd : p d) (heq : front ++ c :: x = front' ++ d :: y) :
    front = front' ∧ c :: x = d :: y := by
  induction front generalizing front' with
  | nil =>
    cases front' with
    | nil => exact ⟨rfl, heq⟩
    | cons e front' => exact absurd ((List.cons.inj heq).1 ▸ hc) (h' e List.mem_cons_self)
  | cons e front ih =>
    cases front' with
    | nil => exact absurd ((List.cons.inj heq).1.symm ▸ hd) (h e List.mem_cons_self)
    | cons e' front' =>
      obtain ⟨rfl, hrest⟩ := List.cons.inj heq
      obtain ⟨rfl, hbehind⟩ := ih (fun a ha => h a (List.mem_cons_of_mem _ ha)) (fun a ha => h' a (List.mem_cons_of_mem _ ha)) hrest
      exact ⟨rfl, hbehind⟩

/-! ### Whole numbers -/

namespace Number

theorem isDigit_of_mem_toDigits {n : Nat} {c : Char} (h : c ∈ Nat.toDigits 10 n) : c.isDigit = true :=
  Nat.isDigit_of_mem_toDigits (by decide) (by decide) h

theorem toList_intText (n : Int) :
    (intText n).toList = if n < 0 then '-' :: Nat.toDigits 10 n.natAbs else Nat.toDigits 10 n.natAbs := by
  unfold intText
  split
  · rw [String.toList_append, String.toList_ofList, String.toList_ofList]
    rfl
  · rw [String.toList_ofList]

theorem mem_intText {n : Int} {c : Char} (h : c ∈ (intText n).toList) : c.isDigit = true ∨ c = '-' := by
  rw [toList_intText] at h
  split at h
  · rcases List.mem_cons.mp h with rfl | h
    · exact .inr rfl
    · exact .inl (isDigit_of_mem_toDigits h)
  · exact .inl (isDigit_of_mem_toDigits h)

theorem intText_ne_empty (n : Int) : (intText n).toList ≠ [] := by
  rw [toList_intText]
  split
  · exact List.cons_ne_nil _ _
  · exact Nat.toDigits_ne_nil

theorem intText_injective : Function.Injective intText := by
  have hdigits : ∀ {m k : Nat}, Nat.toDigits 10 m = Nat.toDigits 10 k → m = k := fun h => by
    have := congrArg (Nat.ofDigitChars 10 · 0) h
    rwa [Nat.ofDigitChars_ten_toDigits, Nat.ofDigitChars_ten_toDigits] at this
  have hsign : ∀ {m : Nat} {cs : List Char}, '-' :: cs ≠ Nat.toDigits 10 m := fun h =>
    absurd (isDigit_of_mem_toDigits (h ▸ List.mem_cons_self)) (by decide)
  intro n k h
  rw [← String.toList_inj, toList_intText, toList_intText] at h
  split at h <;> split at h
  · have := hdigits (List.cons.inj h).2
    omega
  · exact absurd h hsign
  · exact absurd h.symm hsign
  · have := hdigits h
    omega

/-! ### Floating-point numbers -/

/-- The characters of floating-point numbers that are no digits. -/
def floatSigns : List Char := ['.', 'e', '+', '-', 'i', 'n', 'f', 'a']

/-- The characters by which a floating-point number is told from a whole number. -/
def floatMarks : List Char := ['.', 'e', 'n']

/-- The characters are digits and signs, one of which tells a floating-point number from a whole number. -/
structure IsFloatText (cs : List Char) : Prop where
  chars : ∀ c ∈ cs, c.isDigit = true ∨ c ∈ floatSigns
  marked : ∃ c ∈ cs, c ∈ floatMarks

theorem isDigit_of_mem_zeroChars {n : Nat} {c : Char} (h : c ∈ zeroChars n) : c.isDigit = true := by
  rw [List.eq_of_mem_replicate h]
  rfl

theorem isFloatText_positional {digits : List Char} (h : ∀ c ∈ digits, c.isDigit = true) (point : Int) :
    IsFloatText (positional digits point) := by
  have hmem : ∀ c ∈ positional digits point, c = '.' ∨ c.isDigit = true := by
    intro c hc
    unfold positional at hc
    split at hc
    · simp only [List.mem_cons, List.mem_append] at hc
      rcases hc with rfl | rfl | hc | hc
      · exact .inr rfl
      · exact .inl rfl
      · exact .inr (isDigit_of_mem_zeroChars hc)
      · exact .inr (h c hc)
    · dsimp only at hc
      split at hc
      · simp only [List.mem_append, List.mem_cons, List.not_mem_nil, or_false] at hc
        rcases hc with (hc | hc) | rfl | rfl
        · exact .inr (h c hc)
        · exact .inr (isDigit_of_mem_zeroChars hc)
        · exact .inl rfl
        · exact .inr rfl
      · rcases List.mem_append.mp hc with hc | hc
        · exact .inr (h c (List.mem_of_mem_take hc))
        rcases List.mem_cons.mp hc with rfl | hc
        · exact .inl rfl
        · exact .inr (h c (List.mem_of_mem_drop hc))
  refine ⟨fun c hc => (hmem c hc).symm.imp_right ?_, '.', ?_, by decide⟩
  · rintro rfl
    decide
  · unfold positional
    split
    · simp
    · dsimp only
      split <;> simp

theorem isFloatText_scientific {digits : List Char} (h : ∀ c ∈ digits, c.isDigit = true) (e : Int) :
    IsFloatText (scientific digits e) := by
  have hplaces : ∀ c ∈ (if (Nat.toDigits 10 e.natAbs).length < 2 then '0' :: Nat.toDigits 10 e.natAbs
      else Nat.toDigits 10 e.natAbs), c.isDigit = true := by
    intro c hc
    split at hc
    · rcases List.mem_cons.mp hc with rfl | hc
      · rfl
      · exact isDigit_of_mem_toDigits hc
    · exact isDigit_of_mem_toDigits hc
  unfold scientific
  dsimp only
  refine ⟨fun c hc => ?_, 'e', List.mem_append_right _ List.mem_cons_self, by decide⟩
  rcases List.mem_append.mp hc with hc | hc
  · split at hc
    · cases hc
    · exact .inl (h c hc)
    · rcases List.mem_cons.mp hc with rfl | hc
      · exact .inl (h _ List.mem_cons_self)
      rcases List.mem_cons.mp hc with rfl | hc
      · exact .inr (by decide)
      · exact .inl (h c (List.mem_cons_of_mem _ hc))
  · rcases List.mem_cons.mp hc with rfl | hc
    · exact .inr (by decide)
    rcases List.mem_cons.mp hc with rfl | hc
    · right
      split <;> decide
    · exact .inl (hplaces c hc)

theorem isFloatText_text (x : Double) : IsFloatText x.text.toList := by
  cases x with
  | nan => exact ⟨by decide, 'n', by decide, by decide⟩
  | infinite negative => cases negative <;> exact ⟨by decide, 'n', by decide, by decide⟩
  | finite negative m q =>
    have hmagnitude : IsFloatText (if m = 0 then ['0', '.', '0'] else (Double.shortest m q).chars) := by
      split
      · exact ⟨by decide, '.', by decide, by decide⟩
      · have hdigits : ∀ c ∈ (Double.shortest m q).digitChars, c.isDigit = true := fun c hc => isDigit_of_mem_toDigits hc
        unfold Decimal.chars
        dsimp only
        split
        · exact isFloatText_positional hdigits _
        · exact isFloatText_scientific hdigits _
    rw [Double.text, String.toList_ofList]
    split
    · obtain ⟨c, hc, hmark⟩ := hmagnitude.marked
      refine ⟨fun d hd => ?_, c, List.mem_cons_of_mem _ hc, hmark⟩
      rcases List.mem_cons.mp hd with rfl | hd
      · exact .inr (by decide)
      · exact hmagnitude.chars d hd
    · exact hmagnitude

end Number

namespace Datum

/-! ### Labels -/

/-- Values that are written without quotes, of which the floating-point numbers are among those given. -/
inductive IsPlain (floats : Set Double) : Datum → Prop
  | null : IsPlain floats null
  | bool (b : Bool) : IsPlain floats (bool b)
  | int (n : Int) : IsPlain floats (int n)
  | float {x : Double} : x ∈ floats → IsPlain floats (float x)

/-- Labels of nodes: values that are written without quotes, texts, and the two delimiters of a fence. -/
inductive IsLabel (floats : Set Double) : Datum → Prop
  | plain {v : Datum} : v.IsPlain floats → IsLabel floats v
  | text (s : String) : IsLabel floats (text s)
  | pair (left right : String) : IsLabel floats (tuple [.text left, .text right])

variable {floats : Set Double} {v w : Datum}

/-- The characters that separate values and stand around them. -/
def separators : List Char := [',', ')', '(', '\'', '"']

theorem not_mem_separators {c : Char} (h : c.isDigit = true ∨ c ∈ floatSigns ∨ c.isAlpha = true) : c ∉ separators := by
  have hfacts : ∀ d ∈ separators, d.isDigit = false ∧ d ∉ floatSigns ∧ d.isAlpha = false := by decide
  intro hc
  obtain ⟨hdigit, hsign, hletter⟩ := hfacts c hc
  rcases h with h | h | h
  · rw [h] at hdigit
    cases hdigit
  · exact hsign h
  · rw [h] at hletter
    cases hletter

/-- The literal of a value without quotes is not empty, and nothing in it separates values. -/
theorem IsPlain.literal_chars (h : v.IsPlain floats) : v.literal.toList ≠ [] ∧ ∀ c ∈ v.literal.toList, c ∉ separators := by
  cases h with
  | null => exact ⟨by decide, by decide⟩
  | bool b => cases b <;> exact ⟨by decide, by decide⟩
  | int n =>
    refine ⟨intText_ne_empty n, fun c hc => not_mem_separators ((mem_intText hc).imp_right fun h => .inl ?_)⟩
    rw [h]
    decide
  | @float x hx =>
    obtain ⟨c, hc, -⟩ := (isFloatText_text x).marked
    exact ⟨List.ne_nil_of_mem hc, fun c hc => not_mem_separators (((isFloatText_text x).chars c hc).imp_right .inl)⟩

theorem intText_ne_text (n : Int) (x : Double) : intText n ≠ x.text := by
  intro h
  have hfacts : ∀ d ∈ floatMarks, d.isDigit = false ∧ d ≠ '-' := by decide
  obtain ⟨c, hc, hmark⟩ := (isFloatText_text x).marked
  obtain ⟨hdigit, hminus⟩ := hfacts c hmark
  rw [← h] at hc
  rcases mem_intText hc with hc | hc
  · rw [hc] at hdigit
    cases hdigit
  · exact hminus hc

/-- The first letters of the names of values. -/
def capitals : List Char := ['N', 'T', 'F']

/-- No number is written with the first letter of a name. -/
theorem not_mem_capitals {c : Char} (h : c.isDigit = true ∨ c ∈ floatSigns) : c ∉ capitals := by
  have hfacts : ∀ d ∈ capitals, d.isDigit = false ∧ d ∉ floatSigns := by decide
  intro hc
  obtain ⟨hdigit, hsign⟩ := hfacts c hc
  rcases h with h | h
  · rw [h] at hdigit
    cases hdigit
  · exact hsign h

theorem ne_of_capitals {s t : String} (hs : ∃ c ∈ s.toList, c ∈ capitals) (ht : ∀ c ∈ t.toList, c ∉ capitals) : s ≠ t := by
  rintro rfl
  obtain ⟨c, hc, hcapital⟩ := hs
  exact ht c hc hcapital

theorem intText_capitals (n : Int) : ∀ c ∈ (intText n).toList, c ∉ capitals := fun c hc =>
  not_mem_capitals ((mem_intText hc).imp_right (by rintro rfl; decide))

theorem text_capitals (x : Double) : ∀ c ∈ x.text.toList, c ∉ capitals := fun c hc =>
  not_mem_capitals ((isFloatText_text x).chars c hc)

/-- Values with the same literal are the same. -/
theorem IsPlain.literal_injective (hfloats : floats.InjOn Double.text) (h : v.IsPlain floats) (h' : w.IsPlain floats)
    (heq : v.literal = w.literal) : v = w := by
  have hbool : ∀ b, ∃ c ∈ (Datum.bool b).literal.toList, c ∈ capitals := fun b => by cases b <;> decide
  cases h with
  | null =>
    cases h' with
    | null => rfl
    | bool b => cases b <;> exact absurd heq (by decide)
    | int n => exact absurd heq (ne_of_capitals (by decide) (intText_capitals n))
    | float _ => exact absurd heq (ne_of_capitals (by decide) (text_capitals _))
  | bool b =>
    cases h' with
    | null => cases b <;> exact absurd heq (by decide)
    | bool b' => cases b <;> cases b' <;> first | rfl | exact absurd heq (by decide)
    | int n => exact absurd heq (ne_of_capitals (hbool b) (intText_capitals n))
    | float _ => exact absurd heq (ne_of_capitals (hbool b) (text_capitals _))
  | int n =>
    cases h' with
    | null => exact absurd heq.symm (ne_of_capitals (by decide) (intText_capitals n))
    | bool b => exact absurd heq.symm (ne_of_capitals (hbool b) (intText_capitals n))
    | int n' => exact congrArg Datum.int (intText_injective heq)
    | float _ => exact absurd heq (intText_ne_text n _)
  | float hx =>
    cases h' with
    | null => exact absurd heq.symm (ne_of_capitals (by decide) (text_capitals _))
    | bool b => exact absurd heq.symm (ne_of_capitals (hbool b) (text_capitals _))
    | int n => exact absurd heq.symm (intText_ne_text n _)
    | float hy => exact congrArg Datum.float (hfloats hx hy heq)

/-! ### The end of a literal -/

theorem toList_pair (left right : String) : (tuple [.text left, .text right]).literal.toList =
    '(' :: ((quoted left).toList ++ ',' :: ' ' :: ((quoted right).toList ++ [')'])) := by
  show ("(" ++ ", ".intercalate [quoted left, quoted right] ++ ")").toList = _
  have hopen : ("(" : String).toList = ['('] := rfl
  have hclose : (")" : String).toList = [')'] := rfl
  have hcomma : (", " : String).toList = [',', ' '] := rfl
  rw [String.intercalate_cons_cons, String.intercalate_singleton]
  simp only [String.toList_append, List.append_assoc, hopen, hclose, hcomma, List.cons_append, List.nil_append]

theorem toList_quoted (s : String) : ∃ quote more, (quoted s).toList = quote :: more ∧ quote ∈ ['\'', '"'] :=
  ⟨_, _, String.toList_ofList, quoteFor_mem _⟩

/-- A literal without quotes begins with no quote and no parenthesis. -/
theorem IsPlain.literal_ne (h : v.IsPlain floats) {first : Char} (hfirst : first ∈ separators) (more rest : List Char) :
    v.literal.toList ++ rest ≠ first :: more := by
  obtain ⟨hne, hchars⟩ := h.literal_chars
  obtain ⟨e, others, he⟩ := List.exists_cons_of_ne_nil hne
  intro heq
  rw [he] at heq hchars
  exact hchars e List.mem_cons_self ((List.cons.inj heq).1 ▸ hfirst)

/-- **A label tells its end**: what stands in front of a comma or a parenthesis is the literal of one label only. -/
theorem IsLabel.split (hfloats : floats.InjOn Double.text) (h : v.IsLabel floats) (h' : w.IsLabel floats) {c d : Char}
    (hc : c ∈ [',', ')']) (hd : d ∈ [',', ')']) {x y : List Char}
    (heq : v.literal.toList ++ c :: x = w.literal.toList ++ d :: y) : v = w ∧ c :: x = d :: y := by
  have hquote : ∀ q ∈ ['\'', '"'], q ∈ separators ∧ q ≠ '(' := by decide
  have hparenthesis : '(' ∈ separators := by decide
  have hseparator : ∀ e ∈ [',', ')'], e ∈ separators := by decide
  have htext : ∀ {t : String} {rest : List Char}, (Datum.text t).literal.toList ++ rest = (quoted t).toList ++ rest := rfl
  cases h with
  | plain hv =>
    cases h' with
    | plain hw =>
      obtain ⟨hliteral, hrest⟩ := split_first hv.literal_chars.2 hw.literal_chars.2 (hseparator c hc) (hseparator d hd) heq
      exact ⟨hv.literal_injective hfloats hw (String.toList_inj.mp hliteral), hrest⟩
    | text t =>
      obtain ⟨q, more, hq, hmem⟩ := toList_quoted t
      rw [htext, hq] at heq
      exact absurd heq (hv.literal_ne (hquote q hmem).1 _ _)
    | pair l r =>
      rw [toList_pair] at heq
      exact absurd heq (hv.literal_ne hparenthesis _ _)
  | text s =>
    obtain ⟨q, more, hq, hmem⟩ := toList_quoted s
    cases h' with
    | plain hw =>
      rw [htext, hq] at heq
      exact absurd heq.symm (hw.literal_ne (hquote q hmem).1 _ _)
    | text t =>
      obtain ⟨rfl, hrest⟩ := quoted_split heq
      exact ⟨rfl, hrest⟩
    | pair l r =>
      rw [htext, hq, toList_pair] at heq
      exact absurd (List.cons.inj heq).1 (hquote q hmem).2
  | pair l r =>
    rw [toList_pair] at heq
    cases h' with
    | plain hw => exact absurd heq.symm (hw.literal_ne hparenthesis _ _)
    | text t =>
      obtain ⟨q, more, hq, hmem⟩ := toList_quoted t
      rw [htext, hq] at heq
      exact absurd (List.cons.inj heq).1.symm (hquote q hmem).2
    | pair l' r' =>
      rw [toList_pair] at heq
      simp only [List.cons_append, List.append_assoc] at heq
      obtain ⟨rfl, hright⟩ := quoted_split (List.cons.inj heq).2
      obtain ⟨rfl, hrest⟩ := quoted_split (List.cons.inj (List.cons.inj hright).2).2
      exact ⟨rfl, (List.cons.inj hrest).2⟩

end Datum

end Formula
