import Formula.Proofs.Number.NumeralText
import Formula.Proofs.Reader.Worded
import Formula.Proofs.Source.Spelling

/-!
# Letters and digits of the usual vocabulary

The usual vocabulary gives a name of its own to commands and to signs, but to no letter and to no digit: these are named
by themselves, are no operators and no functions, and every one in a source is an ordinary atom.
-/

namespace Formula

open Text Atom

/-- A letter of any script or a digit. -/
def Text.isLetterOrDigit (d : Char) : Bool := isLetter d || d.isDigit

/-- No name in the row is a single letter or digit. -/
def AreLong (names : List String) : Prop :=
  ∀ s ∈ names, s.toList.length ≠ 1 ∨ (s.toList.any fun d => !isLetterOrDigit d) = true

instance (names : List String) : Decidable (AreLong names) := inferInstanceAs (Decidable (∀ s ∈ names, _ ∨ _))

variable {d : Char}

theorem AreLong.not_mem {names : List String} (h : AreLong names) (hd : isLetterOrDigit d = true) : d.toString ∉ names := by
  intro hmem
  have hlist : d.toString.toList = [d] := by rw [Char.toString, String.toList_singleton]
  rcases h _ hmem with hlength | hsign
  · rw [hlist] at hlength
    exact hlength rfl
  · rw [hlist] at hsign
    simp [hd] at hsign

theorem AreLong.contains {names : List String} (h : AreLong names) (hd : isLetterOrDigit d = true) :
    names.contains d.toString = false := by
  rw [← Bool.not_eq_true, List.contains_iff_mem]
  exact h.not_mem hd

theorem AreLong.lookup {α : Type} {table : List (String × α)} (h : AreLong (table.map (·.1))) (hd : isLetterOrDigit d = true) :
    table.lookup d.toString = none := by
  refine List.lookup_eq_none_iff.mpr fun p hp => ?_
  rw [bne_iff_ne]
  rintro heq
  exact h.not_mem hd (heq ▸ List.mem_map.mpr ⟨p, hp, rfl⟩)

/-- A single character begins with no text that begins with another. -/
theorem beginsWith_character {e : Char} {head : String} (hne : e ≠ d) (h : ∃ es, head.toList = e :: es) :
    beginsWith d.toString head = false := by
  obtain ⟨es, hes⟩ := h
  unfold beginsWith
  rw [hes, Char.toString, String.toList_singleton, List.isPrefixOf_cons_cons, beq_eq_false_iff_ne.mpr hne, Bool.false_and]

/-! ### Names of the catalog -/

namespace Catalog

theorem find?_ofTexts {α : Type} {entries : List (String × α)} {s : String} (h : s ∉ entries.map (·.1)) :
    (Table.ofTexts entries).find? (.text s) = none := by
  unfold Table.find? Table.ofTexts
  rw [Option.map_eq_none_iff, List.find?_eq_none]
  intro e he
  obtain ⟨p, hp, rfl⟩ := List.mem_map.mp he
  have : p.1 ≠ s := fun heq => h (heq ▸ List.mem_map.mpr ⟨p, hp, rfl⟩)
  simp [Datum.same, this]

theorem find?_textTable {entries : List (String × String)} {s : String} (h : s ∉ entries.map (·.1)) :
    (textTable entries).find? (.text s) = none := by
  refine find?_ofTexts ?_
  rw [List.map_map]
  exact h

/-- A letter or a digit is named by itself. -/
theorem nameOfTrimmed_character (hd : isLetterOrDigit d = true) :
    builtin.nameOfTrimmed d.toString = .text d.toString := by
  have hlist : d.toString.toList = [d] := by rw [Char.toString, String.toList_singleton]
  have hnames : (textTable builtinNames).find? (.text d.toString) = none :=
    find?_textTable (AreLong.not_mem (by decide +kernel) hd)
  have hsymbols : (textTable builtinSymbols).find? (.text d.toString) = none :=
    find?_textTable (AreLong.not_mem (by decide) hd)
  have hslash : d ≠ '\\' := by
    rintro rfl
    exact absurd hd (by decide)
  have hbegins : beginsWith d.toString operatorNameHead = false := beginsWith_character (Ne.symm hslash) ⟨_, rfl⟩
  have hoperator : operatorName? d.toString = none := by
    unfold operatorName?
    rw [hbegins, Bool.false_and, if_neg Bool.false_ne_true]
  have hfunction : builtin.functionName? d.toString = none := by
    unfold functionName?
    rw [hlist]
    split
    · rename_i heq
      exact absurd (List.cons.inj heq).1 hslash
    · rfl
  unfold nameOfTrimmed
  rw [show builtin.names = textTable builtinNames from rfl, show builtin.symbols = textTable builtinSymbols from rfl, hnames,
    hsymbols, hoperator, hfunction]
  rfl

theorem precedence_character (hd : isLetterOrDigit d = true) : builtin.precedence (.text d.toString) = none := by
  have : (Table.ofTexts builtinPrecedences).find? (.text d.toString) = none :=
    find?_ofTexts (AreLong.not_mem (by decide) hd)
  exact this

theorem isFunction_character (hd : isLetterOrDigit d = true) : builtin.isFunction (.text d.toString) = false := by
  have hlong : AreLong (commandFunctions ++ namedFunctions ++ builtinFunctionTemplates.map (·.1)) := by decide
  unfold isFunction
  rw [List.any_eq_false]
  intro f hf
  obtain ⟨s, hs, rfl⟩ := List.mem_map.mp hf
  have hne : s ≠ d.toString := fun heq => hlong.not_mem hd (heq ▸ hs)
  show ¬(s == d.toString) = true
  rwa [beq_iff_eq]

end Catalog

/-! ### Characters that stand for themselves -/

theorem isLetter_of_isAlpha (hd : d.isAlpha = true) : isLetter d = true := by rw [isLetter, hd, Bool.true_or]

theorem isLetterOrDigit_of_isLetter (hd : isLetter d = true) : isLetterOrDigit d = true := by
  rw [isLetterOrDigit, hd, Bool.true_or]

theorem isLetterOrDigit_of_isAlpha (hd : d.isAlpha = true) : isLetterOrDigit d = true :=
  isLetterOrDigit_of_isLetter (isLetter_of_isAlpha hd)

theorem isLetterOrDigit_of_isDigit (hd : d.isDigit = true) : isLetterOrDigit d = true := by
  rw [isLetterOrDigit, hd, Bool.or_true]

theorem toNat_of_isAlpha (hd : d.isAlpha = true) :
    (65 ≤ d.toNat ∧ d.toNat ≤ 90) ∨ (97 ≤ d.toNat ∧ d.toNat ≤ 122) := by
  have hupper : d.isUpper = decide (d.val ≥ 'A'.val ∧ d.val ≤ 'Z'.val) := rfl
  have hlower : d.isLower = (decide (d.val ≥ 'a'.val) && decide (d.val ≤ 'z'.val)) := rfl
  rcases Bool.or_eq_true_iff.mp hd with hd | hd
  · rw [hupper] at hd
    exact .inl (by simpa [UInt32.le_iff_toNat_le] using hd)
  · rw [hlower] at hd
    exact .inr (by simpa [UInt32.le_iff_toNat_le] using hd)

/-- No digit is a letter. -/
theorem isDigit_of_isLetter (hd : isLetter d = true) : d.isDigit = false := by
  rw [← Bool.not_eq_true]
  intro hdigit
  have h1 := Number.toNat_of_isDigit hdigit
  rw [isLetter_of_ascii (by omega)] at hd
  have h2 := toNat_of_isAlpha hd
  omega

/-- No blank is a letter. -/
theorem isBlank_of_isLetter (hd : isLetter d = true) : isBlank d = false := by
  rcases Bool.or_eq_true_iff.mp hd with hd | hd
  · have := toNat_of_isAlpha hd
    exact Number.isBlank_of_isGraphic ⟨by omega, by omega⟩
  · have hapart : ∀ b ∈ blankRanges, ∀ l ∈ letterRanges, b.2 < l.1 ∨ l.2 < b.1 := by decide +kernel
    obtain ⟨l, hl, hlower, hupper⟩ := inRanges_iff.mp (Bool.and_eq_true_iff.mp hd).2
    rw [← Bool.not_eq_true]
    intro hblank
    obtain ⟨b, hb, hlower', hupper'⟩ := inRanges_iff.mp hblank
    have := hapart b hb l hl
    omega

theorem isBlank_of_isLetterOrDigit (hd : isLetterOrDigit d = true) : isBlank d = false := by
  rcases Bool.or_eq_true_iff.mp hd with hd | hd
  · exact isBlank_of_isLetter hd
  · exact Number.isBlank_of_isGraphic (Number.isGraphic_of_isDigit hd)

theorem trim_character (hd : isLetterOrDigit d = true) : trim d.toString = d.toString := by
  unfold trim trimChars
  rw [Char.toString, String.toList_singleton, List.dropWhile_cons_of_neg (by rw [isBlank_of_isLetterOrDigit hd]; exact Bool.false_ne_true),
    List.reverse_singleton, List.dropWhile_cons_of_neg (by rw [isBlank_of_isLetterOrDigit hd]; exact Bool.false_ne_true)]
  rfl

/-- The atom of a letter or a digit. -/
def Atom.ofCharacter (d : Char) : Atom := { type := .ordinary, value := .text d.toString }

theorem text_ofCharacter (d : Char) : (ofCharacter d).text = .ok (.text d.toString) := rfl

theorem isVoid_character (d : Char) : (Datum.text d.toString).isVoid = false := by
  refine Bool.eq_false_iff.mpr fun h => ?_
  have hlist := congrArg String.toList (String.isEmpty_iff.mp h)
  rw [Char.toString, String.toList_singleton] at hlist
  cases hlist

theorem name_ofCharacter (hd : isLetterOrDigit d = true) : (ofCharacter d).name .builtin = .ok (.text d.toString) := by
  unfold Atom.name Catalog.canonicalNameOf
  rw [text_ofCharacter]
  show (if (Datum.text d.toString).isVoid = true then _ else (Datum.text d.toString).trimmed.map _) = _
  rw [isVoid_character, if_neg Bool.false_ne_true]
  show Except.ok (Catalog.builtin.nameOfTrimmed (trim d.toString)) = _
  rw [trim_character hd, Catalog.nameOfTrimmed_character hd]

theorem precedence_ofCharacter (hd : isLetterOrDigit d = true) : (ofCharacter d).precedence .builtin = .ok none := by
  unfold Atom.precedence
  rw [name_ofCharacter hd]
  show (if _ then Except.ok (Catalog.builtin.precedence (.text d.toString)) else _) = _
  rw [Catalog.precedence_character hd]
  rfl

theorem isFunction_ofCharacter (hd : isLetterOrDigit d = true) : (ofCharacter d).isFunction .builtin = .ok false := by
  unfold Atom.isFunction
  rw [name_ofCharacter hd]
  show (if (Catalog.builtin.precedence (.text d.toString)).isSome = true then Except.ok false
    else Except.ok (Catalog.builtin.isFunction (.text d.toString))) = _
  rw [Catalog.precedence_character hd, Catalog.isFunction_character hd]
  rfl

/-! ### Characters in a source -/

namespace Source

theorem isSymbol_character (hd : isLetterOrDigit d = true) : IsSymbol (.char d) := by
  have hne : ∀ e : Char, isLetterOrDigit e = false → Token.char d ≠ .char e := by
    rintro e he heq
    rw [Token.char.inj heq, he] at hd
    cases hd
  have hscript : scriptOf? (.char d) = none := by
    unfold scriptOf?
    split
    · rename_i heq
      exact absurd heq (hne '^' (by decide))
    · rename_i heq
      exact absurd heq (hne '_' (by decide))
    · rfl
  have hlong : ∀ {names : List String}, AreLong names → names.contains (Token.char d).text = false :=
    fun h => h.contains hd
  have hfont : fonts.lookup (Token.char d).text = none := AreLong.lookup (by decide) hd
  have hroot : AreLong ["\\sqrt", "\\left"] := by decide
  have hroot := hroot.not_mem hd
  simp only [List.mem_cons, List.not_mem_nil, or_false, not_or] at hroot
  refine ⟨⟨?_, hscript, hlong (by decide)⟩, hlong (by decide), hlong (by decide), hlong (by decide), hroot.1, hroot.2,
    hlong (by decide), hfont⟩
  simp only [List.mem_cons, List.not_mem_nil, or_false, not_or]
  exact ⟨hne _ (by decide), hne _ (by decide), by simp, by simp⟩

/-- A letter or a digit without a precedence is an ordinary atom. -/
theorem symbolAtom_unranked {c : Catalog} (hd : isLetterOrDigit d = true) (hname : c.canonicalName d.toString = .text d.toString)
    (hprecedence : c.precedence (.text d.toString) = none) : symbolAtom c d.toString = .ok (ofCharacter d) := by
  have htype : charTypes.lookup d.toString = none := AreLong.lookup (by decide) hd
  have hquote : AreLong ["'", "\\nabla"] := by decide
  have hquote := hquote.not_mem hd
  simp only [List.mem_cons, List.not_mem_nil, or_false, not_or] at hquote
  have hmark : isMark d.toString = false := by
    unfold isMark
    rw [AreLong.contains (by decide) hd, AreLong.contains (by decide) hd, beq_eq_false_iff_ne.mpr hquote.2]
    rfl
  have hopener : isOpener d.toString = false := by
    unfold isOpener
    rw [AreLong.contains (by decide) hd, Bool.false_and]
  have hcloser : isCloser d.toString = false := by
    unfold isCloser
    rw [AreLong.contains (by decide) hd, Bool.false_and]
  have hcommand : isCommand d.toString = false := by
    refine beginsWith_character (e := '\\') ?_ ⟨_, rfl⟩
    rintro rfl
    exact absurd hd (by decide)
  have hprecedence : c.precedenceOf (.text d.toString) = .ok none := congrArg Except.ok hprecedence
  have hlarge : largeOperators.contains d.toString = false := AreLong.contains (by decide) hd
  unfold symbolAtom
  simp only [htype, hquote.1, hmark, hopener, hcloser, hname, hprecedence, hlarge, hcommand, if_false, Bool.false_eq_true,
    Bool.false_and, Bool.or_self]
  rfl

theorem canonicalName_character (hd : isLetterOrDigit d = true) : Catalog.builtin.canonicalName d.toString = .text d.toString := by
  unfold Catalog.canonicalName
  rw [trim_character hd, Catalog.nameOfTrimmed_character hd]

theorem symbolAtom_character (hd : isLetterOrDigit d = true) : symbolAtom .builtin d.toString = .ok (ofCharacter d) :=
  symbolAtom_unranked hd (canonicalName_character hd) (Catalog.precedence_character hd)

theorem spells_unranked {c : Catalog} (hd : isLetterOrDigit d = true) (hname : c.canonicalName d.toString = .text d.toString)
    (hprecedence : c.precedence (.text d.toString) = none) : Spells c d.toString [ofCharacter d] := by
  have hne : ∀ e : Char, isLetterOrDigit e = false → d ≠ e := by
    rintro e he rfl
    rw [he] at hd
    cases hd
  exact spells_char (isBlank_of_isLetterOrDigit hd) (hne _ (by decide)) (hne _ (by decide)) (hne _ (by decide))
    (isSymbol_character hd) (symbolAtom_unranked hd hname hprecedence)

/-- **A letter or a digit spells itself.** -/
theorem spells_character (hd : isLetterOrDigit d = true) : Spells .builtin d.toString [ofCharacter d] :=
  spells_unranked hd (canonicalName_character hd) (Catalog.precedence_character hd)

end Source

end Formula
