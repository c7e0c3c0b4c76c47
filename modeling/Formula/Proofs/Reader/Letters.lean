import Mathlib.Algebra.GroupWithZero.Nat
import Mathlib.Algebra.Order.BigOperators.Group.List
import Mathlib.Algebra.Order.Group.Nat
import Formula.Proofs.Catalog.Characters
import Formula.Proofs.Expr.Occurrences
import Formula.Proofs.Reader.Delimiters
import Formula.Proofs.Reader.Paired

/-!
# Letters that are carried over

An operand that is a single letter is to be found in the tree again.  `Atom.letters` counts such atoms in a row, at any
depth, and `Atom.carried` those of them that stand where the reader carries an atom over.  It does so with

* the scripts of operands, of names of functions and of marks, and of what closes a fence in a row whose fences pair; not
  with those of operators, signs, commas, of an atom that opens a fence or fits no rule, or of the second half of a digraph
  in front of an operand;
* the sequences inside of a fraction, a radical and a fence, but not of other atoms, nor of one that is spelled like a half
  of a digraph;
* the letters that stand in a font or a text themselves, if the value of the atom is not another one; a text with a value
  is that value;
* a letter itself, unless its value makes it a placeholder.

What is said here is about one atom, or a row; the reader is gone through elsewhere.
-/

namespace Formula

open Text Atom Expr Outcome

/-! ### What is counted -/

namespace Atom

/-- The atom is an ordinary one that is spelled by the letter. -/
def isNamed (x : Char) (a : Atom) : Bool := a.type == .ordinary && a.spelled x.toString

mutual

/-- The number of ordinary atoms that are spelled by the letter: the atom itself, and those inside of it. -/
def letters (x : Char) : Atom → Nat
  | ⟨type, value, latex, superscript, subscript, body, numerator, denominator, index, delim, left, right, font⟩ =>
    (if isNamed x ⟨type, value, latex, superscript, subscript, body, numerator, denominator, index, delim, left, right,
      font⟩ then 1 else 0) +
      (fieldLetters x superscript + fieldLetters x subscript + fieldLetters x body + fieldLetters x numerator +
        fieldLetters x denominator + fieldLetters x index)

/-- The number of such atoms in a nested sequence. -/
def fieldLetters (x : Char) : Option (List Atom) → Nat
  | none => 0
  | some row => rowLetters x row

/-- The number of such atoms in a sequence. -/
def rowLetters (x : Char) : List Atom → Nat
  | [] => 0
  | a :: rest => a.letters x + rowLetters x rest

end

/-- The atom is spelled like the second half of a digraph in front of an operand. -/
def endsPrefix (a : Atom) : Bool := Glyph.digraphs.any fun e => Glyph.prefixDigraphs.contains e.2 && a.spelled e.1.2

/-- The scripts of the atom are carried over; those of a delimiter are if the fences of the row pair. -/
def carriesScripts (c : Catalog) (plain : Bool) (a : Atom) : Bool :=
  !a.endsPrefix && match a.type with
    | .fraction | .radical | .font | .text | .fenced => true
    | .ordinary => (a.precedence c).toOption == some none
    | .textual => (a.precedence c).toOption == some none && (plain || a.opened?.isNone)
    | .operator => (a.isFunction c).toOption == some true
    | .closing | .sized => plain
    | _ => false

/-- The letters of a sequence that are shown in its text. -/
def shownLetters (x : Char) (row : List Atom) : Nat :=
  row.countP fun a => a.isNamed x && (a.value.isVoid || a.value.isText x.toString)

mutual

/-- The number of letters that are carried over with the atom, in a row whose fences pair or in another one. -/
def carried (c : Catalog) (x : Char) : Bool → Atom → Nat
  | plain, ⟨type, value, latex, superscript, subscript, body, numerator, denominator, index, delim, left, right, font⟩ =>
    let a : Atom := ⟨type, value, latex, superscript, subscript, body, numerator, denominator, index, delim, left, right,
      font⟩
    (if a.isNamed x && !a.isPlaceholder then 1 else 0) +
      (if a.carriesScripts c plain then fieldCarried c x superscript + fieldCarried c x subscript else 0) +
      (if a.isHalf then 0
      else match type with
        | .fraction => fieldCarried c x numerator + fieldCarried c x denominator
        | .radical => fieldCarried c x body + fieldCarried c x index
        | .fenced => fieldCarried c x body
        | .font => shownLetters x (body.getD [])
        | .text => if value.isVoid then shownLetters x (body.getD []) else 0
        | _ => 0)

/-- The number of letters that are carried over with a nested sequence. -/
def fieldCarried (c : Catalog) (x : Char) : Option (List Atom) → Nat
  | none => 0
  | some row => rowCarried c x (fencesPair [] (unspaced row)) row

/-- The number of letters that are carried over with the atoms of a sequence. -/
def rowCarried (c : Catalog) (x : Char) : Bool → List Atom → Nat
  | _, [] => 0
  | plain, a :: rest => carried c x plain a + rowCarried c x plain rest

end

/-- The number of letters of a sequence that are carried over. -/
def carriedLetters (c : Catalog) (x : Char) (row : List Atom) : Nat := fieldCarried c x (some row)

end Atom

/-- Names that mean something to the reader where they stand, whatever the catalog says. -/
def reservedNames : List String :=
  exponentMarkers ++ digits ++ callNames ++ [".", ",", "\\"] ++ Glyph.digraphs.flatMap fun e => [e.1.1, e.1.2]

/-- The letter is a symbol of the catalog under its own name, and delimiters are neither operators nor functions. -/
structure LetterOf (c : Catalog) (x : Char) : Prop where
  trim : trim x.toString = x.toString
  name : c.nameOfTrimmed x.toString = .text x.toString
  precedence : c.precedence (.text x.toString) = none
  isFunction : c.isFunction (.text x.toString) = false
  unreserved : x.toString ∉ reservedNames
  delimiters : ∀ t ∈ Glyph.delimiters, c.precedence (c.nameOfTrimmed (Text.trim t)) = none ∧
    c.isFunction (c.nameOfTrimmed (Text.trim t)) = false

/-- The letters of the usual vocabulary are symbols, but for those of exponents and of calls. -/
theorem letterOf_builtin {x : Char} (hx : x.isAlpha = true) (hne : x ∉ ['e', 'E', 'd', 'D', 'f', 'g']) :
    LetterOf .builtin x := by
  have hd := isLetterOrDigit_of_isAlpha hx
  refine ⟨trim_character hd, Catalog.nameOfTrimmed_character hd, Catalog.precedence_character hd,
    Catalog.isFunction_character hd, fun hmem => ?_, fun t ht => ?_⟩
  rotate_left
  · obtain ⟨name, hname, hprecedence, hfunction⟩ := canonicalNameOf_delimiter ht
    have hvoid : ∀ t ∈ Glyph.delimiters, (Datum.text t).isVoid = false := by decide
    rw [Catalog.canonicalNameOf, if_neg (by rw [hvoid t ht]; exact Bool.false_ne_true)] at hname
    cases hname
    obtain ⟨key, hkey, hprecedence⟩ := map_eq_ok.mp hprecedence
    exact ⟨Datum.eq_of_key hkey ▸ hprecedence, hfunction⟩
  -- A name with a single character is that of an exponent, of a digit or of a call, or no letter.
  have hone : ∀ s ∈ reservedNames, s.toList.length ≠ 1 ∨
      (s.toList.any fun d => ['e', 'E', 'd', 'D', 'f', 'g'].contains d || !d.isAlpha) = true := by decide
  have hlist : x.toString.toList = [x] := by rw [Char.toString, String.toList_singleton]
  have hx' := hone _ hmem
  rw [hlist, List.any_cons, List.any_nil, Bool.or_false, Bool.or_eq_true, List.contains_iff_mem, hx] at hx'
  rcases hx' with hlength | hx' | hx'
  · exact hlength rfl
  · exact hne hx'
  · cases hx'

variable {c : Catalog} {x : Char} {plain : Bool} {a : Atom} {row : List Atom}

/-! ### One atom -/

namespace Atom

/-- The letter that the atom is itself. -/
def own (x : Char) (a : Atom) : Nat := if a.isNamed x && !a.isPlaceholder then 1 else 0

/-- The letters that the scripts of the atom carry over. -/
def scriptLetters (c : Catalog) (x : Char) (a : Atom) : Nat := fieldCarried c x a.superscript + fieldCarried c x a.subscript

/-- The letters that are carried over from inside of the atom. -/
def innerLetters (c : Catalog) (x : Char) (a : Atom) : Nat :=
  if a.isHalf then 0
  else match a.type with
    | .fraction => fieldCarried c x a.numerator + fieldCarried c x a.denominator
    | .radical => fieldCarried c x a.body + fieldCarried c x a.index
    | .fenced => fieldCarried c x a.body
    | .font => shownLetters x (a.body.getD [])
    | .text => if a.value.isVoid then shownLetters x (a.body.getD []) else 0
    | _ => 0

theorem carried_eq (c : Catalog) (x : Char) (plain : Bool) (a : Atom) :
    a.carried c x plain = a.own x + (if a.carriesScripts c plain then a.scriptLetters c x else 0) + a.innerLetters c x := by
  obtain ⟨type, value, latex, f1, f2, f3, f4, f5, f6, delim, left, right, font⟩ := a
  rw [carried.eq_def]
  unfold innerLetters
  cases type <;> rfl

theorem own_of_type (ht : a.type ≠ .ordinary) : a.own x = 0 := by
  rw [own, isNamed, beq_eq_false_iff_ne.mpr ht]
  rfl

theorem own_of_isPlaceholder (h : a.isPlaceholder = true) : a.own x = 0 := by
  rw [own, h, Bool.not_true, Bool.and_false]
  rfl

/-- The scripts of an atom without any carry nothing. -/
theorem scriptLetters_of_bare (h : a.hasScripts = false) : a.scriptLetters c x = 0 := by
  obtain ⟨hsup, hsub⟩ := Bool.or_eq_false_iff.mp h
  rw [scriptLetters, Option.isSome_eq_false_iff.mp hsup |> Option.isNone_iff_eq_none.mp,
    Option.isSome_eq_false_iff.mp hsub |> Option.isNone_iff_eq_none.mp]
  rfl

theorem innerLetters_of_half (h : a.isHalf = true) : a.innerLetters c x = 0 := if_pos h

theorem innerLetters_of_type (ht : a.type ∉ [.fraction, .radical, .font, .text, .fenced]) : a.innerLetters c x = 0 := by
  unfold innerLetters
  split
  · rfl
  · split
    all_goals first
      | rfl
      | rename_i h
        exact absurd (by rw [h]; decide) ht

/-- Inside of a fence nothing is carried over but what its body carries. -/
theorem innerLetters_le_body (ht : a.type = .fenced) : a.innerLetters c x ≤ fieldCarried c x a.body := by
  rw [innerLetters, ht]
  split
  · exact Nat.zero_le _
  · exact Nat.le_refl _

theorem carried_le (plain : Bool) : a.carried c x plain ≤ a.own x + a.scriptLetters c x + a.innerLetters c x := by
  rw [carried_eq]
  split <;> omega

theorem carried_of_lost (h : a.carriesScripts c plain = false) :
    a.carried c x plain = a.own x + a.innerLetters c x := by
  rw [carried_eq, h]
  rfl

theorem carried_of_bare (h : a.hasScripts = false) : a.carried c x plain = a.own x + a.innerLetters c x := by
  rw [carried_eq, scriptLetters_of_bare h]
  split <;> rfl

/-- An atom whose scripts are carried over in any row has them carried over in one whose fences pair. -/
theorem carried_false_le (a : Atom) (plain : Bool) : a.carried c x false ≤ a.carried c x plain := by
  cases plain with
  | false => exact Nat.le_refl _
  | true =>
    rw [carried_eq, carried_eq]
    by_cases h : a.carriesScripts c false = true
    · have h' : a.carriesScripts c true = true := by
        unfold carriesScripts at h ⊢
        cases ht : a.type <;> simp_all
      rw [if_pos h, if_pos h']
    · rw [if_neg h]
      split <;> omega

/-! ### The letter itself -/

theorem text_of_isNamed (h : a.isNamed x = true) : a.type = .ordinary ∧ a.text = .ok (.text x.toString) := by
  rw [isNamed, Bool.and_eq_true, beq_iff_eq] at h
  exact ⟨h.1, spelled_iff.mp h.2⟩

/-- What is spelled by another text is not the letter. -/
theorem own_of_text {s : String} (h : a.spelled s = true) (hs : s ≠ x.toString) : a.own x = 0 := by
  unfold own
  cases hletter : a.isNamed x with
  | false => rfl
  | true =>
    have htext := (text_of_isNamed hletter).2
    rw [spelled_iff.mp h] at htext
    cases htext
    exact absurd rfl hs

theorem spelled_of_isHalf (h : a.isHalf = true) : ∃ s ∈ reservedNames, a.spelled s = true := by
  obtain ⟨e, he, h⟩ := List.any_eq_true.mp h
  have hmem : ∀ s ∈ [e.1.1, e.1.2], s ∈ reservedNames := fun s hs =>
    List.mem_append_right _ (List.mem_flatMap.mpr ⟨e, he, hs⟩)
  rcases Bool.or_eq_true_iff.mp h with h | h
  · exact ⟨_, hmem _ (by simp), h⟩
  · exact ⟨_, hmem _ (by simp), h⟩

theorem isHalf_of_endsPrefix (h : a.endsPrefix = true) : a.isHalf = true := by
  obtain ⟨e, he, h⟩ := List.any_eq_true.mp h
  rw [Bool.and_eq_true] at h
  exact List.any_eq_true.mpr ⟨e, he, by rw [h.2, Bool.or_true]⟩

section

variable (L : LetterOf c x)
include L

theorem own_of_reserved {s : String} (h : a.spelled s = true) (hs : s ∈ reservedNames) : a.own x = 0 :=
  own_of_text h fun heq => L.unreserved (heq ▸ hs)

theorem name_of_isNamed (h : a.isNamed x = true) : a.name c = .ok (.text x.toString) := by
  unfold Atom.name Catalog.canonicalNameOf
  rw [(text_of_isNamed h).2]
  show (if (Datum.text x.toString).isVoid = true then _ else Except.map c.nameOfTrimmed (.ok (trim x.toString))) = _
  rw [if_neg (by rw [isVoid_character]; exact Bool.false_ne_true), L.trim]
  exact congrArg Except.ok L.name

theorem precedence_of_isNamed (h : a.isNamed x = true) : a.precedence c = .ok none := by
  unfold Atom.precedence
  rw [(text_of_isNamed h).1, name_of_isNamed L h]
  exact congrArg Except.ok L.precedence

theorem own_of_operator {p : Int} (h : a.precedence c = .ok (some p)) : a.own x = 0 := by
  unfold own
  cases hletter : a.isNamed x with
  | false => rfl
  | true =>
    rw [precedence_of_isNamed L hletter] at h
    cases h

theorem own_of_isFunction (h : a.isFunction c = .ok true) : a.own x = 0 := by
  unfold own
  cases hletter : a.isNamed x with
  | false => rfl
  | true =>
    obtain ⟨ht, htext⟩ := text_of_isNamed hletter
    unfold Atom.isFunction at h
    rw [name_of_isNamed L hletter, htext, ht] at h
    have hprecedence : c.precedenceOf (.text x.toString) = .ok none := congrArg Except.ok L.precedence
    simp only [bind, Except.bind, hprecedence, Option.isSome_none, Bool.false_eq_true, if_false, L.isFunction] at h
    cases h

/-! ### Atoms that carry nothing over -/

theorem carried_of_half (h : a.isHalf = true) (hbare : a.hasScripts = false) : a.carried c x plain = 0 := by
  obtain ⟨s, hs, hspelled⟩ := spelled_of_isHalf h
  rw [carried_of_bare hbare, own_of_reserved L hspelled hs, innerLetters_of_half h]

theorem carried_of_endsPrefix (h : a.endsPrefix = true) : a.carried c x plain = 0 := by
  obtain ⟨s, hs, hspelled⟩ := spelled_of_isHalf (isHalf_of_endsPrefix h)
  have hlost : a.carriesScripts c plain = false := by rw [carriesScripts, h]; rfl
  rw [carried_of_lost hlost, own_of_reserved L hspelled hs, innerLetters_of_half (isHalf_of_endsPrefix h)]

/-- Of a half of a digraph the scripts at most are carried over. -/
theorem carried_le_of_half (h : a.isHalf = true) : a.carried c x plain ≤ a.scriptLetters c x := by
  obtain ⟨s, hs, hspelled⟩ := spelled_of_isHalf h
  have := carried_le (c := c) (x := x) (a := a) plain
  rw [own_of_reserved L hspelled hs, innerLetters_of_half h] at this
  omega

theorem carried_of_operator {p : Int} (h : a.precedence c = .ok (some p)) : a.carried c x plain = 0 := by
  have htype : a.type ∈ operatorTypes := by
    unfold Atom.precedence at h
    split at h
    · rename_i ht
      exact List.contains_iff_mem.mp ht
    · cases h
  have hlost : a.carriesScripts c plain = false := by
    have hno : ((a.precedence c).toOption == some none) = false := by rw [h]; rfl
    have hfunction : (a.isFunction c).toOption ≠ some true := by
      intro hf
      have hf := eq_ok_of_toOption hf
      obtain ⟨name, hname, hf⟩ := bind_eq_ok.mp hf
      have hprecedence : a.precedence c = c.precedenceOf name := by
        unfold Atom.precedence
        rw [if_pos (List.contains_iff_mem.mpr htype), hname]
        rfl
      rw [← hprecedence, h] at hf
      cases hf
    unfold carriesScripts
    simp only [operatorTypes, List.mem_cons, List.not_mem_nil, or_false] at htype
    rcases htype with ht | ht | ht | ht | ht | ht <;> rw [ht] <;> simp [hno, hfunction]
  have hinner : a.type ∉ [.fraction, .radical, .font, .text, .fenced] := fun ht => by
    simp only [List.mem_cons, List.not_mem_nil, or_false] at ht
    rcases ht with ht | ht | ht | ht | ht <;> rw [ht] at htype <;> exact absurd htype (by decide)
  rw [carried_of_lost hlost, own_of_operator L h, innerLetters_of_type hinner]

end

/-- Signs, commas, spaces and opening brackets carry nothing over. -/
theorem carried_of_type (ht : a.type ∈ [.binary, .relation, .punctuation, .spacing, .opening]) :
    a.carried c x plain = 0 := by
  simp only [List.mem_cons, List.not_mem_nil, or_false] at ht
  have hlost : a.carriesScripts c plain = false := by
    unfold carriesScripts
    rcases ht with ht | ht | ht | ht | ht <;> rw [ht] <;> simp
  rw [carried_of_lost hlost, own_of_type (by rcases ht with ht | ht | ht | ht | ht <;> rw [ht] <;> decide),
    innerLetters_of_type (by rcases ht with ht | ht | ht | ht | ht <;> rw [ht] <;> decide)]

/-- Of a delimiter the scripts at most are carried over. -/
theorem carried_le_of_delimiter (ht : a.type ∈ [.closing, .textual, .sized]) :
    a.carried c x plain ≤ a.scriptLetters c x := by
  simp only [List.mem_cons, List.not_mem_nil, or_false] at ht
  have := carried_le (c := c) (x := x) (a := a) plain
  rw [own_of_type (by rcases ht with ht | ht | ht <;> rw [ht] <;> decide),
    innerLetters_of_type (by rcases ht with ht | ht | ht <;> rw [ht] <;> decide)] at this
  omega

/-- What opens a fence carries nothing over. -/
theorem carried_of_opener {left : Datum} {k : Closer} (h : a.opener? = .ok (some (left, k)))
    (hbare : plain = true → a.type = .opening ∨ a.hasScripts = false) : a.carried c x plain = 0 := by
  by_cases ho : a.type = .opening
  · exact carried_of_type (by simp [ho])
  have hopened : a.opened?.isNone = false := by
    rw [opened?_eq.mpr ⟨left, h⟩]
    rfl
  have ht : a.type ∈ [.textual, .sized] := by
    cases opens_of_opener? h with
    | bracket ht => exact absurd ht ho
    | textual ht | sized ht => simp [ht]
  have htypes : a.own x = 0 ∧ a.innerLetters c x = 0 := by
    simp only [List.mem_cons, List.not_mem_nil, or_false] at ht
    rcases ht with ht | ht
    · exact ⟨own_of_type (by rw [ht]; decide), innerLetters_of_type (by rw [ht]; decide)⟩
    · exact ⟨own_of_type (by rw [ht]; decide), innerLetters_of_type (by rw [ht]; decide)⟩
  cases plain with
  | true => rw [carried_of_bare ((hbare rfl).resolve_left ho), htypes.1, htypes.2]
  | false =>
    have hlost : a.carriesScripts c false = false := by
      unfold carriesScripts
      simp only [List.mem_cons, List.not_mem_nil, or_false] at ht
      rcases ht with ht | ht <;> rw [ht] <;> simp [hopened]
    rw [carried_of_lost hlost, htypes.1, htypes.2]

/-! ### The expression of an atom -/

/-- A symbol shows the letter that it is. -/
theorem own_le_symbol (L : LetterOf c x) {e : Expr} (h : a.symbol c = .ok e) : a.own x ≤ e.occurrences x := by
  unfold own
  cases hletter : a.isNamed x with
  | false => exact Nat.zero_le _
  | true =>
    have hone : x.toString.toList.count x = 1 := by
      rw [Char.toString, String.toList_singleton, List.count_singleton_self]
    have hslash : beginsWith x.toString "\\" = false := by
      refine beginsWith_character (fun heq => L.unreserved ?_) ⟨[], rfl⟩
      rw [← heq]
      decide
    unfold Atom.symbol at h
    rw [name_of_isNamed L hletter] at h
    simp only [bind, Except.bind, hslash, Bool.false_and, Bool.false_eq_true, if_false, pure, Except.pure] at h
    cases hv : a.variant with
    | error f =>
      rw [hv] at h
      cases h
    | ok v =>
      rw [hv] at h
      cases h
      rw [occurrences_ofSymbol, Datum.occurrences, hone]
      split <;> decide

/-- The parts of a text show together what each of them does. -/
theorem occurrences_joinTexts : ∀ {parts : List Datum} {index : Nat} {s : String}, joinTexts index parts = .ok s →
    s.toList.count x = (parts.map (Datum.occurrences x)).sum
  | [], _, _, h => by
    cases h
    rfl
  | d :: parts, index, s, h => by
    cases d with
    | text t =>
      obtain ⟨more, hmore, h⟩ := bind_eq_ok.mp h
      cases h
      rw [String.toList_append, List.count_append, occurrences_joinTexts hmore]
      rfl
    | _ => cases h

/-- What an atom adds to the text of a sequence. -/
theorem shown_le {d : Datum} (h : (if a.value.isVoid then a.text else .ok a.value) = .ok d) :
    (if (a.isNamed x && (a.value.isVoid || a.value.isText x.toString)) = true then 1 else 0) ≤ d.occurrences x := by
  have hone : (Datum.text x.toString).occurrences x = 1 := by
    rw [Datum.occurrences, Char.toString, String.toList_singleton, List.count_singleton_self]
  split
  · rename_i hshown
    rw [Bool.and_eq_true, Bool.or_eq_true] at hshown
    obtain ⟨hletter, hvalue⟩ := hshown
    by_cases hvoid : a.value.isVoid = true
    · rw [if_pos hvoid, (text_of_isNamed hletter).2] at h
      cases h
      exact Nat.le_of_eq hone.symm
    · rw [if_neg hvoid] at h
      have his := hvalue.resolve_left hvoid
      obtain ⟨s, hs⟩ := Datum.isText_of_isText his
      rw [hs] at his h
      cases h
      rw [eq_of_beq his]
      exact Nat.le_of_eq hone.symm
  · exact Nat.zero_le _

/-- The text of a sequence shows its letters. -/
theorem shownLetters_le {row : List Atom} {s : String} (h : plainText row = .ok s) :
    shownLetters x row ≤ s.toList.count x := by
  let inText (a : Atom) : Bool := a.type = .ordinary || a.type = .textual || a.type = .text
  have hparts : ∀ {row : List Atom} {parts : List Datum}, (row.filter inText).mapM
        (fun a => if a.value.isVoid then a.text else .ok a.value) = (.ok parts : Outcome _) →
      shownLetters x row ≤ (parts.map (Datum.occurrences x)).sum := by
    intro row
    induction row with
    | nil => exact fun _ => Nat.zero_le _
    | cons a row ih =>
      intro parts h
      rw [shownLetters, List.countP_cons]
      by_cases ht : inText a = true
      · rw [List.filter_cons_of_pos (p := inText) ht, List.mapM_cons] at h
        obtain ⟨d, hd, h⟩ := bind_eq_ok.mp h
        obtain ⟨more, hmore, h⟩ := bind_eq_ok.mp h
        cases h
        rw [List.map_cons, List.sum_cons, Nat.add_comm]
        exact Nat.add_le_add (shown_le hd) (ih hmore)
      · have hletter : a.isNamed x = false := by
          rw [isNamed, beq_eq_false_iff_ne.mpr fun h => ht (by simp [inText, h])]
          rfl
        rw [List.filter_cons_of_neg (p := inText) ht] at h
        rw [hletter]
        exact ih h
  obtain ⟨parts, hmap, h⟩ := bind_eq_ok.mp h
  rw [occurrences_joinTexts h]
  exact hparts hmap

theorem innerLetters_le_inFont (ht : a.type = .font) {e : Expr} (h : a.inFont = .ok e) :
    a.innerLetters c x ≤ e.occurrences x := by
  obtain ⟨content, hcontent, h⟩ := bind_eq_ok.mp h
  have hshown := shownLetters_le (x := x) hcontent
  have hinner : a.innerLetters c x ≤ shownLetters x (a.body.getD []) := by
    rw [innerLetters, ht]
    split <;> simp
  obtain ⟨isText, -, h⟩ := bind_eq_ok.mp h
  cases isText with
  | true =>
    cases h
    exact Nat.le_trans hinner hshown
  | false =>
    obtain ⟨v, -, h⟩ := bind_eq_ok.mp h
    cases h
    exact Nat.le_trans hinner hshown

theorem innerLetters_le_asText (ht : a.type = .text) {e : Expr} (h : a.asText = .ok e) :
    a.innerLetters c x ≤ e.occurrences x := by
  rw [innerLetters, ht]
  dsimp only
  unfold asText at h
  split
  · exact Nat.zero_le _
  split
  · rename_i hvoid
    rw [if_pos hvoid] at h
    obtain ⟨content, hcontent, h⟩ := bind_eq_ok.mp h
    cases h
    exact shownLetters_le hcontent
  · exact Nat.zero_le _

/-! ### Rows -/

theorem rowCarried_append (plain : Bool) (row more : List Atom) :
    rowCarried c x plain (row ++ more) = rowCarried c x plain row + rowCarried c x plain more := by
  induction row with
  | nil => rw [List.nil_append, rowCarried, Nat.zero_add]
  | cons a row ih => rw [List.cons_append, rowCarried, rowCarried, ih, Nat.add_assoc]

theorem rowCarried_reverse (plain : Bool) (row : List Atom) :
    rowCarried c x plain row.reverse = rowCarried c x plain row := by
  induction row with
  | nil => rfl
  | cons a row ih => rw [List.reverse_cons, rowCarried_append, ih, rowCarried, rowCarried, rowCarried, Nat.add_zero, Nat.add_comm]

/-- Spaces carry nothing over. -/
theorem rowCarried_unspaced (plain : Bool) (row : List Atom) :
    rowCarried c x plain (unspaced row) = rowCarried c x plain row := by
  induction row with
  | nil => rfl
  | cons a row ih =>
    rw [rowCarried]
    by_cases hs : a.type = .spacing
    · rw [unspaced_cons_of_spacing hs, carried_of_type (by simp [hs]), Nat.zero_add, ih]
    · rw [unspaced_cons_of_ne hs, rowCarried, ih]

theorem rowCarried_false_le (plain : Bool) (row : List Atom) : rowCarried c x false row ≤ rowCarried c x plain row := by
  induction row with
  | nil => exact Nat.le_refl _
  | cons a row ih => exact Nat.add_le_add (carried_false_le a plain) ih

/-- A row carries over no more than it does on its own. -/
theorem rowCarried_le_field {row : List Atom} (h : plain = true → fencesPair [] (unspaced row) = true) :
    rowCarried c x plain row ≤ fieldCarried c x (some row) := by
  rw [fieldCarried]
  cases plain with
  | false => exact rowCarried_false_le _ row
  | true => rw [h rfl]

/-- Commas carry nothing over. -/
theorem rowCarried_splitAtCommas : ∀ {row : List Atom} {depth : Int} {part : List Atom} {parts : List (List Atom)},
    splitAtCommas depth part row = .ok parts →
      (parts.map (rowCarried c x plain)).sum = rowCarried c x plain part + rowCarried c x plain row
  | [], _, part, _, h => by
    cases h
    rw [List.map_singleton, List.sum_singleton, rowCarried_reverse, rowCarried, Nat.add_zero]
  | a :: row, depth, part, parts, h => by
    rw [splitAtCommas_step] at h
    obtain ⟨comma, hends, h⟩ := bind_eq_ok.mp h
    cases comma with
    | true =>
      obtain ⟨more, hmore, h⟩ := bind_eq_ok.mp h
      cases h
      rw [List.map_cons, List.sum_cons, rowCarried_splitAtCommas hmore, rowCarried_reverse, rowCarried, rowCarried,
        carried_of_type (by rw [(of_endsPart hends).1]; simp)]
    | false =>
      rw [rowCarried_splitAtCommas h, rowCarried, rowCarried]
      omega

/-- Arguments carry over what the row does that they are cut from. -/
theorem rowCarried_le_parts {row : List Atom} {parts : List (List Atom)} (hparts : splitAtCommas 0 [] row = .ok parts)
    (h : plain = true → fencesPair [] (unspaced row) = true) :
    rowCarried c x plain row ≤ (parts.map fun part => fieldCarried c x (some part)).sum := by
  have hsum := @rowCarried_splitAtCommas c x plain row 0 [] parts hparts
  rw [rowCarried, Nat.zero_add] at hsum
  rw [← hsum]
  refine List.sum_le_sum fun part hpart => rowCarried_le_field fun hp => ?_
  -- The parts of the row are those of the row with its spaces left out.
  have hunspaced := splitAtCommas_unspaced row 0 []
  rw [hparts] at hunspaced
  obtain ⟨p, ps, heq, hfirst, hrest⟩ := fencesPair_splitAtCommas (fun k hk => absurd hk List.not_mem_nil) (h hp) hunspaced
  rcases List.mem_cons.mp (heq ▸ List.mem_map_of_mem hpart) with hmem | hmem
  · rw [hmem]
    exact hfirst
  · exact hrest _ hmem

end Atom

end Formula
