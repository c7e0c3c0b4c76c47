import Mathlib.Data.List.Forall2
import Formula.Proofs.Reader.Brackets
import Formula.Proofs.Reader.Numeral

/-!
# Rows that differ in delimiters

A fence may be written with plain delimiters, with delimiters in the role of text, or with sized ones.  To every question
that is not about fences a delimiter of one kind is the same answer as one of another kind: it is no operator, no part of
a numeral and no part of a digraph.  `SameButDelimiters` relates rows that differ in their delimiters alone, and there is
one lemma for every such question.
-/

namespace Formula

open Atom Expr Outcome

namespace Atom

/-- A delimiter of any kind, whose spelling is part of no numeral and of no digraph. -/
structure IsDelimiter (a : Atom) : Prop where
  type : a.type ∈ [.opening, .closing, .textual, .sized]
  text : ∃ t, a.text = .ok (.text t) ∧ t ∉ [",", "!", "\\nabla", "\\times", "\\cdot"] ∧
    (a.type = .textual → t ∈ Glyph.delimiters)

/-! ### What a delimiter is not -/

/-- A delimiter names neither an operator nor a function. -/
theorem named_delimiters : ∀ t ∈ Glyph.delimiters,
    (do
      let name ← Catalog.builtin.canonicalNameOf (.text t)
      return (← Catalog.builtin.precedenceOf name, Catalog.builtin.isFunction name)) = .ok (none, false) := by
  decide +kernel

theorem canonicalNameOf_delimiter {t : String} (ht : t ∈ Glyph.delimiters) : ∃ name,
    Catalog.builtin.canonicalNameOf (.text t) = .ok name ∧ Catalog.builtin.precedenceOf name = .ok none ∧
      Catalog.builtin.isFunction name = false := by
  obtain ⟨name, hname, h⟩ := bind_eq_ok.mp (named_delimiters t ht)
  obtain ⟨precedence, hprecedence, h⟩ := bind_eq_ok.mp h
  obtain ⟨rfl, hfunction⟩ := Prod.mk.inj (Except.ok.inj h)
  exact ⟨name, hname, hprecedence, hfunction⟩

namespace IsDelimiter

variable {a : Atom}

theorem type_ne (h : IsDelimiter a) {t : AtomType} (ht : t ∉ [.opening, .closing, .textual, .sized]) : a.type ≠ t := by
  rintro rfl
  exact ht h.type

theorem isSolitary (h : IsDelimiter a) : IsSolitary a := by
  obtain ⟨t, ht, hne, -⟩ := h.text
  exact ⟨h.type_ne (by decide), h.type_ne (by decide), t, ht, hne⟩

theorem sign? (h : IsDelimiter a) (c : Catalog) : a.sign? c = .ok none := if_neg (h.type_ne (by decide))

theorem isPlaceholder (h : IsDelimiter a) : a.isPlaceholder = false := by
  rw [Atom.isPlaceholder, beq_eq_false_iff_ne.mpr (h.type_ne (by decide))]
  rfl

theorem precedence (h : IsDelimiter a) : a.precedence .builtin = .ok none := by
  obtain ⟨t, htext, -, htextual⟩ := h.text
  have htype := h.type
  simp only [List.mem_cons, List.not_mem_nil, or_false] at htype
  unfold Atom.precedence
  rcases htype with ht | ht | ht | ht
  · rw [ht]
    rfl
  · rw [ht]
    rfl
  · obtain ⟨name, hname, hprecedence, -⟩ := canonicalNameOf_delimiter (htextual ht)
    rw [ht]
    unfold Atom.name
    rw [htext]
    show (Catalog.builtin.canonicalNameOf (.text t) >>= _) = _
    rw [hname]
    exact hprecedence
  · rw [ht]
    rfl

/-- A delimiter in the role of text is no function. -/
theorem isFunction (h : IsDelimiter a) (ht : a.type = .textual) : a.isFunction .builtin = .ok false := by
  obtain ⟨t, htext, -, htextual⟩ := h.text
  obtain ⟨name, hname, hprecedence, hfunction⟩ := canonicalNameOf_delimiter (htextual ht)
  have hname : a.name .builtin = .ok name := by
    unfold Atom.name
    rw [htext]
    exact hname
  unfold Atom.isFunction
  rw [hname]
  show (Catalog.builtin.precedenceOf name >>= _) = _
  rw [hprecedence, ht, htext]
  exact congrArg Except.ok hfunction

theorem postfixFunction? (h : IsDelimiter a) : a.postfixFunction? = .ok none := by
  obtain ⟨t, htext, -, htextual⟩ := h.text
  unfold Atom.postfixFunction?
  split
  · rename_i ht
    have hnone : ∀ t ∈ Glyph.delimiters, Glyph.postfixFunctions.lookup t = none := by decide
    rw [htext]
    exact congrArg Except.ok (hnone t (htextual ht))
  · rfl

end IsDelimiter

/-! ### Atoms of a numeral -/

variable {a : Atom}

/-- What a numeral reads in front of an atom that goes on with none is a digit or a point. -/
theorem text_of_numeralStep {state : NumeralState} {before : Bool} {behind : List Atom} {step : List Char × NumeralState}
    (h : numeralStep state before a behind = .ok (some step)) (hdigit : startsWithDigit behind = .ok false)
    (hexponent : startsWithExponent behind = .ok false)
    (hsign : state = .sign → startsWithExponent (a :: behind) = .ok true) :
    ∃ t ∈ digits ++ [".", "!"], a.text = .ok (.text t) := by
  have ofDigit : a.isDigit = .ok true → ∃ t ∈ digits ++ [".", "!"], a.text = .ok (.text t) := fun his => by
    obtain ⟨-, t, hmem, htext⟩ := text_of_isDigit his
    exact ⟨t, List.mem_append_left _ hmem, htext⟩
  obtain ⟨added, next⟩ := step
  cases numeralPart_of_step h with
  | digit _ his => exact ofDigit his
  | point _ _ htext => exact ⟨".", by decide, htext⟩
  | comma _ _ _ _ _ hstarts =>
    rw [hdigit] at hstarts
    cases hstarts
  | marker _ _ _ _ _ _ _ hstarts =>
    rw [hexponent] at hstarts
    cases hstarts
  | exponent _ his => exact ofDigit his
  | sign hs =>
    obtain ⟨digit, his, hstarts⟩ := bind_eq_ok.mp (hsign rfl)
    cases digit with
    | true => exact ofDigit his
    | false =>
      -- a sign in an exponent stands in front of a digit
      simp only [Bool.false_eq_true, if_false, hs, hdigit, bind, Except.bind] at hstarts
      cases hstarts

end Atom

/-! ### Rows that are the same but for delimiters -/

/-- The same atom, or two delimiters without scripts. -/
inductive Interchanged : Atom → Atom → Prop
  | same (a : Atom) : Interchanged a a
  | delimiters {a b : Atom} : IsDelimiter a → IsDelimiter b → a.hasScripts = false → b.hasScripts = false → Interchanged a b

/-- Rows that are the same but for delimiters. -/
def SameButDelimiters : List Atom → List Atom → Prop := List.Forall₂ Interchanged

namespace Interchanged

variable {a b : Atom} (h : Interchanged a b)

include h

theorem isDigit : a.isDigit = b.isDigit := by
  cases h with
  | same => rfl
  | delimiters ha hb => rw [ha.isSolitary.isDigit, hb.isSolitary.isDigit]

theorem signOf? : a.signOf? = b.signOf? := by
  cases h with
  | same => rfl
  | delimiters ha hb => rw [ha.isSolitary.signOf?, hb.isSolitary.signOf?]

theorem hasScripts : a.hasScripts = b.hasScripts := by
  cases h with
  | same => rfl
  | delimiters _ _ ha hb => rw [ha, hb]

theorem isPlaceholder : a.isPlaceholder = b.isPlaceholder := by
  cases h with
  | same => rfl
  | delimiters ha hb => rw [ha.isPlaceholder, hb.isPlaceholder]

theorem precedence : a.precedence .builtin = b.precedence .builtin := by
  cases h with
  | same => rfl
  | delimiters ha hb => rw [ha.precedence, hb.precedence]

theorem postfixFunction? : a.postfixFunction? = b.postfixFunction? := by
  cases h with
  | same => rfl
  | delimiters ha hb => rw [ha.postfixFunction?, hb.postfixFunction?]

end Interchanged

namespace SameButDelimiters

variable {a b : Atom} {l r : List Atom}

theorem refl (l : List Atom) : SameButDelimiters l l := List.forall₂_same.mpr fun a _ => .same a

theorem operator? (h : SameButDelimiters l r) : operator? .builtin l = Expr.operator? .builtin r := by
  cases h with
  | nil => rfl
  | cons hab => exact hab.precedence

theorem startsWithDigit (h : SameButDelimiters l r) : startsWithDigit l = Atom.startsWithDigit r := by
  cases h with
  | nil => rfl
  | cons hab => exact hab.isDigit

theorem startsWithExponent (h : SameButDelimiters l r) : startsWithExponent l = Atom.startsWithExponent r := by
  cases h with
  | nil => rfl
  | @cons a b l r hab h =>
    unfold Atom.startsWithExponent
    dsimp only
    rw [show Atom.startsWithDigit (a :: l) = Atom.startsWithDigit (b :: r) from hab.isDigit, hab.signOf?,
      SameButDelimiters.startsWithDigit h]

theorem startsNumber (hab : Interchanged a b) (h : SameButDelimiters l r) :
    startsNumber (a :: l) = Expr.startsNumber (b :: r) := by
  cases hab with
  | same => rw [Expr.startsNumber, Expr.startsNumber, h.startsWithDigit]
  | delimiters ha hb =>
    rw [Expr.startsNumber, Expr.startsNumber, ha.isSolitary.isDigit, hb.isSolitary.isDigit]
    simp only [bind, Except.bind, Bool.false_eq_true, if_false, if_neg (ha.type_ne (t := .ordinary) (by decide)),
      if_neg (hb.type_ne (t := .ordinary) (by decide))]

theorem numeralStep (hab : Interchanged a b) (h : SameButDelimiters l r) (state : NumeralState) (before : Bool) :
    numeralStep state before a l = Atom.numeralStep state before b r := by
  cases hab with
  | same =>
    unfold Atom.numeralStep
    rw [h.startsWithDigit, h.startsWithExponent]
  | delimiters ha hb => rw [ha.isSolitary.numeralStep, hb.isSolitary.numeralStep]

/-- The same digraphs begin the rows. -/
theorem startsWithDigraph? (h : SameButDelimiters l r) (names : List String) :
    startsWithDigraph? names l = Atom.startsWithDigraph? names r := by
  rcases h with _ | ⟨hab, _ | ⟨hcd, -⟩⟩
  · rfl
  · rfl
  · rename_i a b c d _ _
    have hdigraph : digraph? a c = digraph? b d := by
      cases hab with
      | same =>
        cases hcd with
        | same => rfl
        | delimiters hc hd => rw [hc.isSolitary.digraph?_right, hd.isSolitary.digraph?_right]
      | delimiters ha hb hsa hsb =>
        rw [ha.isSolitary.digraph?_left, hb.isSolitary.digraph?_left, hsa, hsb]
        cases hcd with
        | same => rfl
        | delimiters hc hd =>
          obtain ⟨t, ht, -⟩ := hc.text
          obtain ⟨u, hu, -⟩ := hd.text
          rw [ht, hu]
          rfl
    rw [Atom.startsWithDigraph?, Atom.startsWithDigraph?, hdigraph]

/-- A digraph is two atoms that are no delimiters. -/
theorem of_startsWithDigraph? (hab : Interchanged a b) (h : SameButDelimiters l r) {names : List String} {name : String}
    (hfound : Atom.startsWithDigraph? names (b :: r) = .ok (some name)) :
    a = b ∧ ¬IsDelimiter b ∧ ∃ d l' r', l = d :: l' ∧ r = d :: r' ∧ ¬IsDelimiter d ∧ SameButDelimiters l' r' := by
  cases h with
  | nil => cases hfound
  | @cons c d l r hcd h =>
    obtain ⟨found, hdigraph, hfound⟩ := bind_eq_ok.mp hfound
    cases found with
    | none => cases hfound
    | some found =>
      have hb : ¬IsDelimiter b := fun hb => hb.isSolitary.digraph?_left_ne _ _ hdigraph
      have hd : ¬IsDelimiter d := fun hd => hd.isSolitary.digraph?_right_ne _ _ hdigraph
      have heq : ∀ {x y : Atom}, Interchanged x y → ¬IsDelimiter y → x = y := by
        intro x y hxy hy
        cases hxy with
        | same => rfl
        | delimiters _ h => exact absurd h hy
      cases heq hcd hd
      exact ⟨heq hab hb, hb, c, l, r, rfl, rfl, hd, h⟩

end SameButDelimiters

end Formula
