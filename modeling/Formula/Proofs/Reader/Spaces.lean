import Formula.Proofs.Reader.Brackets

/-!
# Atoms without the spaces inside of them

`Atom.tight` leaves out the spaces of all rows inside of an atom, at any depth.  Two atoms are `Akin` if they are the same
but for such spaces and for their scripts.  What the reader asks of an atom alone has the same answer for atoms that are
akin, one lemma for each question.
-/

namespace Formula

open Atom Expr

namespace Atom

mutual

/-- The atom with no spaces in the rows inside of it. -/
def tight : Atom → Atom
  | ⟨type, value, latex, superscript, subscript, body, numerator, denominator, index, delim, left, right, font⟩ =>
    ⟨type, value, latex, tightField superscript, tightField subscript, tightField body, tightField numerator,
      tightField denominator, tightField index, delim, left, right, font⟩

/-- The row of a field with no spaces at any depth. -/
def tightField : Option (List Atom) → Option (List Atom)
  | none => none
  | some atoms => some (tightRow atoms)

/-- The row with no spaces at any depth. -/
def tightRow : List Atom → List Atom
  | [] => []
  | a :: rest => if a.type = .spacing then tightRow rest else a.tight :: tightRow rest

end

/-- Two rows of a field that differ in spaces alone. -/
def SameField (field field' : Option (List Atom)) : Prop := tightField field = tightField field'

/-- The atoms have the same scripts, but for spaces. -/
structure SameScripts (a a' : Atom) : Prop where
  superscript : SameField a.superscript a'.superscript
  subscript : SameField a.subscript a'.subscript

/-- The atoms are the same but for their scripts, and for spaces inside. -/
structure Akin (a a' : Atom) : Prop where
  type : a.type = a'.type
  value : a.value = a'.value
  latex : a.latex = a'.latex
  body : SameField a.body a'.body
  numerator : SameField a.numerator a'.numerator
  denominator : SameField a.denominator a'.denominator
  index : SameField a.index a'.index
  delim : a.delim = a'.delim
  leftDelim : a.leftDelim = a'.leftDelim
  rightDelim : a.rightDelim = a'.rightDelim
  font : a.font = a'.font

/-! ### Tight rows -/

theorem type_tight (a : Atom) : a.tight.type = a.type := by
  obtain ⟨type, value, latex, f1, f2, f3, f4, f5, f6, delim, left, right, font⟩ := a
  rw [tight]

theorem tightRow_eq (row : List Atom) : tightRow row = (unspaced row).map tight := by
  induction row with
  | nil => rw [tightRow]; rfl
  | cons a row ih =>
    rw [tightRow]
    by_cases hs : a.type = .spacing
    · rw [if_pos hs, ih, unspaced_cons_of_spacing hs]
    · rw [if_neg hs, ih, unspaced_cons_of_ne hs, List.map_cons]

mutual

/-- A tight atom has no more spaces to leave out. -/
theorem tight_tight : ∀ a : Atom, a.tight.tight = a.tight
  | ⟨type, value, latex, f1, f2, f3, f4, f5, f6, delim, left, right, font⟩ => by
    rw [tight, tight, tightField_tightField f1, tightField_tightField f2, tightField_tightField f3,
      tightField_tightField f4, tightField_tightField f5, tightField_tightField f6]

theorem tightField_tightField : ∀ field : Option (List Atom), tightField (tightField field) = tightField field
  | none => rfl
  | some row => by rw [tightField, tightField, tightRow_tightRow row]

theorem tightRow_tightRow : ∀ row : List Atom, tightRow (tightRow row) = tightRow row
  | [] => by rw [tightRow, tightRow]
  | a :: row => by
    rw [tightRow]
    split
    · exact tightRow_tightRow row
    · rename_i hs
      rw [tightRow, type_tight, if_neg hs, tight_tight a, tightRow_tightRow row]

end

/-! ### Fields -/

namespace SameField

variable {field field' : Option (List Atom)}

theorem refl (field : Option (List Atom)) : SameField field field := rfl

theorem isSome (h : SameField field field') : field.isSome = field'.isSome := by
  unfold SameField at h
  cases field <;> cases field' <;> simp_all [tightField]

theorem row (h : SameField field field') : tightRow (field.getD []) = tightRow (field'.getD []) := by
  unfold SameField at h
  cases field <;> cases field' <;> simp_all [tightField]

end SameField

theorem SameScripts.refl (a : Atom) : SameScripts a a := ⟨.refl _, .refl _⟩

theorem SameScripts.hasScripts {a a' : Atom} (h : SameScripts a a') : a.hasScripts = a'.hasScripts := by
  unfold Atom.hasScripts
  rw [h.superscript.isSome, h.subscript.isSome]

theorem akin_of_tight {a a' : Atom} (h : a.tight = a'.tight) : Akin a a' ∧ SameScripts a a' := by
  obtain ⟨type, value, latex, f1, f2, f3, f4, f5, f6, delim, left, right, font⟩ := a
  obtain ⟨type', value', latex', g1, g2, g3, g4, g5, g6, delim', left', right', font'⟩ := a'
  rw [tight, tight, Atom.mk.injEq] at h
  obtain ⟨rfl, rfl, rfl, h1, h2, h3, h4, h5, h6, rfl, rfl, rfl, rfl⟩ := h
  exact ⟨⟨rfl, rfl, rfl, h3, h4, h5, h6, rfl, rfl, rfl, rfl⟩, ⟨h1, h2⟩⟩

/-! ### Texts of rows -/

/-- Spaces have no text. -/
theorem plainText_tightRow (row : List Atom) : plainText (tightRow row) = plainText row := by
  have shown : (tightRow row).filter (fun a => a.type = .ordinary || a.type = .textual || a.type = .text) =
      (row.filter fun a => a.type = .ordinary || a.type = .textual || a.type = .text).map tight := by
    rw [tightRow_eq, List.filter_map, unspaced, List.filter_filter]
    refine congrArg (List.map tight) (List.filter_congr fun a _ => ?_)
    simp only [Function.comp_apply, type_tight]
    cases a.type <;> rfl
  have parts : ∀ row : List Atom, (row.map tight).mapM (fun a => if a.value.isVoid then a.text else .ok a.value) =
      row.mapM (fun a => if a.value.isVoid then a.text else .ok a.value) := by
    intro row
    induction row with
    | nil => rfl
    | cons a row ih =>
      have hvalue : (if a.tight.value.isVoid then a.tight.text else .ok a.tight.value) =
          if a.value.isVoid then a.text else .ok a.value := by
        obtain ⟨type, value, latex, f1, f2, f3, f4, f5, f6, delim, left, right, font⟩ := a
        rw [tight]
        rfl
      rw [List.map_cons, List.mapM_cons, List.mapM_cons, ih, hvalue]
  unfold plainText
  dsimp only
  rw [shown, parts]

/-! ### Questions about atoms that are akin -/

namespace Akin

variable {a a' : Atom} {c : Catalog} (h : Akin a a')

include h

theorem text_eq : a.text = a'.text := by
  unfold Atom.text
  rw [h.latex, h.value]

theorem name_eq : a.name c = a'.name c := by
  unfold Atom.name
  rw [h.text_eq]

theorem precedence_eq : a.precedence c = a'.precedence c := by
  unfold Atom.precedence
  rw [h.type, h.name_eq]

theorem sign_eq : a.sign? c = a'.sign? c := by
  unfold Atom.sign?
  rw [h.type, h.name_eq]

theorem isFunction_eq : a.isFunction c = a'.isFunction c := by
  unfold Atom.isFunction
  rw [h.type, h.name_eq, h.text_eq]

theorem glyph_eq : a.glyph = a'.glyph := by
  unfold Atom.glyph
  rw [h.type, h.delim, h.text_eq]

theorem closes_eq (closer : Closer) : a.closes closer = a'.closes closer := by
  unfold Atom.closes
  rw [h.type, h.glyph_eq]

theorem closesAny_eq : ∀ closers : List Closer, a.closesAny closers = a'.closesAny closers
  | [] => rfl
  | closer :: rest => by rw [closesAny, closesAny, h.closes_eq, closesAny_eq rest]

theorem opener_eq : a.opener? = a'.opener? := by
  unfold Atom.opener?
  rw [h.type, h.text_eq, h.delim]

theorem isPlaceholder_eq : a.isPlaceholder = a'.isPlaceholder := by
  unfold Atom.isPlaceholder
  rw [h.type, h.value]

theorem startsOperand_eq (closers : List Closer) : a.startsOperand c closers = a'.startsOperand c closers := by
  unfold Atom.startsOperand
  rw [h.closesAny_eq, h.precedence_eq, h.type, h.isPlaceholder_eq, h.delim, h.text_eq]

theorem isDigit_eq : a.isDigit = a'.isDigit := by
  unfold Atom.isDigit
  rw [h.type, h.text_eq]

theorem signOf_eq : a.signOf? = a'.signOf? := by
  unfold Atom.signOf?
  rw [h.type, h.text_eq]

theorem postfixFunction_eq : a.postfixFunction? = a'.postfixFunction? := by
  unfold Atom.postfixFunction?
  rw [h.type, h.text_eq]

theorem variant_eq : a.variant = a'.variant := by
  unfold Atom.variant
  rw [h.font]

theorem symbol_eq : a.symbol c = a'.symbol c := by
  unfold Atom.symbol
  rw [h.name_eq, h.value, h.variant_eq]

theorem plainText_eq : plainText (a.body.getD []) = plainText (a'.body.getD []) := by
  rw [← plainText_tightRow, h.body.row, plainText_tightRow]

theorem inFont_eq : a.inFont = a'.inFont := by
  unfold Atom.inFont
  rw [h.plainText_eq, h.font, h.variant_eq]

theorem asText_eq : a.asText = a'.asText := by
  unfold Atom.asText
  rw [h.plainText_eq, h.value]

theorem unexpected_eq : a.unexpected = a'.unexpected := by
  unfold Atom.unexpected
  rw [h.text_eq, h.type]

theorem keyed {F : Fault → Prop} (hkeyed : a.Keyed F) : a'.Keyed F := by
  unfold Atom.Keyed at hkeyed ⊢
  rwa [← h.text_eq]

end Akin

end Atom

end Formula
