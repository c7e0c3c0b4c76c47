import Formula.Expr.OfAtoms
import Formula.Proofs.Settling

/-!
# The weight of rows and their pieces

What is left to read is measured by weight: every atom in sight counts one and all that matters inside of it, as
`Atom.size` counts.  A reader sees a row of atoms from its place on, and drops the spaces of a nested row before it
looks inside; so a space in sight counts as well, and a nested row weighs less than the atom that holds it.

The readers cut pieces off a row: a numeral from its front, a fence up to its closer, the arguments between commas.  Each
piece is a part of the row, and the pieces together weigh no more than the row.
-/

namespace Formula

namespace Atom

/-- The row without its spaces. -/
def unspaced (atoms : List Atom) : List Atom := atoms.filter fun a => a.type ≠ .spacing

/-- The sequences inside an atom, as its fields. -/
def fields (a : Atom) : List (Option (List Atom)) :=
  [a.superscript, a.subscript, a.body, a.numerator, a.denominator, a.index]

/-- The atom and all that matters inside of it. -/
def weight (a : Atom) : Nat :=
  1 + fieldSize a.superscript + fieldSize a.subscript + fieldSize a.body + fieldSize a.numerator +
    fieldSize a.denominator + fieldSize a.index

/-- The weight of the atoms of a row. -/
def rowWeight : List Atom → Nat
  | [] => 0
  | a :: rest => a.weight + rowWeight rest

/-! ### Spaces -/

theorem unspaced_cons_of_spacing {a : Atom} (h : a.type = .spacing) (rest : List Atom) :
    unspaced (a :: rest) = unspaced rest := List.filter_cons_of_neg (by simp [h])

theorem unspaced_cons_of_ne {a : Atom} (h : a.type ≠ .spacing) (rest : List Atom) :
    unspaced (a :: rest) = a :: unspaced rest := List.filter_cons_of_pos (by simp [h])

theorem unspaced_append (s t : List Atom) : unspaced (s ++ t) = unspaced s ++ unspaced t := List.filter_append ..

theorem unspaced_unspaced (atoms : List Atom) : unspaced (unspaced atoms) = unspaced atoms := by
  unfold unspaced
  rw [List.filter_filter]
  simp only [Bool.and_self]

theorem infix_unspaced {s t : List Atom} (h : s <:+: t) : unspaced s <:+: unspaced t := by
  obtain ⟨u, v, rfl⟩ := h
  exact ⟨unspaced u, unspaced v, by rw [unspaced_append, unspaced_append]⟩

/-- A row without spaces stays as it is. -/
theorem unspaced_eq_self {atoms : List Atom} (h : ∀ a ∈ atoms, a.type ≠ .spacing) : unspaced atoms = atoms := by
  unfold unspaced
  exact List.filter_eq_self.mpr fun a ha => decide_eq_true (h a ha)

theorem unspaced_singleton {a : Atom} (h : a.type ≠ .spacing) : unspaced [a] = [a] := unspaced_cons_of_ne h []

theorem ne_spacing_of_mem_unspaced {atoms : List Atom} {a : Atom} (h : a ∈ unspaced atoms) : a.type ≠ .spacing :=
  of_decide_eq_true (List.mem_filter.mp h).2

/-! ### Single atoms -/

theorem weight_pos (a : Atom) : 0 < a.weight := by
  unfold weight
  omega

theorem size_of_ne_spacing {a : Atom} (h : a.type ≠ .spacing) : a.size = a.weight := by
  obtain ⟨type, value, latex, f1, f2, f3, f4, f5, f6, delim, left, right, font⟩ := a
  rw [size, if_neg h, weight]

theorem size_of_spacing {a : Atom} (h : a.type = .spacing) : a.size = 0 := by
  obtain ⟨type, value, latex, f1, f2, f3, f4, f5, f6, delim, left, right, font⟩ := a
  rw [size, if_pos h]

theorem size_le_weight (a : Atom) : a.size ≤ a.weight := by
  by_cases h : a.type = .spacing
  · rw [size_of_spacing h]
    exact Nat.zero_le _
  · exact Nat.le_of_eq (size_of_ne_spacing h)

/-- What matters in a field weighs less than the atom. -/
theorem fieldSize_lt_weight {a : Atom} {field : Option (List Atom)} (h : field ∈ a.fields) :
    fieldSize field < a.weight := by
  unfold weight
  simp only [fields, List.mem_cons, List.not_mem_nil, or_false] at h
  rcases h with rfl | rfl | rfl | rfl | rfl | rfl <;> omega

theorem listSize_getD (field : Option (List Atom)) : listSize (field.getD []) = fieldSize field := by
  cases field with
  | none => rfl
  | some atoms => rfl

/-! ### Rows -/

theorem rowWeight_append (s t : List Atom) : rowWeight (s ++ t) = rowWeight s + rowWeight t := by
  induction s with
  | nil => simp [rowWeight]
  | cons a s ih => simp only [List.cons_append, rowWeight, ih, Nat.add_assoc]

theorem rowWeight_suffix {s t : List Atom} (h : s <:+ t) : rowWeight s ≤ rowWeight t := by
  obtain ⟨u, rfl⟩ := h
  rw [rowWeight_append]
  exact Nat.le_add_left _ _

/-- A proper suffix weighs less. -/
theorem rowWeight_suffix_lt {s t : List Atom} (h : s <:+ t) (hlt : s.length < t.length) :
    rowWeight s < rowWeight t := by
  obtain ⟨u, rfl⟩ := h
  cases u with
  | nil => exact absurd hlt (Nat.lt_irrefl _)
  | cons a u =>
    have := weight_pos a
    rw [List.cons_append, rowWeight, rowWeight_append]
    omega

theorem listSize_append (s t : List Atom) : listSize (s ++ t) = listSize s + listSize t := by
  induction s with
  | nil => simp [listSize]
  | cons a s ih => simp only [List.cons_append, listSize, ih, Nat.add_assoc]

theorem listSize_reverse (s : List Atom) : listSize s.reverse = listSize s := by
  induction s with
  | nil => rfl
  | cons a s ih =>
    rw [List.reverse_cons, listSize_append, ih]
    simp only [listSize]
    omega

theorem listSize_le_rowWeight (atoms : List Atom) : listSize atoms ≤ rowWeight atoms := by
  induction atoms with
  | nil => exact Nat.le_refl _
  | cons a rest ih =>
    have := size_le_weight a
    simp only [listSize, rowWeight]
    omega

/-- Without its spaces a row weighs what matters in it. -/
theorem rowWeight_unspaced (atoms : List Atom) : rowWeight (unspaced atoms) = listSize atoms := by
  induction atoms with
  | nil => rfl
  | cons a rest ih =>
    by_cases h : a.type = .spacing
    · rw [unspaced_cons_of_spacing h, ih, listSize, size_of_spacing h, Nat.zero_add]
    · rw [unspaced_cons_of_ne h, rowWeight, ih, listSize, size_of_ne_spacing h]

/-! ### Numerals -/

/-- A scan stops in front of the row that it began with, or behind one of its atoms. -/
theorem scanNumeralFrom_rest : ∀ (atoms : List Atom) {state : NumeralState} {chars : List Char} {last : Option Atom}
    {numeral : NumeralReading}, scanNumeralFrom state chars last atoms = .ok numeral →
    numeral = ⟨chars.reverse, last, atoms⟩ ∨ ∃ b, numeral.last = some b ∧ b :: numeral.rest <:+ atoms
  | [], state, chars, last, numeral, h => by
    rw [scanNumeralFrom] at h
    cases h
    exact .inl rfl
  | a :: rest, state, chars, last, numeral, h => by
    rw [scanNumeralFrom] at h
    obtain ⟨found, -, h⟩ := Outcome.bind_eq_ok.mp h
    obtain _ | ⟨added, next⟩ := found
    · cases h
      exact .inl rfl
    · dsimp only at h
      split at h
      · cases h
        exact .inr ⟨a, rfl, List.suffix_rfl⟩
      · rcases scanNumeralFrom_rest rest h with rfl | ⟨b, hb, hs⟩
        · exact .inr ⟨a, rfl, List.suffix_rfl⟩
        · exact .inr ⟨b, hb, hs.trans (List.suffix_cons _ _)⟩

/-- A numeral with a digit ends behind an atom of the row. -/
theorem scanNumeral_last {atoms : List Atom} {numeral : NumeralReading} (h : scanNumeral atoms = .ok numeral)
    (hd : numeral.chars.any Char.isDigit = true) : ∃ b, numeral.last = some b ∧ b :: numeral.rest <:+ atoms := by
  rcases scanNumeralFrom_rest atoms h with rfl | hb
  · cases hd
  · exact hb

end Atom

namespace Expr

open Atom

/-! ### Arguments -/

/-- A fence that closes splits the row. -/
theorem splitAtCloser_eq : ∀ {atoms : List Atom} {depth : Nat} {inner rest : List Atom} {last : Atom},
    splitAtCloser depth atoms = some (inner, last, rest) → atoms = inner ++ last :: rest
  | [], depth, inner, rest, last, h => by cases h
  | a :: tail, depth, inner, rest, last, h => by
    rw [splitAtCloser] at h
    split at h
    · cases h
      rfl
    · obtain ⟨⟨inner', last', rest'⟩, hs, he⟩ := Option.map_eq_some_iff.mp h
      cases he
      rw [splitAtCloser_eq hs]
      rfl

/-- The row is split at a closing atom. -/
theorem type_of_splitAtCloser : ∀ {atoms : List Atom} {depth : Nat} {inner rest : List Atom} {last : Atom},
    splitAtCloser depth atoms = some (inner, last, rest) → last.type = .closing
  | [], depth, inner, rest, last, h => by cases h
  | a :: tail, depth, inner, rest, last, h => by
    rw [splitAtCloser] at h
    split at h
    · rename_i hcloses
      cases h
      exact hcloses.1
    · obtain ⟨⟨inner', last', rest'⟩, hs, he⟩ := Option.map_eq_some_iff.mp h
      cases he
      exact type_of_splitAtCloser hs

/-- Where the arguments of a call stand: in an atom with a body, or between an opening atom and a closing one. -/
theorem callArguments?_eq {atoms inner rest : List Atom} {last : Atom}
    (h : callArguments? atoms = .ok (some (inner, last, rest))) :
    (atoms = last :: rest ∧ inner = last.body.getD []) ∨ ∃ a, atoms = a :: (inner ++ last :: rest) := by
  cases atoms with
  | nil => cases h
  | cons a tail =>
    rw [callArguments?] at h
    split at h
    · split at h
      · cases h
        exact .inl ⟨rfl, rfl⟩
      · cases h
    · obtain ⟨text, -, h⟩ := Outcome.bind_eq_ok.mp h
      split at h
      · exact .inr ⟨a, by rw [splitAtCloser_eq (Except.ok.inj h)]⟩
      · cases h
    · cases h

/-- Arguments stand in a fence. -/
theorem callArguments?_none {a : Atom} {rest : List Atom} (hf : a.type ≠ .fenced) (ho : a.type ≠ .opening) :
    callArguments? (a :: rest) = .ok none := by
  rw [callArguments?]
  split
  · rename_i h
    exact absurd h hf
  · rename_i h
    exact absurd h ho
  · rfl

/-- The weight of several rows. -/
def partsSize : List (List Atom) → Nat
  | [] => 0
  | part :: rest => listSize part + partsSize rest

/-- At an atom the row is split, if it is a comma outside of fences, or the part goes on. -/
theorem splitAtCommas_cons {a : Atom} {rest part : List Atom} {depth : Int} {parts : List (List Atom)}
    (h : splitAtCommas depth part (a :: rest) = .ok parts) : ∃ next,
    (a.type = .punctuation ∧ ∃ more, splitAtCommas next [] rest = .ok more ∧ parts = part.reverse :: more) ∨
      splitAtCommas next (a :: part) rest = .ok parts := by
  rw [splitAtCommas] at h
  dsimp only at h
  generalize (if a.type = .opening then depth + 1 else if a.type = .closing then depth - 1 else depth) = next at h
  refine ⟨next, ?_⟩
  split at h
  · rename_i hcomma
    obtain ⟨comma, -, h⟩ := Outcome.bind_eq_ok.mp h
    split at h
    · obtain ⟨more, hm, h⟩ := Outcome.bind_eq_ok.mp h
      cases h
      exact .inl ⟨hcomma.2, more, hm, rfl⟩
    · exact .inr h
  · exact .inr h

/-- There is at least one row between commas. -/
theorem splitAtCommas_pos : ∀ {atoms part : List Atom} {depth : Int} {parts : List (List Atom)},
    splitAtCommas depth part atoms = .ok parts → 0 < parts.length
  | [], part, depth, parts, h => by
    rw [splitAtCommas] at h
    cases h
    exact Nat.one_pos
  | a :: rest, part, depth, parts, h => by
    obtain ⟨next, ⟨-, more, -, rfl⟩ | h⟩ := splitAtCommas_cons h
    · exact Nat.succ_pos _
    · exact splitAtCommas_pos h

/-- Rows between commas are parts of the row, and the commas between them have a weight of their own. -/
theorem splitAtCommas_parts : ∀ {atoms part : List Atom} {depth : Int} {parts : List (List Atom)},
    splitAtCommas depth part atoms = .ok parts →
    (∀ s ∈ parts, s <:+: part.reverse ++ atoms) ∧ partsSize parts + parts.length ≤ listSize part + listSize atoms + 1
  | [], part, depth, parts, h => by
    rw [splitAtCommas] at h
    cases h
    refine ⟨fun s hs => ?_, ?_⟩
    · obtain rfl := List.mem_singleton.mp hs
      exact (List.prefix_append _ _).isInfix
    · simp [partsSize, listSize, listSize_reverse]
  | a :: rest, part, depth, parts, h => by
    obtain ⟨next, ⟨hcomma, more, hm, rfl⟩ | h⟩ := splitAtCommas_cons h
    · obtain ⟨hparts, hsize⟩ := splitAtCommas_parts hm
      have hpos := weight_pos a
      have hw : a.size = a.weight := size_of_ne_spacing (by rw [hcomma]; decide)
      refine ⟨fun s hs => ?_, ?_⟩
      · rcases List.mem_cons.mp hs with rfl | hs
        · exact (List.prefix_append _ _).isInfix
        · exact (hparts s hs).trans ⟨part.reverse ++ [a], [], by simp⟩
      · simp only [partsSize, listSize_reverse, List.length_cons, listSize, hw] at hsize ⊢
        omega
    · obtain ⟨hparts, hsize⟩ := splitAtCommas_parts h
      refine ⟨fun s hs => ?_, ?_⟩
      · have := hparts s hs
        rwa [List.reverse_cons, List.append_assoc] at this
      · simp only [listSize] at hsize ⊢
        omega

end Expr

end Formula
