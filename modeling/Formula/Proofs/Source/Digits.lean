import Formula.Proofs.Number.Repeating
import Formula.Proofs.Number.WholeText

/-!
# Marked digits in a source

Digits behind a point may have a line over a block of them that repeats, and any digits may have the mark behind them that
others were cut off.  In a source the block is written out as digits, and the mark is dropped.
-/

namespace Formula

open Number Text Atom

namespace Source

variable {c : Catalog}

/-! ### Rows of plain digits -/

theorem isPlainDigit_ofCharacter {d : Char} (hd : d.isDigit = true) : isPlainDigit (ofCharacter d) = true := by
  have each : ∀ k < 10, isPlainDigit (ofCharacter (Nat.digitChar k)) = true := by decide
  have := each (d.toNat - 48) (by have := toNat_of_isDigit hd; omega)
  rwa [digitChar_of_isDigit hd] at this

/-- A row of which all atoms are digits or spaces. -/
def IsDigits (row : List Atom) : Prop := ∀ a ∈ row, (a.type == .spacing || isPlainDigit a) = true

/-- Behind a point and digits a block may stand. -/
theorem afterPoint_of_isDigits {point : Atom} {row : List Atom} (hpoint : isPlain point "." = true)
    (htype : point.type ≠ .spacing) (hdigit : isPlainDigit point = false) (h : IsDigits row) (before : List Atom) :
    afterPoint ((point :: row).reverse ++ before) = true := by
  have hstop : (point.type == .spacing || isPlainDigit point) = false := by
    rw [hdigit, Bool.or_false, beq_eq_false_iff_ne]
    exact htype
  unfold afterPoint
  rw [List.reverse_cons, List.append_assoc, List.dropWhile_append_of_pos fun a ha => h a (List.mem_reverse.mp ha),
    List.singleton_append, List.dropWhile_cons_of_neg (by rw [hstop]; exact Bool.false_ne_true)]
  exact hpoint

/-! ### The mark of digits that were cut off -/

/-- Behind a digit the mark is dropped. -/
theorem Yields.ellipsis {tokens : List Token} {row : List Atom} {a : Atom} (h : Yields c tokens (row ++ [a]))
    (ha : isPlainDigit a = true) : Yields c (tokens ++ [.command "ldots"]) (row ++ [a]) := by
  intro stop before depth rest fuel hstop hfuel
  rw [List.append_assoc, List.singleton_append] at hfuel ⊢
  obtain ⟨fuel₁, depth₁, hfuel₁, heq⟩ := h stop before depth (.command "ldots" :: rest) fuel hstop hfuel
  rw [List.length_cons] at hfuel₁
  obtain ⟨fuel₁, rfl⟩ : ∃ n, fuel₁ = n + 1 := ⟨fuel₁ - 1, by omega⟩
  have hafter : afterDigit ((row ++ [a]).reverse ++ before) = true := by
    rw [List.reverse_append, List.reverse_singleton]
    exact ha
  have hellipsis : ellipses.contains (Token.command "ldots").text = true := rfl
  refine ⟨fuel₁, depth₁, by omega, ?_⟩
  rw [heq, readSequence, if_neg (by decide), if_neg (fun h => absurd h.1 (by decide)), if_neg (by decide)]
  show (if Token.command "ldots" = .char '\x7b' then _ else _) = _
  rw [if_neg (by decide), readBlock_none (by decide), hafter, hellipsis]
  rfl

/-! ### The line over a block -/

/-- **Behind a point and digits a block under a line is written out.** -/
theorem Yields.block {tokens inner : List Token} {point : Atom} {row block : List Atom}
    (h : Yields c tokens (point :: row)) (hpoint : isPlain point "." = true) (htype : point.type ≠ .spacing)
    (hdigit : isPlainDigit point = false) (hrow : IsDigits row) (hinner : Yields c inner block) (hne : block ≠ [])
    (hblock : block.all isPlainDigit = true) :
    Yields c (tokens ++ .command "overline" :: inBraces inner) (point :: row ++ repeatBlock block) := by
  intro stop before depth rest fuel hstop hfuel
  rw [List.append_assoc, List.cons_append] at hfuel ⊢
  obtain ⟨fuel₁, depth₁, hfuel₁, heq⟩ := h stop before depth (.command "overline" :: (inBraces inner ++ rest)) fuel hstop hfuel
  rw [List.length_cons] at hfuel₁
  obtain ⟨fuel₁, rfl⟩ : ∃ n, fuel₁ = n + 2 := ⟨fuel₁ - 2, by omega⟩
  obtain ⟨depth₂, hread⟩ := hinner.readArgument rest fuel₁ (by omega)
  have hnonempty : block.isEmpty = false := List.isEmpty_eq_false_iff.mpr hne
  have hfound : readBlock c (fuel₁ + 1) ((point :: row).reverse ++ before) (.command "overline") (inBraces inner ++ rest) =
      .ok (some ⟨rest, block, depth₂⟩) := by
    rw [readBlock, if_pos ⟨rfl, afterPoint_of_isDigits hpoint htype hdigit hrow before⟩, hread]
    show Except.ok (if (!block.isEmpty && block.all isPlainDigit) = true then _ else _) = _
    rw [hnonempty, hblock]
    rfl
  refine ⟨fuel₁ + 1, max depth₁ depth₂, ?_, ?_⟩
  · rw [List.length_append] at hfuel₁
    omega
  · rw [heq, readSequence, if_neg (by decide), if_neg (fun h => absurd h.1 (by decide)), if_neg (by decide)]
    show (if Token.command "overline" = .char '\x7b' then _ else _) = _
    rw [if_neg (by decide), hfound, List.reverse_append, List.append_assoc]
    rfl

/-- How often a block is written out. -/
def copies (block : List Char) : Nat := (repeatedDigits + block.length - 1) / block.length

theorem repeatBlock_ofCharacter (block : List Char) :
    repeatBlock (block.map ofCharacter) = (blocks block (copies block)).map ofCharacter := by
  have hplain : (block.map ofCharacter).map
      (fun a => ({ type := .ordinary, value := a.text.toOption.getD "" } : Atom)) = block.map ofCharacter := by
    rw [List.map_map]
    rfl
  unfold repeatBlock
  dsimp only
  rw [hplain, List.length_map, blocks, List.map_flatten, List.map_replicate]
  rfl

/-- A block is written out to at least `repeatedDigits` digits. -/
theorem repeatedDigits_le {block : List Char} (hne : block ≠ []) : repeatedDigits ≤ (blocks block (copies block)).length := by
  have hpos := List.length_pos_iff.mpr hne
  rw [length_blocks, copies]
  have hdiv := Nat.div_add_mod (repeatedDigits + block.length - 1) block.length
  have hmod := Nat.mod_lt (repeatedDigits + block.length - 1) hpos
  rw [Nat.mul_comm] at hdiv
  omega

theorem blocks_ne_nil {block : List Char} (hne : block ≠ []) : blocks block (copies block) ≠ [] :=
  List.ne_nil_of_length_pos (Nat.lt_of_lt_of_le (by decide) (repeatedDigits_le hne))

/-! ### Texts -/

theorem unspaced_digits (digits : List Char) : unspaced (digits.map ofCharacter) = digits.map ofCharacter := by
  refine unspaced_eq_self fun a ha => ?_
  obtain ⟨d, -, rfl⟩ := List.mem_map.mp ha
  exact fun h => by cases h

/-- The atom of a decimal point. -/
def pointAtom : Atom := ofCharacter '.'

theorem spells_point : Spells .builtin "." [pointAtom] :=
  spells_char (d := '.') (by decide) (by decide) (by decide) (by decide) (by decide) rfl

theorem isDigits_of_unspaced {row : List Atom} {digits : List Char} (h : ∀ d ∈ digits, d.isDigit = true)
    (hrow : unspaced row = digits.map ofCharacter) : IsDigits row := by
  intro a ha
  by_cases hspace : a.type = .spacing
  · rw [hspace]
    rfl
  · have hmem : a ∈ unspaced row := List.mem_filter.mpr ⟨ha, decide_eq_true hspace⟩
    rw [hrow] at hmem
    obtain ⟨d, hd, rfl⟩ := List.mem_map.mp hmem
    rw [isPlainDigit_ofCharacter (h d hd), Bool.or_true]

/-- Digits in groups spell themselves, with spaces between them. -/
theorem spells_spaced (first : Nat) {digits : List Char} (hne : digits ≠ []) (h : ∀ d ∈ digits, d.isDigit = true) :
    ∃ row a, Spells .builtin (Format.spaced (Format.groupsFrom first digits)) (row ++ [a]) ∧
      unspaced (row ++ [a]) = digits.map ofCharacter ∧ isPlainDigit a = true ∧ IsThinlySpaced (row ++ [a]) := by
  have hflatten := Format.flatten_groupsFrom first digits
  have hgroups : Format.groupsFrom first digits ≠ [] := by
    intro hnil
    rw [hnil] at hflatten
    exact hne hflatten.symm
  obtain ⟨row, last, hspells, hrow, hthin⟩ := spells_groups hgroups (Format.groupsFrom_ne_nil first hne)
    fun group hg d hd => h d (Format.mem_of_mem_groupsFrom hg hd)
  rw [hflatten] at hrow
  refine ⟨row, ofCharacter last, hspells, hrow, ?_, hthin⟩
  have hdigits := isDigits_of_unspaced h hrow (ofCharacter last) (List.mem_append_right _ (List.mem_singleton_self _))
  exact hdigits

/-- A block under a line behind a point and digits. -/
theorem Spells.block {s : String} {row : List Atom} {block : List Char} (h : Spells .builtin s (pointAtom :: row))
    (hrow : IsDigits row) (hne : block ≠ []) (hblock : ∀ d ∈ block, d.isDigit = true) :
    Spells .builtin (s ++ ("\\overline" ++ ("\x7b" ++ String.ofList block ++ "\x7d")))
      (pointAtom :: row ++ (blocks block (copies block)).map ofCharacter) := by
  obtain ⟨tokens, hscans, hyields⟩ := h
  obtain ⟨inner, hscans', hyields'⟩ := spells_digits hblock
  have hplain : (block.map ofCharacter).all isPlainDigit = true := by
    rw [List.all_map, List.all_eq_true]
    exact fun d hd => isPlainDigit_ofCharacter (hblock d hd)
  have hread := hyields.block (by decide) (by decide) (by decide) hrow hyields' (fun h => hne (List.map_eq_nil_iff.mp h)) hplain
  rw [repeatBlock_ofCharacter] at hread
  refine ⟨_, ?_, hread⟩
  have hline := @Token.Scans.command "overline".toList _ _ _ (by decide) (by decide) (by decide) (by decide)
    (scans_braces hscans'.before)
  rw [String.toList_append, String.toList_append, toList_braced]
  exact hscans.append hline

/-- The mark of digits that were cut off. -/
theorem Spells.ellipsis {s : String} {row : List Atom} {a : Atom} (h : Spells c s (row ++ [a]))
    (ha : isPlainDigit a = true) : SpellsBefore c (s ++ "\\ldots") (row ++ [a]) := by
  obtain ⟨tokens, hscans, hyields⟩ := h
  refine ⟨tokens ++ [.command "ldots"], ?_, hyields.ellipsis ha⟩
  rw [String.toList_append]
  exact hscans.append_before (@Token.scansBefore_command "ldots".toList (by decide) (by decide) (by decide))

end Source

end Formula
