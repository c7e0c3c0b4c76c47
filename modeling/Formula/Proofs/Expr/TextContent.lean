import Formula.Proofs.Format.Braces
import Formula.Proofs.Expr.NamedCalls

/-!
# Texts are read back as they are written

The content of a text stands between braces as it is, with all its blanks, comments, commands and braces.  The scan of a
source finds the end of the group by counting braces, and that is the end of the content if the content closes the groups
that it opens, no others, and does not end in a backslash, which would make a sign of the closing brace.

Main statement: `text_reread`, for all such contents.
-/

namespace Formula

open Text Atom Expr

/-! ### The end of the content -/

/-- Characters in front change how many groups are open, and move the end of the group. -/
theorem Token.groupLength_steps {cs : List Char} : ∀ {state next : Bool × Nat}, cs.foldlM Format.braceStep state = some next →
    ∀ rest, groupLength (state.2 + 1) state.1 (cs ++ rest) = (groupLength (next.2 + 1) next.1 rest).map (· + cs.length) := by
  induction cs with
  | nil =>
    rintro state next ⟨⟩ rest
    exact Option.map_id'.symm
  | cons d cs ih =>
    rintro ⟨escaped, level⟩ next h rest
    rw [List.foldlM_cons] at h
    obtain ⟨between, hstep, hrest⟩ := Option.bind_eq_some_iff.mp h
    have hbehind : groupLength (level + 1) escaped (d :: (cs ++ rest)) =
        (groupLength (between.2 + 1) between.1 (cs ++ rest)).map (· + 1) := by
      unfold Format.braceStep at hstep
      rw [groupLength]
      dsimp only at hstep
      split at hstep
      next hopen =>
        cases hstep
        rw [if_pos hopen]
        rfl
      next hopen =>
        rw [if_neg hopen]
        split at hstep
        next hclose =>
          split at hstep
          next => cases hstep
          next hlevel =>
            cases hstep
            rw [if_pos hclose, if_neg (by omega), show (level : Int) + 1 - 1 = ((level - 1 : Nat) : Int) + 1 by omega]
        next hclose =>
          cases hstep
          rw [if_neg hclose]
    rw [List.cons_append, hbehind, ih hrest, Option.map_map]
    rfl

/-- The group of a sealed content ends at the brace behind it. -/
theorem Format.IsSealed.fillsGroup {content : String} (h : IsSealed content) : Token.FillsGroup content.toList := by
  intro rest
  have hgroup := Token.groupLength_steps h ('\x7d' :: rest)
  rw [Token.groupLength, if_neg (by decide), if_pos (by decide), if_pos (by decide)] at hgroup
  exact hgroup.trans (congrArg some (Nat.add_comm _ _))

/-! ### The atom of a text -/

theorem startsNoun_textAtom (content : String) : StartsNoun (Source.textAtom content) where
  worded := ⟨⟨_, rfl⟩, .inr ⟨_, rfl⟩, .inl rfl, .inl rfl, .inl rfl, .inl rfl⟩
  spelling t ht := by
    have hlist := Source.toList_text content
    have hspelled := @text_of_latex (Source.textAtom content) _ '\\' '\x7d' (['t', 'e', 'x', 't'] ++ '\x7b' :: content.toList)
      rfl (by rw [hlist]; simp) (by decide) (by decide)
    rw [← Datum.text.inj (Except.ok.inj (hspelled.symm.trans ht))]
    refine ⟨fun h => ?_, fun h => ?_⟩ <;>
      · rw [h] at hlist
        cases hlist
  type := ⟨fun h => (by cases h), fun h => (by cases h)⟩
  placeholder := rfl

/-- An atom of a text is its content, also where that is empty. -/
theorem atom_textAtom (content : String) :
    Grammar.atom .builtin (Source.textAtom content) = .ok (ofText (.text content)) := by
  rw [Grammar.atom_eq]
  show (Source.textAtom content).asText = _
  unfold Atom.asText
  by_cases h : (Datum.text content).isVoid = true
  · obtain rfl := String.isEmpty_iff.mp h
    rfl
  · show (if (Datum.text content).isVoid = true then _ else _) = _
    rw [if_neg h]
    rfl

theorem isOperandText_text {content : String} (h : Format.IsSealed content) :
    IsOperandText ("\\text" ++ braced content) (ofText (.text content)) := by
  refine ⟨_, Source.spells_text h.fillsGroup, ?_⟩
  rw [unspaced_singleton fun h => by cases h]
  exact isOperand_construct (startsNoun_textAtom content) (.tail _ (.tail _ (.tail _ (.head _)))) (atom_textAtom content)
    (.plain rfl _) rfl

/-- **The content of a text is read back as it was written**, if its braces balance and it does not end in a backslash. -/
theorem text_reread (f : Format) {content : String} (hbraces : Format.BracesBalance content)
    (hslash : content.toList.getLast? ≠ some '\\') :
    ∃ latex atoms, (ofText (.text content)).latex f .builtin = .ok latex ∧ Source.atoms .builtin latex = .ok atoms ∧
      ofAtoms .builtin atoms = .ok (ofText (.text content)) := by
  have hwhole : IsWholeText ("\\text" ++ braced content) (ofText (.text content)) :=
    (isOperandText_text (Format.isSealed_iff_bracesBalance.mpr ⟨hbraces, hslash⟩)).isPrimaryText.isChainText.isWholeText (.leaf _)
  obtain ⟨atoms, hatoms, hread⟩ := hwhole.reads
  refine ⟨_, atoms, ?_, hatoms, hread⟩
  show Except.ok ("\\text" ++ braced content ++ "") = _
  rw [String.append_empty]

/-- A comment up to the end of a line, a group in a group, a command with its argument, and signs of braces. -/
theorem text_reread_comment :
    Format.BracesBalance "a% \\\x7b\n\x7b\x7b1\x7d\x7d\\b\x7b\x7d \\\x7d\\\x7d" ∧
      "a% \\\x7b\n\x7b\x7b1\x7d\x7d\\b\x7b\x7d \\\x7d\\\x7d".toList.getLast? ≠ some '\\' ∧
      ∃ latex atoms,
        (ofText (.text "a% \\\x7b\n\x7b\x7b1\x7d\x7d\\b\x7b\x7d \\\x7d\\\x7d")).latex {} .builtin = .ok latex ∧
        Source.atoms .builtin latex = .ok atoms ∧
        ofAtoms .builtin atoms = .ok (ofText (.text "a% \\\x7b\n\x7b\x7b1\x7d\x7d\\b\x7b\x7d \\\x7d\\\x7d")) :=
  have hsealed := Format.isSealed_iff_bracesBalance.mp (by decide)
  ⟨hsealed.1, hsealed.2, text_reread {} hsealed.1 hsealed.2⟩

end Formula
