import Formula.Proofs.Catalog.Symbols
import Formula.Proofs.Expr.Writing

/-!
# Symbols through their text

A symbol is a letter or a character that has a command, and it is written as itself or as its command.  The text of a
command is read as the symbol wherever no letter follows it.  In a row a symbol is an operand.  The nabla is one as well,
unless the sign of a product follows it: both together are the mark of a divergence or of a curl.
-/

namespace Formula

open Text Atom Expr

/-- The source is read as the expression. -/
def IsReadAs (source : String) (e : Expr) : Prop :=
  ∃ atoms, Source.atoms .builtin source = .ok atoms ∧ ofAtoms .builtin atoms = .ok e

theorem IsReadAs.unique {source : String} {e e' : Expr} (h : IsReadAs source e) (h' : IsReadAs source e') : e = e' := by
  obtain ⟨atoms, hatoms, he⟩ := h
  obtain ⟨atoms', hatoms', he'⟩ := h'
  rw [hatoms] at hatoms'
  obtain rfl := Except.ok.inj hatoms'
  exact Except.ok.inj (he.symm.trans he')

theorem isReadAs_iff {source : String} {e : Expr} :
    IsReadAs source e ↔ (do ofAtoms .builtin (← Source.atoms .builtin source)) = .ok e := by
  unfold IsReadAs
  cases Source.atoms .builtin source with
  | error f => exact ⟨fun ⟨_, h, _⟩ => (by cases h), fun h => (by cases h)⟩
  | ok atoms =>
    refine ⟨?_, fun h => ⟨atoms, rfl, h⟩⟩
    rintro ⟨_, ⟨⟩, h⟩
    exact h

/-- The name of the function of a call. -/
def Expr.callee : Expr → Datum
  | call name .. => name
  | _ => .null

/-- A source that is read as no call of the function is not read as one with any argument. -/
theorem not_isReadAs_apply {source name : String} {arg : Expr}
    (h : (do ofAtoms .builtin (← Source.atoms .builtin source) : Outcome Expr).toOption.map (·.callee.isText name) = some false) :
    ¬IsReadAs source (apply name arg) := by
  intro hread
  rw [isReadAs_iff.mp hread] at h
  have hname : (apply name arg).callee.isText name = true := beq_self_eq_true name
  rw [show (apply name arg).callee.isText name = false from Option.some.inj h] at hname
  cases hname

/-- A text is read as what its row is read as. -/
theorem IsWhole.isReadAs {row : List Atom} {e : Expr} (h : IsWhole .builtin row e) {s : String}
    (hspells : Source.SpellsBefore .builtin s row) : IsReadAs s e :=
  ⟨row, hspells.atoms, by rw [ofAtoms_eq, h.read]⟩

/-! ### Letters -/

/-- The token has an atom of its own, which is read as the letter. -/
structure IsLetterToken (d : Char) (token : Token) (a : Atom) : Prop where
  yields : Source.Yields .builtin [token] [a]
  operand : IsOperand .builtin [a] (letterSymbol d)
  atom : a = ofCharacter d ∨ ∃ command, a = Atom.ofCommand command d

theorem IsLetterToken.type {d : Char} {token : Token} {a : Atom} (h : IsLetterToken d token a) : a.type = .ordinary := by
  rcases h.atom with rfl | ⟨command, rfl⟩ <;> rfl

theorem IsLetterToken.value {d : Char} {token : Token} {a : Atom} (h : IsLetterToken d token a) : a.value = .text d.toString := by
  rcases h.atom with rfl | ⟨command, rfl⟩ <;> rfl

section

variable {d : Char} (hd : isLetter d = true)
include hd

theorem isLetterToken_char : IsLetterToken d (.char d) (ofCharacter d) where
  yields := Source.yields_symbol (Source.isSymbol_character (isLetterOrDigit_of_isLetter hd)) rfl
    (Source.symbolAtom_character (isLetterOrDigit_of_isLetter hd))
  operand := @isOperand_letter _ _ hd none none _ (.plain rfl _) rfl rfl
  atom := .inl rfl

/-- A letter has a token that is read as the letter: itself, or its command. -/
theorem isLetterToken_spelled : ∃ token a, IsLetterToken d token a ∧
    symbolLatex .builtin (.text d.toString) .null = .ok (.text token.text) ∧ Token.ScansBefore token.text.toList [token] := by
  have hne : ∀ e : Char, isLetter e = false → d ≠ e := by
    rintro e he rfl
    rw [he] at hd
    cases hd
  rw [symbolLatex_character (hne _ (by decide))]
  rcases latexForSymbol_cases d.toString with ⟨-, hnone⟩ | ⟨p, hp, hchar, hcommand⟩
  · refine ⟨.char d, ofCharacter d, isLetterToken_char hd, ?_, ?_⟩
    · rw [hnone]
      rfl
    · show Token.ScansBefore d.toString.toList _
      rw [Char.toString, String.toList_singleton]
      exact (Token.scans_char (isBlank_of_isLetter hd) (hne _ (by decide)) (hne _ (by decide)) (hne _ (by decide))).before
  · have hknown := knowsSymbol_letter hp hd hchar
    have htext : Token.text (.command (String.ofList (p.1.toList.drop 1))) = p.1 := by
      rw [← String.toList_inj, Token.text, String.toList_append, @String.toList_ofList (p.1.toList.drop 1)]
      exact hknown.name.symm
    refine ⟨.command (String.ofList (p.1.toList.drop 1)), Atom.ofCommand p.1 d, ⟨?_, isOperand_ofCommand hp hd hchar, .inr ⟨_, rfl⟩⟩,
      ?_, ?_⟩
    · exact Source.yields_symbol hknown.symbol rfl (by rw [htext]; exact symbolAtom_symbol hp hd hchar)
    · rw [hcommand, Datum.orElse_of_not_isVoid hknown.isVoid, htext]
    · rw [htext, hknown.name]
      exact Token.scansBefore_command hknown.letters.1 hknown.letters.2 hknown.verbatim

/-- **A letter is written as a token that is read as the letter.** -/
theorem isLetterToken_written : ∃ token a, IsLetterToken d token a ∧ (letterSymbol d).latex {} .builtin = .ok token.text ∧
    Token.ScansBefore token.text.toList [token] := by
  obtain ⟨token, a, htoken, hspelled, hscan⟩ := isLetterToken_spelled hd
  exact ⟨token, a, htoken, latex_symbol hspelled, hscan⟩

end

/-! ### Symbols -/

/-- A single ASCII letter, or a character of the table of symbols. -/
def IsSymbolCharacter (d : Char) : Prop := d.isAlpha = true ∨ d.toString ∈ Catalog.builtinSymbols.map (·.2)

/-- The atom of the nabla. -/
def nablaAtom : Atom := { type := .textual, value := "∇", latex := "\\nabla" }

/-- The symbol is written as the text, which is read as the atom. -/
structure IsWrittenSymbol (d : Char) (s : String) (a : Atom) : Prop where
  latex : (letterSymbol d).latex {} .builtin = .ok s
  spells : Source.SpellsBefore .builtin s [a]
  type : a.type ≠ .spacing
  addend : IsAddend .builtin [a] (letterSymbol d)
  operand : d ≠ '∇' → IsOperand .builtin [a] (letterSymbol d)
  nabla : d = '∇' → a = nablaAtom

/-- All symbols but four are letters. -/
theorem IsSymbolCharacter.cases {d : Char} (h : IsSymbolCharacter d) : isLetter d = true ∨ d ∈ ['∞', '∂', '∅', '∇'] := by
  rcases h with h | h
  · exact .inl (isLetter_of_isAlpha h)
  · have hlisted : ∀ s ∈ Catalog.builtinSymbols.map (·.2),
        s.toList.all fun e => isLetter e || ['∞', '∂', '∅', '∇'].contains e := by decide +kernel
    have hd := hlisted _ h
    rw [Char.toString, String.toList_singleton, List.all_cons, List.all_nil, Bool.and_true, Bool.or_eq_true,
      List.contains_iff_mem] at hd
    exact hd

theorem IsLetterToken.isWrittenSymbol {d : Char} {token : Token} {a : Atom} (h : IsLetterToken d token a)
    (hlatex : (letterSymbol d).latex {} .builtin = .ok token.text) (hscan : Token.ScansBefore token.text.toList [token])
    (hne : d ≠ '∇') : IsWrittenSymbol d token.text a where
  latex := hlatex
  spells := ⟨[token], hscan, h.yields⟩
  type := by
    rw [h.type]
    decide
  addend := h.operand.isAddend
  operand _ := h.operand
  nabla heq := absurd heq hne

/-- A nabla makes no digraph with what is no sign of a product. -/
theorem digraph_nabla {names : List String} {rest : List Atom} (hworded : ∀ a ∈ rest, a.Worded) (h : Undotted rest) :
    startsWithDigraph? names (nablaAtom :: rest) = .ok none := by
  cases rest with
  | nil => rfl
  | cons b rest =>
    obtain ⟨u, hu⟩ := (hworded b List.mem_cons_self).text
    obtain ⟨hcdot, htimes⟩ := h b u rfl hu
    have hlookup : Glyph.digraphs.lookup ("\\nabla", u) = none := by
      refine List.lookup_eq_none_iff.mpr fun p hp => ?_
      simp only [Glyph.digraphs, List.mem_cons, List.not_mem_nil, or_false] at hp
      rcases hp with rfl | rfl | rfl <;> simp [hcdot, htimes]
    have hnone : Atom.digraph? nablaAtom b = .ok none := by
      unfold Atom.digraph?
      rw [hu]
      exact congrArg Except.ok hlookup
    rw [startsWithDigraph?, hnone]
    rfl

/-- **The nabla is an operand where no sign of a product follows.** -/
theorem isAddend_nabla : IsAddend .builtin [nablaAtom] (letterSymbol '∇') := by
  have hworded : nablaAtom.Worded := ⟨⟨_, rfl⟩, .inr ⟨_, rfl⟩, .inl rfl, .inl rfl, .inl rfl, .inl rfl⟩
  refine ⟨⟨?_, nablaAtom, [], rfl, by decide, rfl⟩, rfl, fun closers rest _ hrest hdot => ⟨nablaAtom, [], rfl, ?_⟩⟩
  · intro a ha
    rw [List.mem_singleton.mp ha]
    exact hworded
  have hatom : Grammar.atom .builtin nablaAtom = .ok (letterSymbol '∇') := by
    rw [Grammar.atom_eq]
    rfl
  have hsymbol : Grammar.symbol .builtin nablaAtom rest = Grammar.marked .builtin nablaAtom rest := by
    rw [Grammar.symbol_eq]
    rfl
  have hsign : nablaAtom.sign? .builtin = .ok none := rfl
  have hfunction : nablaAtom.isFunction .builtin = .ok false := by decide
  have hopener : nablaAtom.opener? = .ok none := rfl
  rw [List.nil_append, ← Grammar.marked_trailing hatom (.plain rfl _) hrest, ← hsymbol, Grammar.operand_eq,
    digraph_nabla hrest.worded hdot, hsign, show nablaAtom.isPlaceholder = false from rfl, startsNumber_of_ne (by decide),
    hfunction, hopener]
  rfl

/-- Three symbols that are no letters are read like those that are. -/
theorem isLetterToken_sign {name : String} {d : Char} (h : (name, d) ∈ [("infty", '∞'), ("partial", '∂'), ("emptyset", '∅')]) :
    IsLetterToken d (.command name) (Atom.ofCommand ("\\" ++ name) d) := by
  simp only [List.mem_cons, Prod.mk.injEq, List.not_mem_nil, or_false] at h
  rcases h with ⟨rfl, rfl⟩ | ⟨rfl, rfl⟩ | ⟨rfl, rfl⟩ <;>
    refine ⟨Source.yields_symbol (by decide) rfl rfl, isOperand_symbol ⟨⟨⟨_, rfl⟩, .inr ⟨_, rfl⟩, .inl rfl, .inl rfl, .inl rfl,
      .inl rfl⟩, fun t ht => ?_, ⟨fun h => (by cases h), fun h => (by cases h)⟩, rfl⟩ rfl (fun _ => rfl) (by decide) rfl rfl
      (.plain rfl _) rfl, .inr ⟨_, rfl⟩⟩ <;>
    (rw [← Datum.text.inj (Except.ok.inj ht)]; decide)

/-- A digraph in front of a primary is the call of its function. -/
theorem Grammar.primary_digraph {first second : Atom} {name : String} {row rest : List Atom} {e : Expr}
    (hdigraph : first.digraph? second = .ok (some name)) (hname : Glyph.prefixDigraphs.contains name = true)
    (htype : first.type ≠ .closing) {closers : List Closer} (hclosers : InParentheses closers)
    (hread : Grammar.primary .builtin closers row = .ok ⟨rest, e⟩) (hrest : Stops .builtin closers rest) :
    Grammar.primary .builtin closers (first :: second :: row) = .ok ⟨rest, apply name e⟩ := by
  have hstart : startsWithDigraph? Glyph.prefixDigraphs (first :: second :: row) = .ok (some name) := by
    rw [startsWithDigraph?, hdigraph]
    show Except.ok (if Glyph.prefixDigraphs.contains name = true then some name else none) = _
    rw [if_pos hname]
  refine Grammar.primary_operand hclosers htype rfl hrest ?_
  rw [Grammar.operand_eq, hstart]
  show (Grammar.primary .builtin closers row >>= _) = _
  rw [hread]
  rfl

/-- The commands of the symbols that are no letters. -/
theorem scansBefore_symbolCommand {name : String} (h : name ∈ ["infty", "partial", "emptyset", "nabla"]) :
    Token.ScansBefore ("\\" ++ name).toList [.command name] := by
  have hfacts : ∀ s ∈ ["infty", "partial", "emptyset", "nabla"], s.toList ≠ [] ∧ s.toList.all isLetter = true ∧
      Token.verbatimCommands.contains s = false := by decide
  obtain ⟨hne, hletters, hverbatim⟩ := hfacts name h
  have hscan := Token.scansBefore_command hne hletters (by rwa [String.ofList_toList])
  rw [String.ofList_toList] at hscan
  rwa [String.toList_append]

theorem spellsBefore_nabla : Source.SpellsBefore .builtin "\\nabla" [nablaAtom] :=
  ⟨[.command "nabla"], @scansBefore_symbolCommand "nabla" (by decide), Source.yields_symbol (by decide) rfl rfl⟩

/-- **A symbol is written as what is read as the symbol.** -/
theorem IsSymbolCharacter.written {d : Char} (h : IsSymbolCharacter d) : ∃ s a, IsWrittenSymbol d s a := by
  rcases h.cases with hletter | hother
  · obtain ⟨token, a, htoken, hlatex, hscan⟩ := isLetterToken_written hletter
    have hne : d ≠ '∇' := by
      rintro rfl
      exact absurd hletter (by decide +kernel)
    exact ⟨_, a, htoken.isWrittenSymbol hlatex hscan hne⟩
  · simp only [List.mem_cons, List.not_mem_nil, or_false] at hother
    rcases hother with rfl | rfl | rfl | rfl
    · exact ⟨_, _, (isLetterToken_sign (.head _)).isWrittenSymbol rfl (scansBefore_symbolCommand (by decide)) (by decide)⟩
    · exact ⟨_, _, (isLetterToken_sign (.tail _ (.head _))).isWrittenSymbol rfl (scansBefore_symbolCommand (by decide)) (by decide)⟩
    · exact ⟨_, _, (isLetterToken_sign (.tail _ (.tail _ (.head _)))).isWrittenSymbol rfl (scansBefore_symbolCommand (by decide)) (by decide)⟩
    · exact ⟨"\\nabla", nablaAtom, rfl, spellsBefore_nabla, by decide, isAddend_nabla, fun h => absurd rfl h, fun _ => rfl⟩

end Formula
