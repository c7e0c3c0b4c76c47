import Formula.Proofs.Reader.Operands

/-!
# Letters that have commands

Some letters of the usual vocabulary have a command, by which they are written.  A source with the command has an
ordinary atom for it, and that is the same symbol as the letter itself.
-/

namespace Formula

open Text Atom Expr

/-- A letter as a symbol. -/
def letterSymbol (d : Char) : Expr := ofSymbol (.text d.toString) .null

/-- The atom of the command of a letter. -/
def Atom.ofCommand (command : String) (d : Char) : Atom :=
  { type := .ordinary, value := .text d.toString, latex := .text command }

/-- What the tables and the lexer know of the command of a symbol. -/
structure KnowsSymbol (command : String) : Prop where
  isVoid : (Datum.text command).isVoid = false
  allBlank : allBlank command = false
  trim : trim command = command
  nameless : command ∉ Catalog.builtinNames.map (·.1)
  spelling : command ≠ "\\nabla" ∧ command ≠ "!" ∧ command ≠ "."
  digitless : digits.contains command = false
  charType : Source.charTypes.lookup command = none
  unquoted : command ≠ "'"
  isMark : Source.isMark command = false
  isOpener : Source.isOpener command = false
  isCloser : Source.isCloser command = false
  isCommand : Source.isCommand command = true
  large : Source.largeOperators.contains command = false
  name : command.toList = '\\' :: command.toList.drop 1
  letters : command.toList.drop 1 ≠ [] ∧ (command.toList.drop 1).all isLetter = true
  verbatim : Token.verbatimCommands.contains (String.ofList (command.toList.drop 1)) = false
  symbol : Source.IsSymbol (.command (String.ofList (command.toList.drop 1)))

theorem knowsSymbol {p : String × String} (h : p ∈ Catalog.builtinSymbols) (hp : p.2 ≠ "∇") : KnowsSymbol p.1 := by
  have htext : ∀ p ∈ Catalog.builtinSymbols, (Datum.text p.1).isVoid = false ∧ allBlank p.1 = false ∧ trim p.1 = p.1 ∧
      p.1 ∉ Catalog.builtinNames.map (·.1) ∧ digits.contains p.1 = false := by decide +kernel
  have hsource : ∀ p ∈ Catalog.builtinSymbols, p.2 ≠ "∇" → (p.1 ≠ "\\nabla" ∧ p.1 ≠ "!" ∧ p.1 ≠ ".") ∧
      Source.charTypes.lookup p.1 = none ∧ p.1 ≠ "'" ∧ Source.isMark p.1 = false ∧ Source.isOpener p.1 = false ∧
      Source.isCloser p.1 = false ∧ Source.isCommand p.1 = true ∧ Source.largeOperators.contains p.1 = false := by
    decide +kernel
  have htoken : ∀ p ∈ Catalog.builtinSymbols, p.1.toList = '\\' :: p.1.toList.drop 1 ∧
      (p.1.toList.drop 1 ≠ [] ∧ (p.1.toList.drop 1).all isLetter = true) ∧
      Token.verbatimCommands.contains (String.ofList (p.1.toList.drop 1)) = false ∧
      Source.IsSymbol (.command (String.ofList (p.1.toList.drop 1))) := by
    decide +kernel
  obtain ⟨h1, h2, h3, h4, h5⟩ := htext p h
  obtain ⟨h7, h8, h9, h10, h11, h12, h13, h14⟩ := hsource p h hp
  obtain ⟨h15, h16, h17, h18⟩ := htoken p h
  exact ⟨h1, h2, h3, h4, h7, h5, h8, h9, h10, h11, h12, h13, h14, h15, h16, h17, h18⟩

/-- A command is listed once. -/
theorem find?_symbol {p : String × String} (h : p ∈ Catalog.builtinSymbols) :
    (Catalog.textTable Catalog.builtinSymbols).find? (.text p.1) = some (.text p.2) := by
  have hlisted : ∀ p ∈ Catalog.builtinSymbols,
      (((Catalog.textTable Catalog.builtinSymbols).find? (.text p.1)).any fun d => d.isText p.2) = true := by decide
  have hfound := hlisted p h
  cases hd : (Catalog.textTable Catalog.builtinSymbols).find? (.text p.1) with
  | none =>
    rw [hd] at hfound
    cases hfound
  | some d =>
    rw [hd] at hfound
    rw [Datum.eq_text_of_isText hfound]

section

variable {p : String × String} {d : Char} (h : p ∈ Catalog.builtinSymbols) (hd : isLetter d = true) (hp : p.2 = d.toString)
include h hd hp

theorem knowsSymbol_letter : KnowsSymbol p.1 := by
  refine knowsSymbol h fun heq => ?_
  have hnabla : isLetter '∇' = false := by decide +kernel
  have : d = '∇' := by
    have hlist := congrArg String.toList (hp.symm.trans heq)
    rw [Char.toString, String.toList_singleton] at hlist
    exact (List.cons.inj hlist).1
  rw [this, hnabla] at hd
  cases hd

theorem nameOfTrimmed_symbol : Catalog.builtin.nameOfTrimmed p.1 = .text d.toString := by
  unfold Catalog.nameOfTrimmed
  rw [show Catalog.builtin.names = Catalog.textTable Catalog.builtinNames from rfl,
    show Catalog.builtin.symbols = Catalog.textTable Catalog.builtinSymbols from rfl,
    Catalog.find?_textTable (knowsSymbol_letter h hd hp).nameless, find?_symbol h, hp]

theorem symbolAtom_symbol : Source.symbolAtom .builtin p.1 = .ok (Atom.ofCommand p.1 d) := by
  have hknown := knowsSymbol_letter h hd hp
  have hd' := isLetterOrDigit_of_isLetter hd
  have hname : Catalog.builtin.canonicalName p.1 = .text d.toString := by
    unfold Catalog.canonicalName
    rw [hknown.trim, nameOfTrimmed_symbol h hd hp]
  have hprecedence : Catalog.builtin.precedenceOf (.text d.toString) = .ok none :=
    congrArg Except.ok (Catalog.precedence_character hd')
  have hvalue : Catalog.builtin.symbolValue (.text p.1) = .text d.toString := by
    unfold Catalog.symbolValue
    rw [show Catalog.builtin.symbols = Catalog.textTable Catalog.builtinSymbols from rfl, find?_symbol h, hp]
    rfl
  have hgiven : (Datum.text d.toString).orElse "" = .text d.toString := Datum.orElse_of_not_isVoid (isVoid_character d) _
  unfold Source.symbolAtom
  simp only [hknown.charType, hknown.unquoted, hknown.isMark, hknown.isOpener, hknown.isCloser, hknown.isCommand,
    hknown.large, hname, hprecedence, Catalog.isFunction_character hd', hvalue, hgiven, if_false, if_true,
    Bool.false_eq_true, Bool.and_false, Bool.or_self]
  rfl

theorem text_ofCommand : (Atom.ofCommand p.1 d).text = .ok (.text p.1) := by
  have hknown := knowsSymbol_letter h hd hp
  unfold Atom.text Atom.ofCommand
  rw [hknown.isVoid, if_neg Bool.false_ne_true]
  dsimp only
  rw [hknown.allBlank, hknown.trim]
  rfl

theorem name_ofCommand : (Atom.ofCommand p.1 d).name .builtin = .ok (.text d.toString) := by
  have hknown := knowsSymbol_letter h hd hp
  unfold Atom.name Catalog.canonicalNameOf
  rw [text_ofCommand h hd hp]
  show (if (Datum.text p.1).isVoid = true then Except.ok (Catalog.builtin.nameOfTrimmed "")
    else (Datum.text p.1).trimmed.map Catalog.builtin.nameOfTrimmed) = _
  rw [hknown.isVoid, if_neg Bool.false_ne_true]
  show Except.ok (Catalog.builtin.nameOfTrimmed (trim p.1)) = _
  rw [hknown.trim, nameOfTrimmed_symbol h hd hp]

theorem startsNoun_ofCommand : StartsNoun (Atom.ofCommand p.1 d) := by
  have hknown := knowsSymbol_letter h hd hp
  refine ⟨⟨⟨_, rfl⟩, .inr ⟨_, rfl⟩, .inl rfl, .inl rfl, .inl rfl, .inl rfl⟩, fun t ht => ?_,
    ⟨fun h => (by cases h), fun h => (by cases h)⟩, ?_⟩
  · rw [text_ofCommand h hd hp] at ht
    rw [← Datum.text.inj (Except.ok.inj ht)]
    exact ⟨hknown.spelling.1, hknown.spelling.2.1⟩
  · have hwidth : (d.toString == zeroWidth) = false :=
      beq_eq_false_iff_ne.mpr fun heq =>
        @AreLong.not_mem _ [zeroWidth] (by decide +kernel) (isLetterOrDigit_of_isLetter hd) (List.mem_singleton.mpr heq)
    show (true && (d.toString == zeroWidth)) = false
    rw [hwidth]
    rfl

theorem startsNumber_ofCommand (rest : List Atom) : Expr.startsNumber (Atom.ofCommand p.1 d :: rest) = .ok false := by
  have hknown := knowsSymbol_letter h hd hp
  have htext := text_ofCommand h hd hp
  have hdigit : (Atom.ofCommand p.1 d).isDigit = .ok false := by
    unfold Atom.isDigit
    rw [htext]
    exact congrArg Except.ok hknown.digitless
  have hpoint : (p.1 == ".") = false := beq_eq_false_iff_ne.mpr hknown.spelling.2.2
  rw [Expr.startsNumber, hdigit, htext]
  show (if ((p.1 == ".") && _) = true then _ else Except.ok false) = _
  rw [hpoint, Bool.false_and]
  rfl

theorem precedence_ofCommand : (Atom.ofCommand p.1 d).precedence .builtin = .ok none := by
  unfold Atom.precedence
  rw [name_ofCommand h hd hp]
  show (if _ then Except.ok (Catalog.builtin.precedence (.text d.toString)) else _) = _
  rw [Catalog.precedence_character (isLetterOrDigit_of_isLetter hd)]
  rfl

theorem isFunction_ofCommand : (Atom.ofCommand p.1 d).isFunction .builtin = .ok false := by
  have hd' := isLetterOrDigit_of_isLetter hd
  unfold Atom.isFunction
  rw [name_ofCommand h hd hp, text_ofCommand h hd hp]
  show (if (Catalog.builtin.precedence (.text d.toString)).isSome = true then Except.ok false
    else Except.ok (Catalog.builtin.isFunction (.text d.toString))) = _
  rw [Catalog.precedence_character hd', Catalog.isFunction_character hd']
  rfl

theorem symbol_ofCommand : (Atom.ofCommand p.1 d).symbol .builtin = .ok (letterSymbol d) :=
  symbol_of_name hd (name_ofCommand h hd hp) rfl

/-- **The command of a letter is the letter.** -/
theorem isOperand_ofCommand : IsOperand .builtin [Atom.ofCommand p.1 d] (letterSymbol d) :=
  isOperand_symbol (startsNoun_ofCommand h hd hp) rfl (startsNumber_ofCommand h hd hp) (isFunction_ofCommand h hd hp)
    (precedence_ofCommand h hd hp) (symbol_ofCommand h hd hp) (.plain rfl _) rfl

end

end Formula
