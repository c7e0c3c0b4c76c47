import Formula.Proofs.Expr.Sums

/-!
# Letters, also in fonts, and chains of operands

A letter with a variant is written in the font of the variant, and what is read is the letter in this variant.  A letter
without one may be written as a command, so that its text, and that of a chain that ends in it, is read as it is only where
no letter follows.
-/

namespace Formula

open Text Atom Expr

/-! ### Variants -/

/-- The variants of symbols. -/
inductive Variant where
  | normal
  | doubleStruck
  | bold
  | script
  | fraktur
  | sansSerif
  | monospace
deriving DecidableEq

namespace Variant

def name : Variant → String
  | normal => "normal"
  | doubleStruck => "double-struck"
  | bold => "bold"
  | script => "script"
  | fraktur => "fraktur"
  | sansSerif => "sans-serif"
  | monospace => "monospace"

/-- The font of the variant, which is the name of its command too. -/
def font : Variant → String
  | normal => "mathrm"
  | doubleStruck => "mathbb"
  | bold => "mathbf"
  | script => "mathscr"
  | fraktur => "mathfrak"
  | sansSerif => "mathsf"
  | monospace => "mathtt"

theorem lookup_variantCommands (v : Variant) : (Datum.text v.name).lookup variantCommands = .ok (some ("\\" ++ v.font)) := by
  cases v <;> rfl

theorem mem_fonts (v : Variant) : ("\\" ++ v.font, v.font) ∈ Source.fonts := by cases v <;> decide

/-- The atoms in the font of the variant. -/
def fontAtom (v : Variant) (body : List Atom) : Atom := Source.fontAtom ("\\" ++ v.font) v.font body

theorem startsNoun (v : Variant) (body : List Atom) : StartsNoun (v.fontAtom body) where
  worded := by cases v <;> exact ⟨⟨_, rfl⟩, .inr ⟨_, rfl⟩, .inl rfl, .inl rfl, .inl rfl, .inr ⟨_, rfl⟩⟩
  spelling t ht := by
    cases v <;> (rw [← Datum.text.inj (Except.ok.inj ht)]; decide)
  type := ⟨fun h => (by cases h), fun h => (by cases h)⟩
  placeholder := rfl

/-- What is in the font of the variant is the symbol of its text in the variant. -/
theorem atom_fontAtom (v : Variant) {body : List Atom} {s : String} (h : plainText body = .ok s) :
    Grammar.atom .builtin (v.fontAtom body) = .ok (ofSymbol (.text s) (.text v.name)) := by
  have hfont : (Datum.text v.font).isOneOf textFonts = .ok false ∧ (v.fontAtom body).variant = .ok (.text v.name) := by
    cases v <;> exact ⟨rfl, rfl⟩
  rw [Grammar.atom_eq]
  show (do
    let content ← plainText body
    if ← (Datum.text v.font).isOneOf textFonts then return Expr.ofText content
    else return ofSymbol content (← (v.fontAtom body).variant)) = _
  rw [h, hfont.1, hfont.2]
  rfl

end Variant

/-! ### Letters -/

/-- A letter, in one of the variants or in none. -/
inductive IsLetterSymbol : Expr → Prop
  | plain {d : Char} : isLetter d = true → IsLetterSymbol (letterSymbol d)
  | inFont {d : Char} (v : Variant) : isLetter d = true → IsLetterSymbol (ofSymbol (.text d.toString) (.text v.name))

theorem IsLetterToken.plainText {d : Char} {token : Token} {a : Atom} (h : IsLetterToken d token a) :
    Atom.plainText [a] = .ok d.toString := by
  have hvalue : (Datum.text d.toString).isVoid = false := by
    show d.toString.isEmpty = false
    rw [String.isEmpty_eq_false_iff]
    exact fun heq => by
      have := congrArg String.toList heq
      rw [Char.toString, String.toList_singleton] at this
      cases this
  unfold Atom.plainText
  rw [List.filter_cons_of_pos (by rw [h.type]; rfl), List.filter_nil]
  show (do
    let parts ← [a].mapM fun b : Atom => if b.value.isVoid then b.text else Except.ok b.value
    joinTexts 0 parts) = _
  rw [List.mapM_cons, List.mapM_nil, h.value, hvalue]
  show Except.ok (d.toString ++ "") = _
  rw [String.append_empty]

/-- A symbol with a variant is written in its font. -/
theorem symbolLatex_inFont {name : Datum} {s : String} (h : symbolLatex .builtin name .null = .ok (.text s)) (v : Variant) :
    symbolLatex .builtin name (.text v.name) = .ok (.text ("\\" ++ v.font ++ braced s)) := by
  have hgiven : (Datum.text v.name).orElse "" = .text v.name := by cases v <;> rfl
  unfold symbolLatex at h ⊢
  cases hname : resolvedName name with
  | error f =>
    rw [hname] at h
    cases h
  | ok resolved =>
    rw [hname] at h
    cases hspelled : Catalog.builtin.spelling resolved with
    | error f =>
      change (Catalog.builtin.spelling resolved >>= _) = _ at h
      rw [hspelled] at h
      cases h
    | ok spelled =>
      change (Catalog.builtin.spelling resolved >>= _) = _ at h
      rw [hspelled] at h
      obtain rfl : spelled = .text s := Except.ok.inj h
      show (Catalog.builtin.spelling resolved >>= _) = _
      rw [hspelled, hgiven, v.lookup_variantCommands]
      rfl

/-- **A letter is written as an operand**: as itself, as its command, or in its font. -/
theorem IsLetterSymbol.written {e : Expr} (h : IsLetterSymbol e) : ∃ s a, e.latex {} .builtin = .ok s ∧
    Source.SpellsBefore .builtin s [a] ∧ a.type ≠ .spacing ∧ IsOperand .builtin [a] e := by
  cases h with
  | plain hd =>
    obtain ⟨token, a, htoken, hlatex, hscan⟩ := isLetterToken_written hd
    exact ⟨_, a, hlatex, ⟨[token], hscan, htoken.yields⟩, by rw [htoken.type]; decide, htoken.operand⟩
  | inFont v hd =>
    obtain ⟨token, a, htoken, hspelled, hscan⟩ := isLetterToken_spelled hd
    have hspells : Source.SpellsBefore .builtin token.text [a] := ⟨[token], hscan, htoken.yields⟩
    refine ⟨_, v.fontAtom [a], latex_symbol (symbolLatex_inFont hspelled v), (hspells.font v.mem_fonts).before,
      fun heq => (by cases heq), ?_⟩
    exact isOperand_construct (v.startsNoun [a]) (.tail _ (.tail _ (.head _))) (v.atom_fontAtom htoken.plainText) (.plain rfl _) rfl

/-! ### Chains that may end in a command -/

/-- The text is read as a chain where no letter follows. -/
def IsOpenChain (s : String) (first : Expr) (links : List Link) : Prop :=
  ∃ row, Source.SpellsBefore .builtin s row ∧ IsChain .builtin (unspaced row) first links

theorem IsChainText.isOpenChain {s : String} {first : Expr} {links : List Link} (h : IsChainText s first links) :
    IsOpenChain s first links := by
  obtain ⟨row, hspells, hchain⟩ := h
  exact ⟨row, hspells.before, hchain⟩

theorem IsLetterSymbol.isOpenChain {e : Expr} (h : IsLetterSymbol e) :
    ∃ s, e.latex {} .builtin = .ok s ∧ IsOpenChain s e [] := by
  obtain ⟨s, a, hlatex, hspells, htype, hoperand⟩ := h.written
  exact ⟨s, hlatex, [a], hspells, by rw [unspaced_singleton htype]; exact hoperand.isPrimary.isChain⟩

namespace IsOpenChain

variable {s s' : String} {first first' e : Expr} {links links' : List Link}

theorem arranged (h : IsOpenChain s first links) : ∃ e, Arranges first links e ∧ e.isMissing = false := by
  obtain ⟨row, -, hchain⟩ := h
  exact hchain.arranged

/-- Two chains with an operator between them are one: the sign of an operator begins with no letter and ends in no command. -/
theorem append_infix (h : IsOpenChain s first links) (o : Infix) (h' : IsOpenChain s' first' links') :
    ∃ start, IsOpenChain (s ++ (o.sign ++ s')) first
      (links ++ ⟨o.atom, start, .text o.name, o.precedence, first'⟩ :: links') := by
  obtain ⟨row, hspells, hchain⟩ := h
  obtain ⟨row', hspells', hchain'⟩ := h'
  obtain ⟨start, hjoined⟩ := hchain.append o.operator hchain'
  have hall := (hspells.append o.spells_sign o.startsApart_sign).append_before hspells'
  rw [String.append_assoc] at hall
  refine ⟨start, _, hall, ?_⟩
  rw [List.append_assoc, unspaced_append, unspaced_append, unspaced_singleton (by cases o <;> decide)]
  exact hjoined

/-- **A chain in parentheses is an operand.** -/
theorem parenthesized (h : IsOpenChain s first links) (harranged : Arranges first links e) :
    IsOperandText (parenthesized s) (fenced e parentheses) := by
  obtain ⟨row, hspells, hchain⟩ := h
  exact (hchain.isExpression harranged).isInner.parenthesized hspells

/-- **A chain is read as the tree of its operators.** -/
theorem isReadAs (h : IsOpenChain s first links) (harranged : Arranges first links e) : IsReadAs s e := by
  obtain ⟨row, hspells, hchain⟩ := h
  exact (hchain.isWhole harranged).isReadAs hspells

end IsOpenChain

end Formula
