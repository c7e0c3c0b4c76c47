import Formula.Expr.Latex
import Formula.Proofs.Catalog.Operations
import Formula.Proofs.Number.WholeText

/-!
# Texts that are read as one expression

A source is read twice, as atoms and then as an expression.  The rules of this module go through both readings at once:
each says how the text of a node is put together from the texts of its parts, and as what kind of row it is read.  The
kinds are those of rows (an operand, a primary, a chain, a whole), and one more: a text that is an operand and takes a
superscript behind it.
-/

namespace Formula

open Number Text Atom Expr

/-! ### Kinds of texts -/

/-- The text is read as an operand. -/
def IsOperandText (s : String) (e : Expr) : Prop :=
  ∃ row, Source.Spells .builtin s row ∧ IsOperand .builtin (unspaced row) e

/-- The text is read as a primary. -/
def IsPrimaryText (s : String) (e : Expr) : Prop :=
  ∃ row, Source.Spells .builtin s row ∧ IsPrimary .builtin (unspaced row) e

/-- The text is read as a chain. -/
def IsChainText (s : String) (first : Expr) (links : List Link) : Prop :=
  ∃ row, Source.Spells .builtin s row ∧ IsChain .builtin (unspaced row) first links

/-- The text is read as a whole. -/
def IsWholeText (s : String) (e : Expr) : Prop :=
  ∃ row, Source.Spells .builtin s row ∧ IsWhole .builtin row e

/-- The text is an operand whose last atom takes a superscript, which the expression then carries. -/
def IsBaseText (s : String) (e : Expr) : Prop :=
  ∃ row a, Source.Spells .builtin s (row ++ [a]) ∧ a.type ∉ Source.Script.refused ∧ a.superscript = none ∧
    a.subscript = none ∧ ∀ sup e', Carries .builtin (a.scripted sup none) e e' → e'.isMissing = false →
      IsOperand .builtin (unspaced row ++ [a.scripted sup none]) e'

/-- The text is an operand whose last atom takes scripts of both kinds, which the expression then carries. -/
def IsScriptableText (s : String) (e : Expr) : Prop :=
  ∃ row a, Source.Spells .builtin s (row ++ [a]) ∧ a.type ∉ Source.Script.refused ∧ a.superscript = none ∧
    a.subscript = none ∧ ∀ sup sub e', Carries .builtin (a.scripted sup sub) e e' → e'.isMissing = false →
      IsOperand .builtin (unspaced row ++ [a.scripted sup sub]) e'

/-- The text of a script behind its sign, of which there is nothing if the script is missing. -/
inductive IsScriptText (kind : Source.Script) : Expr → String → Prop
  | absent : IsScriptText kind missing ""
  | written {e : Expr} {s : String} : IsWholeText s e → IsScriptText kind e (kind.sign ++ braced s)

theorem scripted_none {a : Atom} (hsup : a.superscript = none) (hsub : a.subscript = none) : a.scripted none none = a := by
  cases a
  obtain rfl := hsup
  obtain rfl := hsub
  rfl

/-! ### From one kind to the next -/

theorem IsBaseText.isOperandText {s : String} {e : Expr} (h : IsBaseText s e) (hnode : e.isMissing = false) :
    IsOperandText s e := by
  obtain ⟨row, a, hspells, htype, hsup, hsub, hread⟩ := h
  have hspacing : a.type ≠ .spacing := fun heq => htype (by rw [heq]; decide)
  have hown := scripted_none hsup hsub
  have hscripts : a.hasScripts = false := by
    unfold Atom.hasScripts
    rw [hsup, hsub]
    rfl
  have hoperand := hread none e (.plain (by rw [hown]; exact hscripts) e) hnode
  rw [hown] at hoperand
  refine ⟨_, hspells, ?_⟩
  rwa [unspaced_append, unspaced_singleton hspacing]

/-- **A text with a superscript behind it is an operand that carries the superscript.** -/
theorem IsBaseText.raised {s t : String} {e sup : Expr} (h : IsBaseText s e) (hnode : e.isMissing = false)
    (hsup : IsWholeText t sup) : IsOperandText (s ++ ("^" ++ braced t)) (e.attach sup missing) := by
  obtain ⟨row, a, hspells, htype, hnone, hsub, hread⟩ := h
  obtain ⟨script, hscript, hwhole⟩ := hsup
  have hspacing : a.type ≠ .spacing := fun heq => htype (by rw [heq]; decide)
  have hset : Source.Script.super.set a script = a.scripted (some script) none := by
    unfold Source.Script.set Atom.scripted
    rw [← hsub]
  have hspelled := hspells.script .super ⟨hnone, htype⟩ hscript
  have hoperand := hread (some script) _ (.super rfl rfl hwhole e) (isMissing_attach hnode sup missing)
  rw [hset] at hspelled
  refine ⟨_, hspelled, ?_⟩
  rwa [unspaced_append, unspaced_singleton (by exact hspacing)]

theorem IsScriptableText.isBaseText {s : String} {e : Expr} (h : IsScriptableText s e) : IsBaseText s e := by
  obtain ⟨row, a, hspells, htype, hsup, hsub, hread⟩ := h
  exact ⟨row, a, hspells, htype, hsup, hsub, fun sup => hread sup none⟩

/-- An atom that takes scripts gets what is read of a script, or stays as it is without one. -/
theorem IsScriptText.spells {kind : Source.Script} {script : Expr} {s t : String} {row : List Atom} {a : Atom}
    (h : IsScriptText kind script t) (hspells : Source.Spells .builtin s (row ++ [a])) (hfits : kind.Fits a) :
    ∃ a', Source.Spells .builtin (s ++ t) (row ++ [a']) ∧ Grammar.nested .builtin (kind.get a') = .ok script ∧
      (a' = a ∨ ∃ inner, a' = kind.set a inner) := by
  cases h with
  | absent =>
    refine ⟨a, by rwa [String.append_empty], ?_, .inl rfl⟩
    rw [hfits.1, Grammar.nested_none]
  | written h =>
    obtain ⟨inner, hinner, hwhole⟩ := h
    refine ⟨kind.set a inner, hspells.script kind hfits hinner, ?_, .inr ⟨inner, rfl⟩⟩
    obtain ⟨b, rest, rfl⟩ := List.exists_cons_of_ne_nil hwhole.ne_nil
    have hget : kind.get (kind.set a (b :: rest)) = some (b :: rest) := by cases kind <;> rfl
    rw [hget, Grammar.nested_cons, hwhole.read]

/-- **A text with scripts behind it is an operand that carries the scripts.** -/
theorem IsScriptableText.scripted {s below above : String} {e sub sup : Expr} (h : IsScriptableText s e) (hnode : e.isMissing = false)
    (hsub : IsScriptText .sub sub below) (hsup : IsScriptText .super sup above) :
    IsOperandText (s ++ (below ++ above)) (e.attach sup sub) := by
  obtain ⟨row, a, hspells, htype, hnone, hnone', hread⟩ := h
  have hspacing : a.type ≠ .spacing := fun heq => htype (by rw [heq]; decide)
  obtain ⟨b, hspells, hb, hset⟩ := hsub.spells hspells ⟨hnone', htype⟩
  have hsame : b = a.scripted none b.subscript := by
    rcases hset with rfl | ⟨inner, rfl⟩
    · rw [hnone', scripted_none hnone hnone']
    · unfold Source.Script.set Atom.scripted
      rw [← hnone]
  have htype' : b.type = a.type := by
    rw [hsame]
    rfl
  have hnone'' : b.superscript = none := by
    rw [hsame]
    rfl
  obtain ⟨d, hspells, hd, hset⟩ := hsup.spells hspells ⟨hnone'', by rwa [htype']⟩
  have hsame' : d = a.scripted d.superscript b.subscript := by
    rcases hset with rfl | ⟨inner, rfl⟩
    · rw [hnone'']
      exact hsame
    · rw [hsame]
      rfl
  have hcarries : Carries .builtin d e (e.attach sup sub) := by
    have hsub : Grammar.nested .builtin d.subscript = .ok sub := by
      rw [hsame']
      exact hb
    exact .both hd hsub e
  rw [hsame'] at hcarries hspells
  rw [String.append_assoc] at hspells
  refine ⟨_, hspells, ?_⟩
  rw [unspaced_append, unspaced_singleton (by exact hspacing)]
  exact hread _ _ _ hcarries (isMissing_attach hnode sup sub)

theorem IsOperandText.isPrimaryText {s : String} {e : Expr} (h : IsOperandText s e) : IsPrimaryText s e := by
  obtain ⟨row, hspells, hoperand⟩ := h
  exact ⟨row, hspells, hoperand.isPrimary⟩

theorem IsPrimaryText.isChainText {s : String} {e : Expr} (h : IsPrimaryText s e) : IsChainText s e [] := by
  obtain ⟨row, hspells, hprimary⟩ := h
  exact ⟨row, hspells, hprimary.isChain⟩

theorem IsChainText.isPrimaryText {s : String} {e : Expr} (h : IsChainText s e []) : IsPrimaryText s e := by
  obtain ⟨row, hspells, ⟨start, hrow, hprimary⟩, -⟩ := h
  refine ⟨row, hspells, ?_⟩
  rwa [hrow, Link.rows, List.append_nil]

theorem IsChainText.arranged {s : String} {first : Expr} {links : List Link} (h : IsChainText s first links) :
    ∃ e, Arranges first links e ∧ e.isMissing = false := by
  obtain ⟨row, -, hchain⟩ := h
  exact hchain.arranged

theorem IsChainText.isWholeText {s : String} {first e : Expr} {links : List Link} (h : IsChainText s first links)
    (harranged : Arranges first links e) : IsWholeText s e := by
  obtain ⟨row, hspells, hchain⟩ := h
  exact ⟨row, hspells, hchain.isWhole harranged⟩

/-- **A text that is read as a whole is read by both readers.** -/
theorem IsWholeText.reads {s : String} {e : Expr} (h : IsWholeText s e) :
    ∃ atoms, Source.atoms .builtin s = .ok atoms ∧ ofAtoms .builtin atoms = .ok e := by
  obtain ⟨row, hspells, hwhole⟩ := h
  exact ⟨row, hspells.atoms, by rw [ofAtoms_eq, hwhole.read]⟩

/-! ### Leaves -/

/-- A letter is a symbol. -/
theorem isScriptableText_letter {d : Char} (hd : d.isAlpha = true) :
    IsScriptableText d.toString (ofSymbol (.text d.toString) .null) :=
  ⟨[], ofCharacter d, Source.spells_character (isLetterOrDigit_of_isAlpha hd),
    show AtomType.ordinary ∉ Source.Script.refused by decide, rfl, rfl,
    fun _ _ _ hcarries hnode => isOperand_letter (isLetter_of_isAlpha hd) hcarries hnode rfl⟩

theorem isBaseText_letter {d : Char} (hd : d.isAlpha = true) : IsBaseText d.toString (ofSymbol (.text d.toString) .null) :=
  (isScriptableText_letter hd).isBaseText

/-- The digits of a whole number are a number. -/
theorem isScriptableText_whole {n : Nat} (hlt : n < tenTo 100) :
    IsScriptableText (Format.wholeText n) (ofNumber (.float (.ofInt n))) := by
  obtain ⟨row, last, hspells, hrow⟩ := Source.spells_wholeText n
  have hlast : (ofCharacter last).type ≠ .spacing := fun h => by cases h
  refine ⟨row, ofCharacter last, hspells, show AtomType.ordinary ∉ Source.Script.refused by decide, rfl, rfl, ?_⟩
  intro sup sub e' hcarries hnode
  rw [unspaced_append, unspaced_singleton hlast] at hrow
  -- the digits but the last are the atoms in front
  obtain ⟨ds, d, hdigits⟩ : ∃ ds d, Nat.toDigits 10 n = ds ++ [d] :=
    ⟨_, _, (List.dropLast_concat_getLast Nat.toDigits_ne_nil).symm⟩
  rw [hdigits, List.map_append, List.map_singleton] at hrow
  obtain ⟨hfront, hback⟩ := List.append_inj' hrow rfl
  rw [hfront]
  rw [List.singleton_inj.mp hback] at hcarries ⊢
  exact isOperand_digits hlt hdigits hcarries hnode

theorem isBaseText_whole {n : Nat} (hlt : n < tenTo 100) :
    IsBaseText (Format.wholeText n) (ofNumber (.float (.ofInt n))) := (isScriptableText_whole hlt).isBaseText

/-! ### Nodes around a whole text -/

theorem spells_parenthesized {s : String} {row : List Atom} (h : Source.SpellsBefore .builtin s row) :
    Source.Spells .builtin (parenthesized s) ([openingAtom] ++ row ++ [closingAtom]) := by
  have hopen : Source.Spells .builtin "(" [openingAtom] :=
    Source.spells_char (d := '(') (by decide) (by decide) (by decide) (by decide) (by decide) rfl
  have hclose : Source.Spells .builtin ")" [closingAtom] :=
    Source.spells_char (d := ')') (by decide) (by decide) (by decide) (by decide) (by decide) rfl
  exact (hopen.append_before h).append hclose ⟨_, _, rfl, by decide⟩

/-- **A chain in parentheses is a group.** -/
theorem IsChainText.scriptable {s : String} {first e : Expr} {links : List Link} (h : IsChainText s first links)
    (harranged : Arranges first links e) : IsScriptableText (parenthesized s) (fenced e parentheses) := by
  obtain ⟨row, hspells, hchain⟩ := h
  refine ⟨[openingAtom] ++ row, closingAtom, spells_parenthesized hspells.before, by decide, rfl, rfl, ?_⟩
  intro sup sub e' hcarries hnode
  rw [unspaced_append, unspaced_singleton (by decide), List.append_assoc]
  exact hchain.isOperand harranged hcarries hnode

theorem IsChainText.parenthesized {s : String} {first e : Expr} {links : List Link} (h : IsChainText s first links)
    (harranged : Arranges first links e) : IsBaseText (parenthesized s) (fenced e parentheses) :=
  (h.scriptable harranged).isBaseText

/-- Of no atoms there is no expression. -/
theorem Grammar.whole_nil {c : Catalog} : Grammar.whole c [] = .ok missing := by
  have hsequence : Grammar.sequence c [] [] = .ok ⟨[], missing⟩ := by
    rw [sequence_eq, primary_nil]
    show (Grammar.expression c [] 0 missing [] >>= _) = _
    rw [expression_nil]
    exact stray_nil c [] missing
  rw [whole_eq]
  show (Grammar.sequence c [] [] >>= _) = _
  rw [hsequence]
  rfl

/-- **A square root.** -/
theorem IsWholeText.root {s : String} {e : Expr} (h : IsWholeText s e) : IsBaseText ("\\sqrt" ++ braced s) (squareRoot e) := by
  obtain ⟨row, hspells, hwhole⟩ := h
  refine ⟨[], Source.radicalAtom row, hspells.before.radical, show AtomType.radical ∉ Source.Script.refused by decide, rfl,
    rfl, fun sup e' hcarries hnode => ?_⟩
  have hatom : Grammar.atom .builtin ((Source.radicalAtom row).scripted sup none) = .ok (squareRoot e) := by
    rw [Grammar.atom_eq]
    show (do
      let radicand ← Grammar.whole .builtin row
      let index ← Grammar.whole .builtin []
      if index.isMissing then return squareRoot radicand
      else return apply "pow" (tuple [radicand, quotient (ofNumber (.int 1)) index])) = _
    rw [hwhole.read, Grammar.whole_nil]
    rfl
  refine isOperand_construct ⟨⟨⟨_, rfl⟩, .inr ⟨_, rfl⟩, .inl rfl, .inl rfl, .inl rfl, .inl rfl⟩, fun t ht => ?_, ?_, rfl⟩
    (.tail _ (.head _)) hatom hcarries hnode
  · rw [← Datum.text.inj (Except.ok.inj ht)]
    decide
  · exact ⟨fun h => (by cases h), fun h => (by cases h)⟩

theorem startsNoun_fractionAtom (row row' : List Atom) : StartsNoun (Source.fractionAtom row row') where
  worded := ⟨⟨_, rfl⟩, .inr ⟨_, rfl⟩, .inl rfl, .inl rfl, .inl rfl, .inl rfl⟩
  spelling t ht := by
    rw [← Datum.text.inj (Except.ok.inj ht)]
    decide
  type := ⟨fun h => (by cases h), fun h => (by cases h)⟩
  placeholder := rfl

/-- The parts of a fraction are read as wholes. -/
theorem IsWhole.atom_fraction {row row' : List Atom} {e e' : Expr} (h : IsWhole .builtin row e)
    (h' : IsWhole .builtin row' e') : Grammar.atom .builtin (Source.fractionAtom row row') = .ok (quotient e e') := by
  rw [Grammar.atom_eq]
  show (do
    let numerator ← Grammar.whole .builtin row
    let denominator ← Grammar.whole .builtin row'
    return quotient numerator denominator) = _
  rw [h.read, h'.read]
  rfl

/-- **A fraction.** -/
theorem IsWholeText.fraction {s s' : String} {e e' : Expr} (h : IsWholeText s e) (h' : IsWholeText s' e') :
    IsOperandText ("\\frac" ++ braced s ++ braced s') (quotient e e') := by
  obtain ⟨row, hspells, hwhole⟩ := h
  obtain ⟨row', hspells', hwhole'⟩ := h'
  refine ⟨[Source.fractionAtom row row'], hspells.before.fraction hspells'.before, ?_⟩
  rw [unspaced_singleton fun h => by cases h]
  exact isOperand_construct (startsNoun_fractionAtom row row') (.head _) (hwhole.atom_fraction hwhole') (.plain rfl _) rfl

/-- **A function that encloses its argument.** -/
theorem IsWholeText.enclosed {s : String} {e : Expr} (h : IsWholeText s e) (f : Enclosure) :
    IsOperandText (f.around s) (apply f.name e) := by
  obtain ⟨row, hspells, hwhole⟩ := h
  refine ⟨_, f.spells_around hspells.before, ?_⟩
  rw [unspaced_singleton fun h => by cases h]
  exact hwhole.isOperand f.delimiterFunction?_eq

/-! ### Marks, signs and names -/

/-- **A factorial.** -/
theorem IsOperandText.factorial {s : String} {e : Expr} (h : IsOperandText s e) :
    IsPrimaryText (s ++ "!") (apply "factorial" e) := by
  obtain ⟨row, hspells, hoperand⟩ := h
  have hmark : Source.Spells .builtin "!" [exclamationAtom] :=
    Source.spells_char (d := '!') (by decide) (by decide) (by decide) (by decide) (by decide) rfl
  refine ⟨_, hspells.append hmark, ?_⟩
  rw [unspaced_append, unspaced_singleton (by decide)]
  exact hoperand.factorial

/-- **A sign in front.** -/
theorem IsPrimaryText.signed {s : String} {e : Expr} (h : IsPrimaryText s e) (sign : Sign) :
    IsPrimaryText (sign.name ++ s) (withSign sign.name e) := by
  obtain ⟨row, hspells, hprimary⟩ := h
  refine ⟨_, sign.spells_name.append hspells, ?_⟩
  rw [unspaced_append, unspaced_singleton (by cases sign <;> decide)]
  exact hprimary.sign sign.signAtom

/-- **A function in front of its argument.** -/
theorem IsPrimaryText.applied {s name : String} {e : Expr} (h : IsPrimaryText s e) (hname : name ∈ Catalog.commandFunctions) :
    IsPrimaryText ("\\" ++ name ++ " " ++ s) (apply name e) := by
  obtain ⟨row, hspells, hprimary⟩ := h
  refine ⟨_, (spells_command hname).append hspells, ?_⟩
  rw [unspaced_append, unspaced_singleton fun h => by cases h]
  exact hprimary.function (.command hname)

/-! ### Operations -/

/-- **Two chains with an operator between them.** -/
theorem IsChainText.append_infix {s s' : String} {first first' : Expr} {links links' : List Link}
    (h : IsChainText s first links) (o : Infix) (h' : IsChainText s' first' links') :
    ∃ start, IsChainText (s ++ (o.sign ++ s')) first
      (links ++ ⟨o.atom, start, .text o.name, o.precedence, first'⟩ :: links') := by
  obtain ⟨row, hspells, hchain⟩ := h
  obtain ⟨row', hspells', hchain'⟩ := h'
  obtain ⟨start, hjoined⟩ := hchain.append o.operator hchain'
  refine ⟨start, _, hspells.append (o.spells_sign.append hspells'), ?_⟩
  rw [unspaced_append, unspaced_append, unspaced_singleton (by cases o <;> decide)]
  exact hjoined

theorem IsChainText.append {s s' : String} {first first' : Expr} {links links' : List Link} (h : IsChainText s first links)
    (o : Operation) (h' : IsChainText s' first' links') :
    ∃ start, IsChainText (s ++ (o.sign ++ s')) first
      (links ++ ⟨o.atom, start, .text o.name, o.precedence, first'⟩ :: links') := by
  have := h.append_infix o.toInfix h'
  rwa [o.sign_toInfix, o.atom_toInfix, o.name_toInfix, o.precedence_toInfix] at this

end Formula
