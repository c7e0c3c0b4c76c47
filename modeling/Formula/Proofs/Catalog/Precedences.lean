import Formula.Catalog.Overrides
import Formula.Proofs.Catalog.Operations
import Formula.Proofs.Catalog.Symbols

/-!
# Signs under other precedences

Overrides may give the operators of the usual vocabulary other precedences.  A sign in front of letters is then no sign
any more if it binds less tight than a plus: the lexer takes such an operator for a relation, and the reader knows signs
among the binary operators only.  A plus always stays a sign.
-/

namespace Formula

open Text Atom Expr

/-! ### The catalog -/

namespace Catalog

/-- The usual vocabulary with other precedences. -/
def withPrecedences (table : Table Int) : Catalog := { builtin with precedences := table }

/-- The characters of the usual symbols are keys. -/
theorem checkSymbols_withPrecedences (table : Table Int) :
    checkSymbols (withPrecedences table) = .ok (withPrecedences table) := by
  have hkeys : ∀ entries : List (String × String),
      ((textTable entries).forM fun e => discard e.2.key : Outcome Unit) = .ok () := by
    intro entries
    induction entries with
    | nil => rfl
    | cons e entries ih => exact ih
  show ((textTable builtinSymbols).forM (fun e => discard e.2.key) >>= fun _ => Except.ok (withPrecedences table)) = _
  rw [hkeys]
  rfl

/-- Names do not depend on precedences. -/
theorem canonicalName_congr {c c' : Catalog} (hnames : c.names = c'.names) (hsymbols : c.symbols = c'.symbols)
    (hfunctions : c.functions = c'.functions) (token : String) : c.canonicalName token = c'.canonicalName token := by
  unfold canonicalName nameOfTrimmed functionName? isFunction
  rw [hnames, hsymbols, hfunctions]

theorem canonicalName_withPrecedences (table : Table Int) (token : String) :
    (withPrecedences table).canonicalName token = builtin.canonicalName token := by
  refine canonicalName_congr ?_ ?_ ?_ token <;> rfl

/-- Overrides of precedences change nothing else. -/
theorem ofOverrides_precedence (changes : Table Datum) :
    ofOverrides (.map [(.text "precedence", .map changes)]) =
      (changes.foldlM mergePrecedence builtin.precedences).map withPrecedences := by
  have hsection : sectionOf [(.text "precedence", .map changes)] "precedence" = .map changes := by
    cases changes <;> rfl
  show builtin.overrideWith _ = _
  unfold overrideWith
  rw [hsection]
  show (changes.foldlM mergePrecedence builtin.precedences >>= fun table => checkSymbols (withPrecedences table)) = _
  cases changes.foldlM mergePrecedence builtin.precedences with
  | error f => rfl
  | ok table => exact checkSymbols_withPrecedences table

end Catalog

/-! ### Letters -/

/-- The product of letters, from left to right. -/
def letterProduct (d : Char) (more : List Char) : Expr :=
  more.foldl (fun e d => between "*" e (letterSymbol d)) (letterSymbol d)

section

variable {table : Table Int} {d : Char}

/-- A letter without a precedence is a symbol to the reader. -/
def SymbolAtom.letter (hd : isLetter d = true) (hrank : (Catalog.withPrecedences table).precedence (.text d.toString) = none) :
    SymbolAtom (Catalog.withPrecedences table) where
  atom := ofCharacter d
  name := d.toString
  plain := ⟨(startsNoun_character (isLetterOrDigit_of_isLetter hd) none none).worded, rfl,
    (startsNoun_character (isLetterOrDigit_of_isLetter hd) none none).spelling⟩
  type_eq := rfl
  name_eq := name_ofCharacter (isLetterOrDigit_of_isLetter hd)
  digit := isDigit_letter hd none none
  point h := by
    have hlist := congrArg String.toList (Datum.text.inj (Except.ok.inj h))
    rw [Char.toString, String.toList_singleton] at hlist
    rw [(List.cons.inj hlist).1] at hd
    exact absurd hd (by decide)
  placeholder := (startsNoun_character (isLetterOrDigit_of_isLetter hd) none none).placeholder
  function := by
    have hname : (ofCharacter d).name (Catalog.withPrecedences table) = .ok (.text d.toString) :=
      name_ofCharacter (isLetterOrDigit_of_isLetter hd)
    unfold Atom.isFunction
    rw [hname]
    show (if ((Catalog.withPrecedences table).precedence (.text d.toString)).isSome = true then Except.ok false
      else Except.ok (Catalog.builtin.isFunction (.text d.toString))) = _
    rw [hrank, Catalog.isFunction_character (isLetterOrDigit_of_isLetter hd)]
    rfl
  operator := by
    have hname : (ofCharacter d).name (Catalog.withPrecedences table) = .ok (.text d.toString) :=
      name_ofCharacter (isLetterOrDigit_of_isLetter hd)
    unfold Atom.precedence
    rw [hname]
    exact congrArg Except.ok hrank

theorem SymbolAtom.tree_letter (hd : isLetter d = true)
    (hrank : (Catalog.withPrecedences table).precedence (.text d.toString) = none) :
    (SymbolAtom.letter hd hrank).tree = letterSymbol d := by
  have hsymbol : (ofCharacter d).symbol (Catalog.withPrecedences table) = .ok (letterSymbol d) := symbol_letter hd none none
  unfold SymbolAtom.tree
  rw [show (SymbolAtom.letter hd hrank).atom = ofCharacter d from rfl, hsymbol]

/-- Letters without precedences are symbols to the reader. -/
theorem exists_letters : ∀ {ds : List Char},
    (∀ x ∈ ds, isLetter x = true ∧ (Catalog.withPrecedences table).precedence (.text x.toString) = none) →
    ∃ symbols : List (SymbolAtom (Catalog.withPrecedences table)),
      symbols.map (·.atom) = ds.map ofCharacter ∧ symbols.map (·.tree) = ds.map letterSymbol
  | [], _ => ⟨[], rfl, rfl⟩
  | d :: ds, h => by
    obtain ⟨hd, hrank⟩ := h d List.mem_cons_self
    obtain ⟨symbols, hatoms, htrees⟩ := exists_letters fun x hx => h x (List.mem_cons_of_mem _ hx)
    exact ⟨.letter hd hrank :: symbols, congrArg (_ :: ·) hatoms,
      congrArg₂ List.cons (SymbolAtom.tree_letter hd hrank) htrees⟩

theorem spells_letters : ∀ {ds : List Char},
    (∀ x ∈ ds, isLetter x = true ∧ (Catalog.withPrecedences table).precedence (.text x.toString) = none) →
    Source.Spells (Catalog.withPrecedences table) (String.ofList ds) (ds.map ofCharacter)
  | [], _ => ⟨[], .nil, .nil⟩
  | d :: ds, h => by
    obtain ⟨hd, hrank⟩ := h d List.mem_cons_self
    have hd := isLetterOrDigit_of_isLetter hd
    have hfirst : Source.Spells (Catalog.withPrecedences table) d.toString [ofCharacter d] :=
      Source.spells_unranked hd
        ((Catalog.canonicalName_withPrecedences table _).trans (Source.canonicalName_character hd)) hrank
    have hall := hfirst.append (spells_letters fun x hx => h x (List.mem_cons_of_mem _ hx))
    have hstring : String.ofList (d :: ds) = d.toString ++ String.ofList ds := by
      rw [← String.toList_inj, String.toList_append, String.toList_ofList, Char.toString, String.toList_singleton,
        String.toList_ofList]
      rfl
    rwa [hstring]

end

/-! ### Operators in front of a block -/

section

variable {c : Catalog}

theorem Block.ofAtoms (b : Block c) : Expr.ofAtoms c b.atoms = .ok b.tree := by
  have hclosers : FenceClosers [] := fun _ h => by cases h
  have hprimary := b.primary hclosers Stops.nil
  have hspaces := Chain.mem_atoms ⟨b, []⟩
  rw [Chain.atoms, List.map_nil, Link.rows] at hspaces
  rw [List.append_nil] at hprimary hspaces
  rw [ofAtoms_eq, Grammar.whole_eq, unspaced_eq_self hspaces, Grammar.sequence_eq, hprimary]
  show (Grammar.expression c [] 0 b.tree [] >>= fun read => Grammar.stray c [] read.expr read.rest) >>= _ = _
  rw [Grammar.expression_nil]
  show Grammar.stray c [] b.tree [] >>= _ = _
  rw [Grammar.stray_nil]
  rfl

/-- An operator that is a relation has nothing in front of it. -/
theorem OperatorAtom.ofAtoms_block (o : OperatorAtom c) (h : o.atom.type = .relation) (b : Block c) :
    Expr.ofAtoms c (o.atom :: b.atoms) = .ok (between o.name missing b.tree) := by
  have hclosers : FenceClosers [] := fun _ h => by cases h
  have htext := b.text []
  have hblock := b.primary hclosers Stops.nil
  have hspaces := Chain.mem_atoms ⟨b, []⟩
  rw [Chain.atoms, List.map_nil, Link.rows] at hspaces
  rw [List.append_nil] at htext hblock hspaces
  have hsign : o.atom.sign? c = .ok none := by
    unfold Atom.sign?
    rw [if_neg (by rw [h]; decide)]
    rfl
  have hplaceholder : o.atom.isPlaceholder = false := by
    unfold Atom.isPlaceholder
    rw [h]
    rfl
  have hnumber : Expr.startsNumber (o.atom :: b.atoms) = .ok false := by
    obtain ⟨t, ht⟩ := o.plain.worded.text
    have hdigit : o.atom.isDigit = .ok false := by
      unfold Atom.isDigit
      rw [if_neg (by rw [h]; decide)]
      rfl
    rw [Expr.startsNumber, hdigit, ht]
    show (if o.atom.type = .ordinary then _ else Except.ok false) = _
    rw [if_neg (by rw [h]; decide)]
  have hsymbol : Grammar.symbol c o.atom b.atoms = .ok ⟨o.atom :: b.atoms, missing⟩ := by
    rw [Grammar.symbol_eq, o.precedence_eq]
    rfl
  have hprimary : Grammar.primary c [] (o.atom :: b.atoms) = .ok ⟨o.atom :: b.atoms, missing⟩ := by
    rw [Grammar.primary_cons, hclosers.closesAny (.inr o.type_eq), Grammar.operand_eq, o.plain.digraph htext, hsign,
      hplaceholder, hnumber, h]
    show (Grammar.symbol c o.atom b.atoms >>= _) = _
    rw [hsymbol]
    rfl
  have hrow : unspaced (o.atom :: b.atoms) = o.atom :: b.atoms := by
    rw [unspaced_cons_of_ne (by rw [h]; decide), unspaced_eq_self hspaces]
  have htighter : Grammar.tighter c [] o.precedence b.tree [] = .ok ⟨[], b.tree⟩ := by
    rw [Grammar.tighter_eq]
    rfl
  have hexpression : Grammar.expression c [] 0 missing (o.atom :: b.atoms) = .ok ⟨[], between o.name missing b.tree⟩ := by
    rw [Grammar.expression_cons, o.precedence_eq]
    show (if o.precedence < 0 then _ else _) = _
    rw [if_neg (Int.not_lt.mpr o.nonneg), o.name_eq, hblock]
    show (Grammar.tighter c [] o.precedence b.tree [] >>= fun right =>
      Grammar.expression c [] 0 (between o.name missing right.expr) right.rest) = _
    rw [htighter]
    show Grammar.expression c [] 0 (between o.name missing b.tree) [] = _
    rw [Grammar.expression_nil]
  rw [ofAtoms_eq, Grammar.whole_eq, hrow, Grammar.sequence_eq, hprimary]
  show (Grammar.expression c [] 0 missing (o.atom :: b.atoms) >>= fun read => Grammar.stray c [] read.expr read.rest) >>= _ = _
  rw [hexpression]
  show Grammar.stray c [] (between o.name missing b.tree) [] >>= _ = _
  rw [Grammar.stray_nil]
  rfl

end

/-! ### Signed letters -/

section

variable {table : Table Int}

/-- The atom of a sign, which is not binary if the lexer takes the sign for a relation. -/
def Sign.atomOf (s : Sign) (type : AtomType) : Atom := { type, value := s.name }

theorem Sign.isPlain_atomOf (s : Sign) (type : AtomType) : (s.atomOf type).IsPlain where
  worded := by cases s <;> exact ⟨⟨_, rfl⟩, .inl rfl, .inl rfl, .inl rfl, .inl rfl, .inl rfl⟩
  unscripted := by cases s <;> rfl
  spelling t ht := by
    have heq : t = s.name := (Datum.text.inj (Except.ok.inj ht)).symm
    subst heq
    cases s <;> decide

theorem Sign.name_atomOf (s : Sign) (type : AtomType) :
    (s.atomOf type).name (Catalog.withPrecedences table) = .ok (.text s.name) := by cases s <;> rfl

theorem Sign.name_cases (s : Sign) : s.name = "+" ∨ s.name = "-" := by
  cases s with
  | plus => exact .inl rfl
  | minus => exact .inr rfl

/-- The sign to the reader, where it is a binary operator. -/
def Sign.binary (s : Sign) : SignAtom (Catalog.withPrecedences table) where
  atom := s.atomOf .binary
  name := s.name
  plain := s.isPlain_atomOf .binary
  type_eq := rfl
  name_eq := s.name_atomOf .binary
  sign := s.name_cases

/-- The sign to the reader, where it is a relation. -/
def Sign.relation (s : Sign) {rank : Int} (hrank : (Catalog.withPrecedences table).precedence (.text s.name) = some rank)
    (hnonneg : 0 ≤ rank) : OperatorAtom (Catalog.withPrecedences table) where
  atom := s.atomOf .relation
  name := .text s.name
  precedence := rank
  plain := s.isPlain_atomOf .relation
  type_eq := .inr rfl
  name_eq := s.name_atomOf .relation
  precedence_eq := by
    unfold Atom.precedence
    rw [s.name_atomOf]
    exact congrArg Except.ok hrank
  nonneg := hnonneg

/-- A sign with a precedence is a binary operator if it binds as tight as a plus, else a relation. -/
theorem Sign.spells_atomOf (s : Sign) {rank : Int}
    (hrank : (Catalog.withPrecedences table).precedence (.text s.name) = some rank) :
    Source.Spells (Catalog.withPrecedences table) s.name
      [s.atomOf (if ((Catalog.withPrecedences table).precedence "+").getD 0 ≤ rank then .binary else .relation)] := by
  have hatom : Source.symbolAtom (Catalog.withPrecedences table) s.name =
      .ok (s.atomOf (if ((Catalog.withPrecedences table).precedence "+").getD 0 ≤ rank then .binary else .relation)) := by
    have hprecedence : (Catalog.withPrecedences table).precedenceOf (.text s.name) = .ok (some rank) :=
      congrArg Except.ok hrank
    cases s with
    | plus =>
      show ((Catalog.withPrecedences table).precedenceOf (.text Sign.plus.name) >>= _) = _
      rw [hprecedence]
      rfl
    | minus =>
      show ((Catalog.withPrecedences table).precedenceOf (.text Sign.minus.name) >>= _) = _
      rw [hprecedence]
      rfl
  cases s with
  | plus => exact Source.spells_char (d := '+') (by decide) (by decide) (by decide) (by decide) (by decide) hatom
  | minus => exact Source.spells_char (d := '-') (by decide) (by decide) (by decide) (by decide) (by decide) hatom

/-- **A sign in front of letters is a sign if it binds as tight as a plus.**  For all overrides of precedences under which
`+` and `-` have precedences that are not negative and the letters have none: a sign in front of letters is read as the sign
of their product if its precedence is at least that of `+`, and else as a relation with nothing on its left.  So `+` is
always read as a sign, and `-` if and only if it does not bind less tight than `+`. -/
theorem signed_letters_read {changes : Table Datum} {c : Catalog}
    (h : Catalog.ofOverrides (.map [(.text "precedence", .map changes)]) = .ok c) {rank : Sign → Int}
    (hrank : ∀ s : Sign, c.precedence (.text s.name) = some (rank s)) (hnonneg : ∀ s, 0 ≤ rank s)
    {d : Char} {more : List Char} (hletters : ∀ x ∈ d :: more, isLetter x = true ∧ c.precedence (.text x.toString) = none)
    (s : Sign) :
    ∃ row, Source.atoms c (s.name ++ String.ofList (d :: more)) = .ok row ∧
      ofAtoms c row = .ok (if rank .plus ≤ rank s then before s.name (letterProduct d more)
        else between s.name missing (letterProduct d more)) := by
  rw [Catalog.ofOverrides_precedence] at h
  obtain ⟨table, -, rfl⟩ := Outcome.map_eq_ok.mp h
  obtain ⟨symbols, hatoms, htrees⟩ := exists_letters hletters
  cases symbols with
  | nil => cases hatoms
  | cons first symbols =>
  have hproduct : symbols.foldl (fun e s => between "*" e s.tree) first.tree = letterProduct d more := by
    rw [List.map_cons, List.map_cons, List.cons.injEq] at htrees
    rw [letterProduct, ← htrees.1, ← List.foldl_map (f := fun d => letterSymbol d) (g := fun e t => between "*" e t), ← htrees.2,
      List.foldl_map]
  have hspells := (s.spells_atomOf (hrank s)).append (spells_letters hletters)
  rw [show (Catalog.withPrecedences table).precedence "+" = some (rank .plus) from hrank .plus, Option.getD_some, ← hatoms]
    at hspells
  refine ⟨_, hspells.atoms, ?_⟩
  by_cases hle : rank .plus ≤ rank s
  · rw [if_pos hle, if_pos hle]
    have hread := Block.ofAtoms ⟨[s.binary], first, symbols⟩
    rw [Block.tree, hproduct] at hread
    exact hread
  · rw [if_neg hle, if_neg hle]
    have hread := (s.relation (hrank s) (hnonneg s)).ofAtoms_block rfl ⟨[], first, symbols⟩
    rw [Block.tree, hproduct] at hread
    exact hread

/-- The usual precedences but for a minus that binds less tight than a plus, and tighter than a relation. -/
def loweredMinus : Table Int :=
  Table.ofTexts (Catalog.builtinPrecedences.map fun e => if e.1 = "-" then (e.1, 100) else e)

/-- The precedences of the signs in this table. -/
def Sign.lowered : Sign → Int
  | .plus => 275
  | .minus => 100

theorem ofOverrides_loweredMinus :
    Catalog.ofOverrides (.map [(.text "precedence", .map [(.text "-", .int 100)])]) =
      .ok (Catalog.withPrecedences loweredMinus) := by
  rw [Catalog.ofOverrides_precedence]
  rfl

theorem precedence_loweredMinus {d : Char} (hd : isLetter d = true) :
    (Catalog.withPrecedences loweredMinus).precedence (.text d.toString) = none :=
  Catalog.find?_ofTexts (AreLong.not_mem (by decide) (isLetterOrDigit_of_isLetter hd))

/-- `-xy` where the minus binds less tight. -/
theorem signed_letters_read_difference :
    ∃ c, Catalog.ofOverrides (.map [(.text "precedence", .map [(.text "-", .int 100)])]) = .ok c ∧
      c.precedence "+" = some 275 ∧ c.precedence "-" = some 100 ∧
      (∀ d, isLetter d = true → c.precedence (.text d.toString) = none) ∧
      ∃ row, Source.atoms c "-xy" = .ok row ∧
        ofAtoms c row = .ok (between "-" missing (between "*" (letterSymbol 'x') (letterSymbol 'y'))) := by
  refine ⟨_, ofOverrides_loweredMinus, rfl, rfl, fun _ => precedence_loweredMinus, ?_⟩
  have hletters : ∀ x ∈ ['x', 'y'], isLetter x = true := List.all_eq_true.mp (by decide)
  exact @signed_letters_read _ _ ofOverrides_loweredMinus Sign.lowered (fun s => by cases s <;> rfl)
    (fun s => by cases s <;> decide) 'x' ['y'] (fun x hx => ⟨hletters x hx, precedence_loweredMinus (hletters x hx)⟩) .minus

/-- A minus that binds less tight than a plus is no sign in front of a letter, though its precedence is not negative. -/
theorem lowered_minus_unsigned :
    ∃ c, Catalog.ofOverrides (.map [(.text "precedence", .map [(.text "-", .int 100)])]) = .ok c ∧
      c.precedence "+" = some 275 ∧ c.precedence "-" = some 100 ∧
      (∀ d, isLetter d = true → c.precedence (.text d.toString) = none) ∧
      ∃ row, Source.atoms c "-x" = .ok row ∧ ofAtoms c row = .ok (between "-" missing (letterSymbol 'x')) ∧
        between "-" missing (letterSymbol 'x') ≠ before "-" (letterSymbol 'x') := by
  refine ⟨_, ofOverrides_loweredMinus, rfl, rfl, fun _ => precedence_loweredMinus, ?_⟩
  exact ⟨[Sign.minus.atomOf .relation, ofCharacter 'x'], by rfl, by rfl, by simp [between, before]⟩

end

end Formula
