import Formula.Proofs.Reader.Climbing
import Formula.Proofs.Reader.Follow

/-!
# Blocks of symbols between operators

The plainest formulas are chains of operators of the catalog between blocks, and a block is a product of symbols without
a sign between them, with any number of signs in front.  Such a formula is read as the tree that the precedences
prescribe for its blocks, whatever the catalog says of the operators.
-/

namespace Formula

open Atom Expr

/-! ### Atoms of a chain -/

/-- The atom is written in texts, carries no scripts and begins no digraph. -/
structure Atom.IsPlain (a : Atom) : Prop where
  worded : a.Worded
  unscripted : a.hasScripts = false
  spelling : ∀ t, a.text = .ok (.text t) → t ≠ "\\nabla" ∧ t ≠ "!"

/-- A sign in front of an operand. -/
structure SignAtom (c : Catalog) where
  atom : Atom
  name : String
  plain : atom.IsPlain
  type_eq : atom.type = .binary
  name_eq : atom.name c = .ok (.text name)
  sign : name = "+" ∨ name = "-"

/-- A symbol: an ordinary atom that is no part of a number, no placeholder, no function and no operator. -/
structure SymbolAtom (c : Catalog) where
  atom : Atom
  name : String
  plain : atom.IsPlain
  type_eq : atom.type = .ordinary
  name_eq : atom.name c = .ok (.text name)
  digit : atom.isDigit = .ok false
  point : atom.text ≠ .ok (.text ".")
  placeholder : atom.isPlaceholder = false
  function : atom.isFunction c = .ok false
  operator : atom.precedence c = .ok none

/-- An operator of the catalog. -/
structure OperatorAtom (c : Catalog) where
  atom : Atom
  name : Datum
  precedence : Int
  plain : atom.IsPlain
  type_eq : atom.type = .binary ∨ atom.type = .relation
  name_eq : atom.name c = .ok name
  precedence_eq : atom.precedence c = .ok (some precedence)
  nonneg : 0 ≤ precedence

/-- Signs and one symbol or more. -/
structure Block (c : Catalog) where
  signs : List (SignAtom c)
  first : SymbolAtom c
  more : List (SymbolAtom c)

/-- Blocks with operators between them. -/
structure Chain (c : Catalog) where
  first : Block c
  links : List (OperatorAtom c × Block c)

section

variable {c : Catalog}

/-- The expression of a symbol. -/
def SymbolAtom.tree (s : SymbolAtom c) : Expr :=
  match s.atom.symbol c with
  | .ok e => e
  | .error _ => missing

/-- The product of the symbols, with a sign operator for every sign. -/
def Block.tree (b : Block c) : Expr :=
  b.signs.foldr (fun s e => before s.name e) (b.more.foldl (fun e s => between "*" e s.tree) b.first.tree)

/-- The atoms of a block. -/
def Block.atoms (b : Block c) : List Atom := b.signs.map (·.atom) ++ b.first.atom :: b.more.map (·.atom)

/-- The operator and the block behind it as a link of a chain. -/
def Chain.link (l : OperatorAtom c × Block c) : Link := ⟨l.1.atom, l.2.atoms, l.1.name, l.1.precedence, l.2.tree⟩

/-- The atoms of a chain. -/
def Chain.atoms (chain : Chain c) : List Atom := chain.first.atoms ++ Link.rows [] (chain.links.map Chain.link)

/-! ### What the atoms are to the reader -/

theorem Atom.IsPlain.digraph {names : List String} {a : Atom} {rest : List Atom} (h : a.IsPlain)
    (hrest : ∀ b, rest.head? = some b → ∃ u, b.text = .ok (.text u)) :
    startsWithDigraph? names (a :: rest) = .ok none := by
  obtain ⟨t, ht⟩ := h.worded.text
  obtain ⟨hn, he⟩ := h.spelling t ht
  exact startsWithDigraph?_none hrest ht hn he

theorem SymbolAtom.symbol_eq (s : SymbolAtom c) :
    s.atom.symbol c = .ok s.tree ∧ ∃ name v, s.tree = ofSymbol (.text name) v := by
  obtain ⟨name, v, h⟩ := s.plain.worded.symbol_of_name s.name_eq
  unfold SymbolAtom.tree
  rw [h]
  exact ⟨rfl, name, v, rfl⟩

theorem SymbolAtom.startsNumber (s : SymbolAtom c) (rest : List Atom) :
    Expr.startsNumber (s.atom :: rest) = .ok false := by
  obtain ⟨t, ht⟩ := s.plain.worded.text
  have hpoint : (Datum.text t).isText "." = false := by
    refine Bool.eq_false_iff.mpr fun h => s.point ?_
    rw [ht, of_decide_eq_true h]
  rw [Expr.startsNumber, s.digit, ht]
  show (if s.atom.type = .ordinary then
    (if ((Datum.text t).isText "." && !s.atom.hasScripts) = true then _ else Except.ok false) else _) = _
  rw [hpoint, if_pos s.type_eq]
  rfl

/-- No fence is closed by a symbol, a sign or an operator. -/
def FenceClosers (closers : List Closer) : Prop := ∀ k ∈ closers, k.type = .closing ∨ k.type = .textual ∨ k.type = .sized

theorem FenceClosers.closesAny {closers : List Closer} (h : FenceClosers closers) {a : Atom}
    (ht : a.type = .ordinary ∨ a.type = .binary ∨ a.type = .relation) : a.closesAny closers = .ok false := by
  refine closesAny_eq_false fun k hk heq => ?_
  rcases h k hk with hk | hk | hk <;> rcases ht with ht | ht | ht <;> (rw [ht, hk] at heq; cases heq)

variable {closers : List Closer}

/-- A symbol is an operand of its own. -/
theorem SymbolAtom.operand (s : SymbolAtom c) {rest : List Atom} (h : Quiet rest) :
    Grammar.operand c closers s.atom rest = .ok ⟨rest, s.tree⟩ := by
  have hatom : Grammar.atom c s.atom = .ok s.tree := by
    rw [Grammar.atom_eq, s.type_eq]
    exact s.symbol_eq.1
  have hsymbol : Grammar.symbol c s.atom rest = .ok ⟨rest, s.tree⟩ := by
    rw [Grammar.symbol_eq, s.operator]
    show (if s.atom.type = .ordinary ∨ s.atom.type = .textual then _ else _) = _
    rw [if_pos (.inl s.type_eq)]
    exact Grammar.marked_plain hatom s.plain.unscripted h
  have hsign : s.atom.sign? c = .ok none := by
    unfold Atom.sign?
    rw [if_neg (by rw [s.type_eq]; decide)]
    rfl
  rw [Grammar.operand_eq, s.plain.digraph h.text, hsign, s.placeholder, s.startsNumber, s.type_eq, s.function, hsymbol]
  rfl

theorem SymbolAtom.startsOperand (s : SymbolAtom c) (hclosers : FenceClosers closers) :
    s.atom.startsOperand c closers = .ok true := by
  unfold Atom.startsOperand
  rw [hclosers.closesAny (.inl s.type_eq), s.operator, s.type_eq, s.placeholder]
  rfl

/-- In front of a symbol there are neither scripts nor marks. -/
theorem SymbolAtom.quiet (s : SymbolAtom c) {rest : List Atom}
    (hrest : ∀ b, rest.head? = some b → ∃ u, b.text = .ok (.text u)) : Quiet (s.atom :: rest) where
  text := by
    rintro _ ⟨⟩
    exact s.plain.worded.text
  placeholder := by
    rintro _ ⟨⟩
    rw [s.placeholder, Bool.false_and]
  digraph := s.plain.digraph hrest
  mark := by
    rintro _ ⟨⟩
    unfold Atom.postfixFunction?
    rw [if_neg (by rw [s.type_eq]; decide)]
    rfl

/-- An operand ends in front of an operator. -/
theorem OperatorAtom.stops (o : OperatorAtom c) (hclosers : FenceClosers closers) {rest : List Atom}
    (hrest : ∀ b, rest.head? = some b → ∃ u, b.text = .ok (.text u)) : Stops c closers (o.atom :: rest) where
  text := by
    rintro _ ⟨⟩
    exact o.plain.worded.text
  placeholder := by
    rintro _ ⟨⟩
    rw [o.plain.unscripted, Bool.and_false]
  digraph := o.plain.digraph hrest
  mark := by
    rintro _ ⟨⟩
    unfold Atom.postfixFunction?
    rw [if_neg (by rcases o.type_eq with h | h <;> (rw [h]; decide))]
    rfl
  operand := by
    rintro _ ⟨⟩
    unfold Atom.startsOperand
    rw [hclosers.closesAny (.inr o.type_eq), o.precedence_eq]
    rfl

/-! ### Products and signs -/

/-- Texts stand in front of every row of symbols. -/
theorem text_of_symbols (symbols : List (SymbolAtom c)) {rest : List Atom}
    (hrest : ∀ b, rest.head? = some b → ∃ u, b.text = .ok (.text u)) :
    ∀ b, (symbols.map (·.atom) ++ rest).head? = some b → ∃ u, b.text = .ok (.text u) := by
  cases symbols with
  | nil => exact hrest
  | cons s more =>
    rintro _ ⟨⟩
    exact s.plain.worded.text

theorem quiet_of_symbols (symbols : List (SymbolAtom c)) {rest : List Atom} (h : Quiet rest) :
    Quiet (symbols.map (·.atom) ++ rest) := by
  cases symbols with
  | nil => exact h
  | cons s more => exact s.quiet (text_of_symbols more h.text)

/-- The neighbours of an expression are multiplied to it from left to right. -/
theorem neighbours_symbols (hclosers : FenceClosers closers) : ∀ (symbols : List (SymbolAtom c)) {e : Expr}
    {rest : List Atom}, (∃ is, callName? e = .ok is) → Stops c closers rest →
    Grammar.neighbours c closers e (symbols.map (·.atom) ++ rest) =
      .ok ⟨rest, symbols.foldl (fun e s => between "*" e s.tree) e⟩
  | [], e, rest, _, h => Grammar.neighbours_stops h
  | s :: more, e, rest, he, h => by
    have hquiet := quiet_of_symbols more h.toQuiet
    have hnode : s.tree.isMissing = false := by
      obtain ⟨name, v, htree⟩ := s.symbol_eq.2
      rw [htree]
      rfl
    have hlen : ¬(more.map (·.atom) ++ rest).length = (s.atom :: (more.map (·.atom) ++ rest)).length := by
      rw [List.length_cons]
      omega
    have happlication : Grammar.application c e (s.atom :: (more.map (·.atom) ++ rest)) = .ok none :=
      Grammar.application_none he (by rw [s.type_eq]; decide) (by rw [s.type_eq]; decide)
    rw [List.map_cons, List.cons_append, Grammar.neighbours_cons, s.startsOperand hclosers, happlication,
      s.operand hquiet]
    show (if (s.tree.isMissing || decide ((more.map (·.atom) ++ rest).length = _)) = true then _ else _) = _
    rw [hnode, decide_eq_false hlen]
    exact neighbours_symbols hclosers more ⟨_, rfl⟩ h

/-- No sign is folded into a symbol or a product of symbols. -/
theorem foldSign?_product (sign : Datum) : ∀ (symbols : List (SymbolAtom c)) {e : Expr}, foldSign? sign e = none →
    foldSign? sign (symbols.foldl (fun e s => between "*" e s.tree) e) = none
  | [], _, h => h
  | s :: more, e, h => by
    refine foldSign?_product sign more ?_
    show (if _ then (foldSign? sign e).map _ else none) = none
    rw [h]
    rfl

/-- Nor into signed products of symbols. -/
theorem Block.foldSign?_tree (sign : Datum) (b : Block c) : foldSign? sign b.tree = none := by
  obtain ⟨signs, first, more⟩ := b
  unfold Block.tree
  cases signs with
  | nil =>
    refine foldSign?_product sign more ?_
    obtain ⟨name, v, htree⟩ := first.symbol_eq.2
    rw [htree]
    rfl
  | cons s signs => rfl

/-- Texts stand in front of every row that begins with a block. -/
theorem Block.text (b : Block c) (rest : List Atom) :
    ∀ a, (b.atoms ++ rest).head? = some a → ∃ u, a.text = .ok (.text u) := by
  obtain ⟨signs, first, more⟩ := b
  cases signs with
  | nil =>
    rintro _ ⟨⟩
    exact first.plain.worded.text
  | cons s signs =>
    rintro _ ⟨⟩
    exact s.plain.worded.text

/-- A sign in front of a primary. -/
theorem SignAtom.primary (s : SignAtom c) (hclosers : FenceClosers closers) {row rest : List Atom} {e : Expr}
    (htext : ∀ b, row.head? = some b → ∃ u, b.text = .ok (.text u))
    (hread : Grammar.primary c closers row = .ok ⟨rest, e⟩) (hnode : (withSign s.name e).isMissing = false)
    (h : Stops c closers rest) :
    Grammar.primary c closers (s.atom :: row) = .ok ⟨rest, withSign s.name e⟩ := by
  have hsign : s.atom.sign? c = .ok (some s.name) := by
    unfold Atom.sign?
    rw [if_pos s.type_eq, s.name_eq]
    rcases s.sign with h | h <;> (rw [h]; rfl)
  have hoperand : Grammar.operand c closers s.atom row = .ok ⟨rest, withSign s.name e⟩ := by
    rw [Grammar.operand_eq, s.plain.digraph htext, hsign, hread]
    rfl
  rw [Grammar.primary_cons, hclosers.closesAny (.inr (.inl s.type_eq)), hoperand]
  show (if (withSign s.name e).isMissing = true then _ else _) = _
  rw [hnode]
  exact Grammar.neighbours_stops h

/-- **A block is read as its tree**, up to where an operand may end. -/
theorem Block.primary (hclosers : FenceClosers closers) : ∀ (b : Block c) {rest : List Atom}, Stops c closers rest →
    Grammar.primary c closers (b.atoms ++ rest) = .ok ⟨rest, b.tree⟩
  | ⟨[], first, more⟩, rest, h => by
    obtain ⟨name, v, htree⟩ := first.symbol_eq.2
    have hname : ∃ is, callName? first.tree = .ok is := by
      rw [htree]
      exact ⟨_, rfl⟩
    have hnode : first.tree.isMissing = false := by
      rw [htree]
      rfl
    show Grammar.primary c closers (first.atom :: (more.map (·.atom) ++ rest)) = _
    rw [Grammar.primary_cons, hclosers.closesAny (.inl first.type_eq), first.operand (quiet_of_symbols more h.toQuiet)]
    show (if first.tree.isMissing = true then _ else Grammar.neighbours c closers first.tree _) = _
    rw [hnode]
    exact neighbours_symbols hclosers more hname h
  | ⟨s :: signs, first, more⟩, rest, h => by
    have htree : withSign s.name (Block.tree ⟨signs, first, more⟩) = Block.tree ⟨s :: signs, first, more⟩ := by
      rw [withSign, Block.foldSign?_tree]
      rfl
    have hread := s.primary hclosers (Block.text ⟨signs, first, more⟩ rest)
      (Block.primary hclosers ⟨signs, first, more⟩ h) (by rw [htree]; rfl) h
    rw [htree] at hread
    exact hread

/-! ### Chains -/

theorem Chain.reads (hclosers : FenceClosers closers) (l : OperatorAtom c × Block c) :
    (Chain.link l).Reads c closers (Stops c closers) :=
  ⟨l.1.precedence_eq, l.1.name_eq, fun _ h => l.2.primary hclosers h⟩

theorem Chain.end_rows (hclosers : FenceClosers closers) (links : List (OperatorAtom c × Block c)) :
    ChainEnd c (Stops c closers) (links.map Chain.link) [] := by
  refine ⟨rfl, fun more hmore => ?_⟩
  obtain ⟨links', -, rfl⟩ : ∃ links', links' <:+ links ∧ links'.map Chain.link = more := by
    obtain ⟨t, ht⟩ := hmore
    obtain ⟨l₁, l₂, rfl, -, rfl⟩ := List.map_eq_append_iff.mp ht.symm
    exact ⟨l₂, List.suffix_append _ _, rfl⟩
  cases links' with
  | nil => exact Stops.nil
  | cons l links' => exact l.1.stops hclosers (l.2.text _)

theorem Chain.mem_atoms (chain : Chain c) : ∀ a ∈ chain.atoms, a.type ≠ .spacing := by
  have block : ∀ b : Block c, ∀ a ∈ b.atoms, a.type ≠ .spacing := by
    intro b a ha
    rcases List.mem_append.mp ha with ha | ha
    · obtain ⟨s, -, rfl⟩ := List.mem_map.mp ha
      rw [s.type_eq]
      decide
    · rcases List.mem_cons.mp ha with rfl | ha
      · rw [b.first.type_eq]
        decide
      · obtain ⟨s, -, rfl⟩ := List.mem_map.mp ha
        rw [s.type_eq]
        decide
  have links : ∀ links : List (OperatorAtom c × Block c), ∀ a ∈ Link.rows [] (links.map Chain.link),
      a.type ≠ .spacing := by
    intro links
    induction links with
    | nil => exact fun _ h => by cases h
    | cons l links ih =>
      intro a ha
      rcases List.mem_cons.mp ha with rfl | ha
      · rcases l.1.type_eq with h | h <;> (show l.1.atom.type ≠ _; rw [h]; decide)
      · rcases List.mem_append.mp ha with ha | ha
        · exact block l.2 a ha
        · exact ih a ha
  intro a ha
  rcases List.mem_append.mp ha with ha | ha
  · exact block chain.first a ha
  · exact links chain.links a ha

/-- **A chain of blocks is read as the tree that the precedences of the catalog prescribe**, and there is no other such
tree. -/
theorem ofAtoms_chain (chain : Chain c) :
    ∃ e, ofAtoms c chain.atoms = .ok e ∧
      ∀ e', Arranges chain.first.tree (chain.links.map Chain.link) e' ↔ e' = e := by
  have hclosers : FenceClosers [] := fun _ h => by cases h
  have hend := Chain.end_rows hclosers chain.links
  have hreads : ∀ link ∈ chain.links.map Chain.link, link.Reads c [] (Stops c []) := by
    intro link hl
    obtain ⟨l, -, rfl⟩ := List.mem_map.mp hl
    exact Chain.reads hclosers l
  have hleast : ∀ link ∈ chain.links.map Chain.link, 0 ≤ link.precedence := by
    intro link hl
    obtain ⟨l, -, rfl⟩ := List.mem_map.mp hl
    exact l.1.nonneg
  obtain ⟨e, he, harranged⟩ := @expression_chain _ _ _ chain.first.tree _ _ _ hreads hend hleast
  refine ⟨e, ?_, fun e' => ⟨fun h => h.unique harranged, fun h => h ▸ harranged⟩⟩
  have hfirst := chain.first.primary hclosers (hend.rows _ List.suffix_rfl)
  rw [ofAtoms_eq, Grammar.whole_eq, unspaced_eq_self chain.mem_atoms, Grammar.sequence_eq]
  unfold Chain.atoms
  rw [hfirst]
  show ((Grammar.expression c [] 0 chain.first.tree (Link.rows [] (chain.links.map Chain.link)) >>= fun read =>
    Grammar.stray c [] read.expr read.rest) >>= fun read => pure read.expr) = _
  rw [he]
  show (Grammar.stray c [] e [] >>= _) = _
  rw [Grammar.stray_nil]
  rfl

/-- `a-bc+d`: the difference is the left operand of the sum, and the product that of the minus. -/
example : ofAtoms .builtin [{ type := .ordinary, value := .text "a" }, { type := .binary, value := .text "-" },
      { type := .ordinary, value := .text "b" }, { type := .ordinary, value := .text "c" },
      { type := .binary, value := .text "+" }, { type := .ordinary, value := .text "d" }] =
    .ok (between "+" (between "-" (ofSymbol "a" .null) (between "*" (ofSymbol "b" .null) (ofSymbol "c" .null)))
      (ofSymbol "d" .null)) := by rfl

end

end Formula
