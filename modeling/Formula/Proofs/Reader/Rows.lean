import Formula.Proofs.Reader.Blocks

/-!
# Rows that are read as one expression

Formulas are put together from rows of atoms, and a row is of use in a larger one when it is read as the same expression
wherever it may stand.  There are five kinds of such rows: an operand, which may have postfix marks behind it
(`IsOperand`); a primary, which may have an operator behind it (`IsPrimary`); a chain of primaries with operators between
them (`IsChain`); an expression, which ends where a fence around it is closed (`IsExpression`); and a whole sequence
(`IsWhole`).  Every operand is a primary, every primary a chain and every chain an expression; an expression is a whole
sequence, and in parentheses it is an operand again.

A nabla is an operand too, but not in front of the sign of a product, with which it would make a digraph.  Two kinds allow
for it: what may have anything but such a sign behind it is an addend (`IsAddend`), and an expression that may is an inner
one (`IsInner`).
-/

namespace Formula

open Atom Expr

variable {c : Catalog}

/-! ### What follows a row -/

/-- All atoms are worded, and the first of them neither multiplies what stands in front nor goes on with a number. -/
structure Trailing (rest : List Atom) : Prop where
  worded : ∀ a ∈ rest, a.Worded
  type : ∀ a, rest.head? = some a → a.type = .binary ∨ a.type = .relation ∨ a.type = .closing ∨ a.type = .textual

/-- A primary may end in front of the row, and so may a mark that would begin a digraph. -/
structure Border (c : Catalog) (closers : List Closer) (rest : List Atom) : Prop extends Trailing rest where
  stops : Stops c closers rest
  spelling : ∀ a, rest.head? = some a → a.text ≠ .ok (.text "!")

/-- An expression may end in front of the row: a letter that stands there as its last factor marks no exponent. -/
structure Edge (c : Catalog) (closers : List Closer) (rest : List Atom) : Prop extends Border c closers rest where
  exponent : startsWithExponent rest = .ok false

theorem Trailing.text {rest : List Atom} (h : Trailing rest) : ∀ a, rest.head? = some a → ∃ t, a.text = .ok (.text t) :=
  fun a ha => (h.worded a (List.mem_of_mem_head? ha)).text

theorem Trailing.nil : Trailing [] where
  worded _ h := by cases h
  type _ h := by cases h

theorem Border.nil (closers : List Closer) : Border c closers [] := ⟨.nil, .nil, fun _ h => by cases h⟩

theorem Edge.nil (closers : List Closer) : Edge c closers [] := ⟨.nil closers, rfl⟩

/-- The closer of parentheses. -/
def closingParenthesis : Closer := ⟨.closing, some ")"⟩

/-- Only parentheses are open. -/
def InParentheses (closers : List Closer) : Prop := ∀ k ∈ closers, k = closingParenthesis

theorem InParentheses.fenceClosers {closers : List Closer} (h : InParentheses closers) : FenceClosers closers :=
  fun k hk => .inl (by rw [h k hk]; rfl)

theorem InParentheses.closesAny {closers : List Closer} (h : InParentheses closers) {a : Atom} (ha : a.type ≠ .closing) :
    a.closesAny closers = .ok false :=
  closesAny_eq_false fun k hk heq => ha (by rw [heq, h k hk]; rfl)

theorem InParentheses.snoc {closers : List Closer} (h : InParentheses closers) :
    InParentheses (closers ++ [closingParenthesis]) := by
  intro k hk
  rcases List.mem_append.mp hk with hk | hk
  · exact h k hk
  · exact List.mem_singleton.mp hk

theorem OperatorAtom.border (o : OperatorAtom c) {closers : List Closer} (hclosers : InParentheses closers)
    {rest : List Atom} (hrest : ∀ a ∈ rest, a.Worded) : Border c closers (o.atom :: rest) where
  worded := by
    intro a ha
    rcases List.mem_cons.mp ha with rfl | ha
    · exact o.plain.worded
    · exact hrest a ha
  type := by
    rintro _ ⟨⟩
    rcases o.type_eq with h | h
    · exact .inl h
    · exact .inr (.inl h)
  stops := o.stops hclosers.fenceClosers fun b hb => (hrest b (List.mem_of_mem_head? hb)).text
  spelling := by
    rintro _ ⟨⟩ heq
    exact (o.plain.spelling _ heq).2 rfl

/-! ### Kinds of rows -/

/-- The row begins with an atom that closes nothing and is no placeholder, and all of its atoms are worded. -/
structure Begins (row : List Atom) : Prop where
  worded : ∀ a ∈ row, a.Worded
  head : ∃ a rest, row = a :: rest ∧ a.type ≠ .closing ∧ a.isPlaceholder = false

theorem Begins.append {row rest : List Atom} (h : Begins row) (hrest : ∀ a ∈ rest, a.Worded) : Begins (row ++ rest) where
  worded := by
    intro a ha
    rcases List.mem_append.mp ha with ha | ha
    · exact h.worded a ha
    · exact hrest a ha
  head := by
    obtain ⟨a, more, rfl, ha⟩ := h.head
    exact ⟨a, more ++ rest, rfl, ha⟩

theorem Begins.text {row : List Atom} (h : Begins row) : ∀ a, row.head? = some a → ∃ t, a.text = .ok (.text t) :=
  fun a ha => (h.worded a (List.mem_of_mem_head? ha)).text

/-- The row is read as an operand, and the marks behind it belong to the expression. -/
structure IsOperand (c : Catalog) (row : List Atom) (e : Expr) : Prop extends Begins row where
  node : e.isMissing = false
  read : ∀ closers rest, InParentheses closers → Trailing rest → ∃ a more, row = a :: more ∧
    Grammar.operand c closers a (more ++ rest) = Grammar.marks c e rest

/-- The row is read as a primary. -/
structure IsPrimary (c : Catalog) (row : List Atom) (e : Expr) : Prop extends Begins row where
  node : e.isMissing = false
  read : ∀ closers rest, InParentheses closers → Border c closers rest →
    Grammar.primary c closers (row ++ rest) = .ok ⟨rest, e⟩

/-- The row does not begin with the sign of a product that would make a digraph with a nabla. -/
def Undotted (rest : List Atom) : Prop :=
  ∀ a t, rest.head? = some a → a.text = .ok (.text t) → t ≠ "\\cdot" ∧ t ≠ "\\times"

/-- The row is read as an operand wherever no sign of a product follows. -/
structure IsAddend (c : Catalog) (row : List Atom) (e : Expr) : Prop extends Begins row where
  node : e.isMissing = false
  read : ∀ closers rest, InParentheses closers → Trailing rest → Undotted rest → ∃ a more, row = a :: more ∧
    Grammar.operand c closers a (more ++ rest) = Grammar.marks c e rest

/-- The link is an operator of the catalog with a primary behind it. -/
def Link.IsSound (c : Catalog) (link : Link) : Prop :=
  ∃ o : OperatorAtom c, link.atom = o.atom ∧ link.op = o.name ∧ link.precedence = o.precedence ∧
    IsPrimary c link.row link.operand

theorem Link.IsSound.reads {link : Link} (h : link.IsSound c) {closers : List Closer} (hclosers : InParentheses closers) :
    link.Reads c closers (Border c closers) := by
  obtain ⟨o, hatom, hname, hprecedence, hprimary⟩ := h
  exact ⟨by rw [hatom, hprecedence]; exact o.precedence_eq, by rw [hatom, hname]; exact o.name_eq,
    fun rest hrest => hprimary.read closers rest hclosers hrest⟩

theorem Link.IsSound.nonneg {link : Link} (h : link.IsSound c) : 0 ≤ link.precedence := by
  obtain ⟨o, -, -, hprecedence, -⟩ := h
  rw [hprecedence]
  exact o.nonneg

/-- The row is a primary with links behind it. -/
structure IsChain (c : Catalog) (row : List Atom) (first : Expr) (links : List Link) : Prop where
  head : ∃ start, row = start ++ Link.rows [] links ∧ IsPrimary c start first
  links : ∀ link ∈ links, link.IsSound c

/-- The row is read as an expression, up to what closes a fence around it or to the end. -/
structure IsExpression (c : Catalog) (row : List Atom) (e : Expr) : Prop extends Begins row where
  read : ∀ closers tail, InParentheses closers → Edge c closers tail → operator? c tail = .ok none →
    (do
      let start ← Grammar.primary c closers (row ++ tail)
      Grammar.expression c closers 0 start.expr start.rest) = .ok ⟨tail, e⟩

/-- The row is read as an expression where no sign of a product follows, up to what closes a fence around it or to the end. -/
structure IsInner (c : Catalog) (row : List Atom) (e : Expr) : Prop extends Begins row where
  read : ∀ closers tail, InParentheses closers → Edge c closers tail → Undotted tail → operator? c tail = .ok none →
    (do
      let start ← Grammar.primary c closers (row ++ tail)
      Grammar.expression c closers 0 start.expr start.rest) = .ok ⟨tail, e⟩

/-- The row is read as a whole. -/
structure IsWhole (c : Catalog) (row : List Atom) (e : Expr) : Prop where
  ne_nil : row ≠ []
  read : Grammar.whole c row = .ok e

/-! ### From operands to whole sequences -/

/-- An operand up to where a primary may end is a primary. -/
theorem Grammar.primary_operand {closers : List Closer} (hclosers : InParentheses closers) {a : Atom}
    (ha : a.type ≠ .closing) {more rest : List Atom} {e : Expr} (hnode : e.isMissing = false) (hrest : Stops c closers rest)
    (hread : Grammar.operand c closers a more = .ok ⟨rest, e⟩) : Grammar.primary c closers (a :: more) = .ok ⟨rest, e⟩ := by
  rw [Grammar.primary_cons, hclosers.closesAny ha, hread]
  show (if e.isMissing = true then _ else _) = _
  rw [hnode]
  exact Grammar.neighbours_stops hrest

theorem Begins.type_ne {a : Atom} {more : List Atom} (h : Begins (a :: more)) : a.type ≠ .closing := by
  obtain ⟨_, _, heq, htype, -⟩ := h.head
  obtain ⟨rfl, -⟩ := List.cons.inj heq
  exact htype

/-- In front of where a primary ends there are no marks. -/
theorem IsOperand.isPrimary {row : List Atom} {e : Expr} (h : IsOperand c row e) : IsPrimary c row e := by
  refine ⟨h.toBegins, h.node, fun closers rest hclosers hrest => ?_⟩
  obtain ⟨a, more, rfl, hread⟩ := h.read closers rest hclosers hrest.toTrailing
  rw [Grammar.marks_quiet hrest.stops.toQuiet] at hread
  exact Grammar.primary_operand hclosers h.type_ne h.node hrest.stops hread

theorem IsOperand.isAddend {row : List Atom} {e : Expr} (h : IsOperand c row e) : IsAddend c row e :=
  ⟨h.toBegins, h.node, fun closers rest hclosers hrest _ => h.read closers rest hclosers hrest⟩

theorem IsAddend.primary {row : List Atom} {e : Expr} (h : IsAddend c row e) {closers : List Closer}
    (hclosers : InParentheses closers) {rest : List Atom} (hrest : Border c closers rest) (hdot : Undotted rest) :
    Grammar.primary c closers (row ++ rest) = .ok ⟨rest, e⟩ := by
  obtain ⟨a, more, rfl, hread⟩ := h.read closers rest hclosers hrest.toTrailing hdot
  rw [Grammar.marks_quiet hrest.stops.toQuiet] at hread
  exact Grammar.primary_operand hclosers h.type_ne h.node hrest.stops hread

theorem IsPrimary.isChain {row : List Atom} {e : Expr} (h : IsPrimary c row e) : IsChain c row e [] :=
  ⟨⟨row, (List.append_nil row).symm, h⟩, fun _ h => by cases h⟩

theorem Link.rows_append (tail : List Atom) : ∀ links more : List Link,
    Link.rows tail (links ++ more) = Link.rows (Link.rows tail more) links
  | [], _ => rfl
  | link :: links, more => by rw [List.cons_append, Link.rows, Link.rows, Link.rows_append tail links more]

theorem Link.rows_tail (tail : List Atom) : ∀ links : List Link, Link.rows tail links = Link.rows [] links ++ tail
  | [] => rfl
  | link :: links => by
    rw [Link.rows, Link.rows, Link.rows_tail tail links, List.cons_append, List.append_assoc]

/-- Two chains with an operator between them are one. -/
theorem IsChain.append {row row' : List Atom} {first first' : Expr} {links links' : List Link}
    (h : IsChain c row first links) (o : OperatorAtom c) (h' : IsChain c row' first' links') :
    ∃ start, IsChain c (row ++ o.atom :: row') first (links ++ ⟨o.atom, start, o.name, o.precedence, first'⟩ :: links') := by
  obtain ⟨⟨start, rfl, hfirst⟩, hlinks⟩ := h
  obtain ⟨⟨start', rfl, hfirst'⟩, hlinks'⟩ := h'
  refine ⟨start', ⟨start, ?_, hfirst⟩, fun link hl => ?_⟩
  · rw [Link.rows_append, Link.rows, Link.rows_tail (o.atom :: _), List.append_assoc]
  · rcases List.mem_append.mp hl with hl | hl
    · exact hlinks link hl
    · rcases List.mem_cons.mp hl with rfl | hl
      · exact ⟨o, rfl, rfl, rfl, hfirst'⟩
      · exact hlinks' link hl

theorem Link.worded_rows {tail : List Atom} (htail : ∀ a ∈ tail, a.Worded) : ∀ {links : List Link},
    (∀ link ∈ links, link.IsSound c) → ∀ a ∈ Link.rows tail links, a.Worded
  | [], _ => htail
  | link :: links, h => by
    obtain ⟨o, hatom, -, -, hprimary⟩ := h link List.mem_cons_self
    intro a ha
    rcases List.mem_cons.mp ha with rfl | ha
    · rw [hatom]
      exact o.plain.worded
    · rcases List.mem_append.mp ha with ha | ha
      · exact hprimary.worded a ha
      · exact Link.worded_rows htail (fun k hk => h k (List.mem_cons_of_mem _ hk)) a ha

theorem IsChain.begins {row : List Atom} {first : Expr} {links : List Link} (h : IsChain c row first links) :
    Begins row := by
  obtain ⟨⟨start, rfl, hfirst⟩, hlinks⟩ := h
  exact hfirst.toBegins.append (Link.worded_rows (fun _ h => by cases h) hlinks)

/-- A chain ends in front of what no operator is, and where a primary may end. -/
theorem IsChain.chainEnd {closers : List Closer} (hclosers : InParentheses closers) {tail : List Atom}
    (htail : Border c closers tail) (hop : operator? c tail = .ok none) {links : List Link}
    (hlinks : ∀ link ∈ links, link.IsSound c) : ChainEnd c (Border c closers) links tail := by
  refine ⟨hop, fun more hmore => ?_⟩
  have hsound : ∀ link ∈ more, link.IsSound c := fun link hl => hlinks link (hmore.subset hl)
  cases more with
  | nil => exact htail
  | cons link more =>
    obtain ⟨o, hatom, -, -, hprimary⟩ := hsound link List.mem_cons_self
    rw [Link.rows, hatom]
    refine o.border hclosers fun a ha => ?_
    rcases List.mem_append.mp ha with ha | ha
    · exact hprimary.worded a ha
    · exact Link.worded_rows htail.worded (fun k hk => hsound k (List.mem_cons_of_mem _ hk)) a ha

/-- A chain has a tree. -/
theorem IsChain.arranged {row : List Atom} {first : Expr} {links : List Link} (h : IsChain c row first links) :
    ∃ e, Arranges first links e ∧ e.isMissing = false := by
  obtain ⟨⟨start, -, hfirst⟩, hlinks⟩ := h
  have hclosers : InParentheses [] := fun _ h => by cases h
  obtain ⟨e, -, harranged⟩ := @expression_chain _ _ _ first _ _ _
    (fun link hl => (hlinks link hl).reads hclosers) (IsChain.chainEnd hclosers (.nil []) rfl hlinks)
    fun link hl => (hlinks link hl).nonneg
  refine ⟨e, harranged, ?_⟩
  cases harranged with
  | leaf => exact hfirst.node
  | node => rfl

/-- **A chain is read as the tree of its operators**, up to where it ends. -/
theorem IsChain.expression {row : List Atom} {first e : Expr} {links : List Link} (h : IsChain c row first links)
    (harranged : Arranges first links e) {closers : List Closer} (hclosers : InParentheses closers) {tail : List Atom}
    (htail : Border c closers tail) (hop : operator? c tail = .ok none) :
    (do
      let start ← Grammar.primary c closers (row ++ tail)
      Grammar.expression c closers 0 start.expr start.rest) = .ok ⟨tail, e⟩ := by
  obtain ⟨⟨start, rfl, hfirst⟩, hlinks⟩ := h
  have hend := IsChain.chainEnd hclosers htail hop hlinks
  obtain ⟨e', he, harranged'⟩ := @expression_chain _ _ _ first _ _ _ (fun link hl => (hlinks link hl).reads hclosers) hend
    fun link hl => (hlinks link hl).nonneg
  rw [List.append_assoc, ← Link.rows_tail, hfirst.read closers _ hclosers (hend.rows _ List.suffix_rfl),
    harranged.unique harranged']
  exact he

theorem IsChain.isExpression {row : List Atom} {first e : Expr} {links : List Link} (h : IsChain c row first links)
    (harranged : Arranges first links e) : IsExpression c row e :=
  ⟨h.begins, fun _ _ hclosers htail hop => h.expression harranged hclosers htail.toBorder hop⟩

theorem Undotted.nil : Undotted [] := fun _ _ h => by cases h

theorem undotted_cons {a : Atom} {t : String} (ha : a.text = .ok (.text t)) (ht : t ≠ "\\cdot" ∧ t ≠ "\\times")
    (rest : List Atom) : Undotted (a :: rest) := by
  rintro _ u ⟨⟩ hu
  rw [ha] at hu
  rwa [← Datum.text.inj (Except.ok.inj hu)]

theorem IsExpression.isInner {row : List Atom} {e : Expr} (h : IsExpression c row e) : IsInner c row e :=
  ⟨h.toBegins, fun closers tail hclosers htail _ hop => h.read closers tail hclosers htail hop⟩

/-- A sequence that is one expression up to its end. -/
theorem Grammar.whole_expression {row : List Atom} {e : Expr} (h : (do
      let start ← Grammar.primary c [] (unspaced row)
      Grammar.expression c [] 0 start.expr start.rest) = .ok ⟨[], e⟩) : Grammar.whole c row = .ok e := by
  have hsequence : Grammar.sequence c [] (unspaced row) = .ok ⟨[], e⟩ := by
    rw [Grammar.sequence_eq, ← bind_assoc, h]
    exact Grammar.stray_nil c [] e
  rw [Grammar.whole_eq, hsequence]
  rfl

/-- **A row that is an expression without its spaces is read as a whole.** -/
theorem IsInner.isWhole {row : List Atom} {e : Expr} (h : IsInner c (unspaced row) e) : IsWhole c row e := by
  have he := h.read [] [] (fun _ h => by cases h) (.nil []) .nil rfl
  have hne : row ≠ [] := by
    rintro rfl
    obtain ⟨a, rest, hrow, -⟩ := h.head
    cases hrow
  rw [List.append_nil] at he
  exact ⟨hne, Grammar.whole_expression he⟩

theorem IsChain.isWhole {row : List Atom} {first e : Expr} {links : List Link} (h : IsChain c (unspaced row) first links)
    (harranged : Arranges first links e) : IsWhole c row e := (h.isExpression harranged).isInner.isWhole

theorem IsPrimary.isWhole {row : List Atom} {e : Expr} (h : IsPrimary c (unspaced row) e) : IsWhole c row e :=
  h.isChain.isWhole (.leaf e)

/-! ### An operator that repeats -/

/-- The operands with one operator between them, put together from left to right. -/
def Expr.joined (op : Datum) : List Expr → Expr
  | [] => missing
  | e :: es => es.foldl (between op) e

/-- The rest of a row in which one operator stands in front of every operand: the operands and the atoms, of which `tail`
comes last. -/
inductive Repeats (o : OperatorAtom c) (closers : List Closer) (tail : List Atom) : List Expr → List Atom → Prop
  | nil : Repeats o closers tail [] tail
  | cons {e : Expr} {es : List Expr} {row rest : List Atom} : Grammar.primary c closers row = .ok ⟨rest, e⟩ →
    Repeats o closers tail es rest → Repeats o closers tail (e :: es) (o.atom :: row)

/-- **An operator that repeats is applied from left to right.** -/
theorem Repeats.expression {o : OperatorAtom c} {closers : List Closer} {tail rest : List Atom} {es : List Expr}
    (h : Repeats o closers tail es rest) (hop : operator? c tail = .ok none) (left : Expr) :
    Grammar.expression c closers 0 left rest = .ok ⟨tail, joined o.name (left :: es)⟩ := by
  induction h generalizing left with
  | nil =>
    cases tail with
    | nil => exact Grammar.expression_nil c closers 0 left
    | cons a rest =>
      have hnone : a.precedence c = .ok none := hop
      rw [Grammar.expression_cons, hnone]
      rfl
  | @cons e es row rest hprimary hrest ih =>
    -- the operator behind the operand binds no tighter
    have htighter : Grammar.tighter c closers o.precedence e rest = .ok ⟨rest, e⟩ := by
      rw [Grammar.tighter_eq]
      cases hrest with
      | nil =>
        rw [hop]
        rfl
      | cons =>
        show (o.atom.precedence c >>= _) = _
        rw [o.precedence_eq]
        show (if o.precedence ≤ o.precedence then _ else _) = _
        rw [if_pos (Int.le_refl _)]
        rfl
    rw [Grammar.expression_cons, o.precedence_eq]
    show (if o.precedence < 0 then _ else _) = _
    rw [if_neg (Int.not_lt.mpr o.nonneg), o.name_eq, hprimary]
    show (Grammar.tighter c closers o.precedence e rest >>= _) = _
    rw [htighter]
    exact ih _

end Formula
