import Formula.Proofs.Reader.Twins

/-!
# Reading twins

`ReadsAlike` says of a reader with some fuel that it reads a row as the reader without fuel reads a twin of it: the
expressions are the same and what is left of the rows are twins, function by function.  One more unit of fuel keeps this;
there is one lemma for every function, which goes along its text.

The two sides part at an operand whose scripts stand on a placeholder in one of the rows.  There the one side attaches the
scripts of the operand and goes on behind it, where the other finds none on the operand and takes those of the placeholder.
-/

namespace Formula

open Atom Expr Outcome

namespace Twins

variable {F : Fault → Prop}

/-! ### What is alike -/

/-- The same expression, and twins behind it. -/
def SameReading (F : Fault → Prop) (c : Catalog) (x y : Reading) : Prop := x.expr = y.expr ∧ Twins F c x.rest y.rest

/-- Readings that are the same, if there is one at all. -/
inductive SameFound (F : Fault → Prop) (c : Catalog) : Option Reading → Option Reading → Prop
  | none : SameFound F c none none
  | some {x y : Reading} : SameReading F c x y → SameFound F c (some x) (some y)

/-- With the fuel, the reader reads a row as it reads a twin of it. -/
structure ReadsAlike (F : Fault → Prop) (c : Catalog) (fuel : Nat) : Prop where
  whole : ∀ {l r}, Loose F c l r → Agree F Eq (ofSequence c fuel l) (Grammar.whole c r)
  nested : ∀ {l r : Option (List Atom)}, Loose F c (l.getD []) (r.getD []) →
    Agree F Eq (ofNested c fuel l) (Grammar.nested c r)
  parts : ∀ {l r}, List.Forall₂ (Loose F c) l r → Agree F Eq (ofParts c fuel l) (Grammar.parts c r)
  atom : ∀ {a a'}, Akin a a' → Agree F Eq (ofAtom c fuel a) (Grammar.atom c a')
  sequence : ∀ {closers l r}, Twins F c l r →
    Agree F (SameReading F c) (readSequence c fuel closers l) (Grammar.sequence c closers r)
  stray : ∀ {closers e l r}, Twins F c l r →
    Agree F (SameReading F c) (readStray c fuel closers e l) (Grammar.stray c closers e r)
  expression : ∀ {closers least e l r}, Twins F c l r →
    Agree F (SameReading F c) (readExpression c fuel closers least e l) (Grammar.expression c closers least e r)
  tighter : ∀ {closers precedence e l r}, Twins F c l r →
    Agree F (SameReading F c) (readTighter c fuel closers precedence e l) (Grammar.tighter c closers precedence e r)
  primary : ∀ {closers l r}, Twins F c l r →
    Agree F (SameReading F c) (readPrimary c fuel closers l) (Grammar.primary c closers r)
  operand : ∀ {closers a l a' r}, Ahead F c a l a' r →
    Agree F (SameReading F c) (readOperand c fuel closers a l) (Grammar.operand c closers a' r)
  symbol : ∀ {a l a' r}, Ahead F c a l a' r → (a.type ≠ .ordinary → Twins F c l r) →
    Agree F (SameReading F c) (readSymbol c fuel a l) (Grammar.symbol c a' r)
  marked : ∀ {a l a' r}, Ahead F c a l a' r →
    Agree F (SameReading F c) (readMarked c fuel a l) (Grammar.marked c a' r)
  number : ∀ {a l a' r}, Ahead F c a l a' r → a'.isPlaceholder = false → Expr.startsNumber (a' :: r) = .ok true →
    Agree F (SameReading F c) (readNumber c fuel a l) (Grammar.number c a' r)
  mixed : ∀ {literal x y}, SameNumeral F c x y → literalOf y.chars = .ok literal →
    Agree F (SameFound F c) (readMixed c fuel literal x) (Grammar.mixed c literal y)
  function : ∀ {closers a l a' r}, Ahead F c a l a' r → a'.isFunction c = .ok true →
    Agree F (SameReading F c) (readFunction c fuel closers a l) (Grammar.function c closers a' r)
  fence : ∀ {closers a l a' r}, Ahead F c a l a' r → (a.type ≠ .fenced → Twins F c l r) →
    Agree F (SameReading F c) (readFence c fuel closers a l) (Grammar.fence c closers a' r)
  closing : ∀ {a : Atom} {left closer inner l r}, a.opener? = .ok (some (left, closer)) → Twins F c l r →
    Agree F (SameReading F c) (readClosing c fuel left closer inner l) (Grammar.closing c left closer inner r)
  scripts : ∀ {own own' e l r}, Owner F c own l own' r →
    Agree F (SameReading F c) (readScripts c fuel own e l) (Grammar.scripts c own' e r)
  attached : ∀ {a a' e}, SameScripts a a' → Agree F Eq (attachScripts c fuel a e) (Grammar.attached c a' e)
  marks : ∀ {e l r}, Twins F c l r → Agree F (SameReading F c) (readPostfix c fuel e l) (Grammar.marks c e r)
  neighbours : ∀ {closers e l r}, Twins F c l r →
    Agree F (SameReading F c) (readNeighbours c fuel closers e l) (Grammar.neighbours c closers e r)
  application : ∀ {e l r}, Twins F c l r →
    Agree F (SameFound F c) (readCall c fuel e l) (Grammar.application c e r)

variable {c : Catalog} {fuel : Nat} {a a' : Atom} {l r : List Atom} {closers : List Closer} {e : Expr}

section

variable (ih : ReadsAlike F c fuel)
include ih

/-! ### Nested rows and atoms -/

theorem reads_whole (h : Loose F c l r) : Agree F Eq (ofSequence c (fuel + 1) l) (Grammar.whole c r) := by
  rw [Grammar.whole_eq]
  simp only [Expr.ofSequence]
  exact Agree.bind (ih.sequence h) fun x y _ _ hxy => hxy.1

theorem reads_nested {l r : Option (List Atom)} (h : Loose F c (l.getD []) (r.getD [])) :
    Agree F Eq (ofNested c (fuel + 1) l) (Grammar.nested c r) := by
  have empty : ∀ {row : List Atom}, Loose F c [] row → unspaced row = [] := fun hrow => Twins.eq_nil hrow
  rw [Grammar.nested_eq]
  rcases l with _ | _ | ⟨a, rest⟩
  · rw [Grammar.whole_spaces (empty h)]
    exact rfl
  · rw [Grammar.whole_spaces (empty h)]
    exact rfl
  · exact ih.whole h

theorem reads_parts {l r : List (List Atom)} (h : List.Forall₂ (Loose F c) l r) :
    Agree F Eq (ofParts c (fuel + 1) l) (Grammar.parts c r) := by
  cases h with
  | nil =>
    rw [Grammar.parts_nil]
    exact rfl
  | cons hpart hrest =>
    rw [Grammar.parts_cons]
    simp only [ofParts]
    refine Agree.bind (ih.nested hpart) fun e e' _ _ he => ?_
    refine Agree.bind (ih.parts hrest) fun items items' _ _ hitems => ?_
    rw [he, hitems]
    exact rfl

theorem reads_atom (h : Akin a a') : Agree F Eq (ofAtom c (fuel + 1) a) (Grammar.atom c a') := by
  rw [Grammar.atom_eq]
  simp only [ofAtom]
  rw [h.type, h.inFont_eq, h.asText_eq, h.symbol_eq]
  cases a'.type with
  | fraction =>
    refine Agree.bind (ih.whole h.numerator.loose) fun numerator _ _ _ hn => ?_
    refine Agree.bind (ih.whole h.denominator.loose) fun denominator _ _ _ hd => ?_
    rw [hn, hd]
    exact rfl
  | radical =>
    refine Agree.bind (ih.whole h.body.loose) fun radicand _ _ _ hr => ?_
    refine Agree.bind (ih.whole h.index.loose) fun index _ _ _ hi => ?_
    rw [hr, hi]
    exact .refl (fun _ => rfl) _
  | _ => exact .refl (fun _ => rfl) _

theorem reads_attached (h : SameScripts a a') : Agree F Eq (attachScripts c (fuel + 1) a e) (Grammar.attached c a' e) := by
  rw [Grammar.attached_eq]
  simp only [attachScripts]
  refine Agree.bind (ih.nested h.superscript.loose) fun sup _ _ _ hsup => ?_
  refine Agree.bind (ih.nested h.subscript.loose) fun sub _ _ _ hsub => ?_
  rw [hsup, hsub]
  exact rfl

/-! ### Scripts and marks -/

/-- Behind scripts of its own come those of placeholders. -/
theorem reads_placeholders (e : Expr) (h : Twins F c l r) :
    Agree F (SameReading F c) (readScripts c (fuel + 1) none e l) (Grammar.placeholders c e r) := by
  simp only [readScripts, pure_bind]
  cases h.view with
  | nil => exact ⟨rfl, h⟩
  | cons ha =>
    cases ha with
    | same hakin hscripts ht hclear hl =>
      dsimp only
      rw [Grammar.placeholders, hakin.isPlaceholder_eq, hscripts.hasScripts]
      exact .choice (fun _ => ih.scripts (.some (.same hakin hscripts ht hclear hl))) fun _ => ⟨rfl, h⟩
    | split hsplit =>
      dsimp only
      rw [Grammar.placeholders, ← hsplit.akin.isPlaceholder_eq, hsplit.takes.isPlaceholder]
      exact ⟨rfl, h⟩

theorem reads_scripts {own own' : Option Atom} (h : Owner F c own l own' r) :
    Agree F (SameReading F c) (readScripts c (fuel + 1) own e l) (Grammar.scripts c own' e r) := by
  cases h with
  | none h =>
    rw [Grammar.scripts_none]
    exact reads_placeholders ih e h
  | some ha =>
    cases ha with
    | same hakin hscripts ht hclear hl =>
      have hbehind := fun e' => reads_placeholders ih e' hl
      rw [Grammar.scripts_some]
      simp only [readScripts, pure_bind] at hbehind ⊢
      rw [hscripts.hasScripts]
      refine .choice (fun _ => ?_) fun _ => hbehind e
      exact Agree.bind (ih.attached hscripts) fun e' _ _ _ he => he ▸ hbehind e'
    | @split _ p _ r hsplit hl =>
      have hbearer : (p.isPlaceholder && p.hasScripts) = true := by
        rw [hsplit.bearer.isPlaceholder, ← hsplit.scripts.hasScripts, hsplit.scripted]
        rfl
      rw [Grammar.scripts_some, hsplit.bare, if_neg Bool.false_ne_true, Grammar.placeholders, if_pos hbearer,
        Grammar.scripts_some, ← hsplit.scripts.hasScripts, hsplit.scripted, if_pos rfl]
      have hbehind := fun e' => reads_placeholders ih e' hl
      simp only [readScripts, pure_bind] at hbehind ⊢
      rw [hsplit.scripted, if_pos rfl]
      exact Agree.bind (ih.attached hsplit.scripts) fun e' _ _ _ he => he ▸ hbehind e'

/-- Scripts and marks behind an expression. -/
theorem reads_behind {own own' : Option Atom} (h : Owner F c own l own' r) : Agree F (SameReading F c)
    (do
      let read ← readScripts c fuel own e l
      readPostfix c fuel read.expr read.rest)
    (do
      let read ← Grammar.scripts c own' e r
      Grammar.marks c read.expr read.rest) :=
  Agree.bind (ih.scripts h) fun _ _ _ _ hxy => hxy.1 ▸ ih.marks hxy.2

theorem reads_marks (h : Twins F c l r) :
    Agree F (SameReading F c) (readPostfix c (fuel + 1) e l) (Grammar.marks c e r) := by
  cases h.view with
  | nil =>
    rw [Grammar.marks_nil]
    simp only [readPostfix]
    exact ⟨rfl, h⟩
  | cons ha =>
    rw [Grammar.marks_cons]
    simp only [readPostfix]
    refine Agree.bind (ha.digraph _) fun found _ _ hfound heq => ?_
    subst heq
    cases found with
    | some name =>
      obtain ⟨b, l, b', r, rfl, rfl, hb, -⟩ := ha.of_digraph hfound
      exact reads_behind ih (.some hb)
    | none =>
      dsimp only
      rw [ha.akin.postfixFunction_eq]
      refine .ask fun mark _ => ?_
      cases mark with
      | none => exact ⟨rfl, h⟩
      | some name => exact reads_behind ih (.some ha)

/-! ### Operands of one atom -/

theorem reads_marked (h : Ahead F c a l a' r) :
    Agree F (SameReading F c) (readMarked c (fuel + 1) a l) (Grammar.marked c a' r) := by
  rw [Grammar.marked_eq]
  simp only [readMarked]
  exact Agree.bind (ih.atom h.akin) fun e _ _ _ he => he ▸ reads_behind ih (.some h)

theorem reads_symbol (h : Ahead F c a l a' r) (htail : a.type ≠ .ordinary → Twins F c l r) :
    Agree F (SameReading F c) (readSymbol c (fuel + 1) a l) (Grammar.symbol c a' r) := by
  rw [Grammar.symbol_eq]
  simp only [readSymbol]
  rw [h.akin.precedence_eq, ← h.akin.type, h.akin.unexpected_eq]
  refine .ask fun precedence _ => ?_
  cases precedence with
  | some p => exact ⟨rfl, h.twins⟩
  | none =>
    refine .choice (fun _ => ih.marked h) fun ht => .ask fun e _ => ⟨rfl, htail fun hordinary => ht (.inl hordinary)⟩

/-! ### Numbers -/

theorem reads_mixed {literal : Expr} {x y : NumeralReading} (h : SameNumeral F c x y)
    (hliteral : literalOf y.chars = .ok literal) :
    Agree F (SameFound F c) (readMixed c (fuel + 1) literal x) (Grammar.mixed c literal y) := by
  obtain ⟨chars, last, l⟩ := x
  obtain ⟨chars', last', r⟩ := y
  obtain ⟨-, howner⟩ := h
  -- Behind a last atom with its own scripts, if it has any, the rows go on as twins.
  have on : (last.map hasScripts).getD false = (last'.map hasScripts).getD false → Twins F c l r →
      Agree F (SameFound F c) (readMixed c (fuel + 1) literal ⟨chars, last, l⟩)
        (Grammar.mixed c literal ⟨chars', last', r⟩) := by
    intro hscripts h
    cases h.view with
    | nil =>
      rw [Grammar.mixed_nil c literal rfl]
      exact .none
    | @cons a a' l r ha =>
      rw [Grammar.mixed_cons c rfl hliteral]
      simp only [readMixed]
      rw [hscripts, ha.akin.type]
      refine .choice (fun _ => ?_) fun _ => .none
      refine Agree.bind (ih.atom ha.akin) fun fraction _ _ _ heq => ?_
      subst heq
      refine .ask fun found _ => ?_
      cases found with
      | none => exact .none
      | some _ =>
        refine Agree.bind (ih.scripts (.some ha)) fun x y _ _ hxy => ?_
        rw [hxy.1]
        refine Agree.bind (ih.marks hxy.2) fun x y _ _ hxy => ?_
        exact .some ⟨congrArg (between "+" literal) hxy.1, hxy.2⟩
  cases howner with
  | none h => exact on rfl h
  | @some b _ _ _ ha =>
    cases ha with
    | same _ hscripts _ _ hl => exact on (congrArg (fun b => (some b).getD false) hscripts.hasScripts) hl
    | split hsplit hl =>
      -- A mixed number ends at the scripts, and at the placeholder.
      have hleft : readMixed c (fuel + 1) literal ⟨chars, some b, l⟩ = .ok none := by
        cases l with
        | nil => rfl
        | cons a l =>
          have hscripted : ((some b).map hasScripts).getD false = true := hsplit.scripted
          simp only [readMixed]
          rw [hscripted, if_neg (by simp)]
      rw [hleft, Grammar.mixed_cons c rfl hliteral, if_neg (by rw [hsplit.bearer.type]; simp)]
      exact .none

theorem reads_number (h : Ahead F c a l a' r) (hp : a'.isPlaceholder = false)
    (hs : Expr.startsNumber (a' :: r) = .ok true) :
    Agree F (SameReading F c) (readNumber c (fuel + 1) a l) (Grammar.number c a' r) := by
  rw [Grammar.number_eq c hp hs]
  simp only [readNumber]
  refine Agree.bind h.twins.scanNumeral fun x y _ _ hxy => ?_
  rw [hxy.1]
  refine .choice (fun _ => ih.marked h) fun _ => .ask fun literal hliteral => ?_
  refine Agree.bind (ih.mixed hxy hliteral) fun found found' _ _ hfound => ?_
  cases hfound with
  | none => exact reads_behind ih hxy.2
  | some hread => exact hread

/-! ### Functions and calls -/

theorem reads_function (h : Ahead F c a l a' r) (hf : a'.isFunction c = .ok true) :
    Agree F (SameReading F c) (readFunction c (fuel + 1) closers a l) (Grammar.function c closers a' r) := by
  rw [Grammar.function_eq c _ _ hf]
  simp only [readFunction]
  rw [h.akin.name_eq]
  refine .ask fun name _ => ?_
  refine Agree.bind (ih.scripts (.some h)) fun head head' _ _ hhead => ?_
  refine Agree.bind (ih.primary hhead.2) fun x y _ _ hxy => ?_
  rw [hhead.1, hxy.1]
  cases head'.expr with
  | call name argument fence s t => exact .ask fun e _ => ⟨rfl, hxy.2⟩
  | _ => exact ⟨rfl, hxy.2⟩

theorem reads_application (h : Twins F c l r) :
    Agree F (SameFound F c) (readCall c (fuel + 1) e l) (Grammar.application c e r) := by
  rw [Grammar.application_eq]
  simp only [readCall]
  refine .ask fun is _ => .choice (fun _ => ?_) fun _ => .none
  refine Agree.bind h.callArguments fun cut cut' _ _ hcut => ?_
  cases hcut with
  | none => exact .none
  | some hinner hlast =>
    cases e with
    | symbol name variant s t =>
      refine Agree.bind hinner.commas fun ps qs _ _ hparts => ?_
      refine Agree.bind (ih.parts hparts) fun items _ _ _ heq => ?_
      subst heq
      refine Agree.bind (ih.scripts (.some hlast)) fun x y _ _ hxy => ?_
      rw [hxy.1]
      exact Agree.bind (ih.marks hxy.2) fun x y _ _ hxy => .some hxy
    | _ => exact .none

/-! ### Fences -/

theorem reads_closing {left : Datum} {closer : Closer} {inner : Expr} (ha : a.opener? = .ok (some (left, closer)))
    (h : Twins F c l r) :
    Agree F (SameReading F c) (readClosing c (fuel + 1) left closer inner l) (Grammar.closing c left closer inner r) := by
  have unclosed : ∀ {l r : List Atom}, Twins F c l r → Agree F (SameReading F c)
      (do readScripts c fuel none (← delimited left (.text (closer.glyph.getD "")) inner) l)
      (do Grammar.scripts c none (← delimited left (.text (closer.glyph.getD "")) inner) r) :=
    fun h => .ask fun e _ => ih.scripts (.none h)
  cases h.view with
  | nil =>
    rw [Grammar.closing_nil c ha]
    simp only [readClosing]
    exact unclosed h
  | cons hb =>
    rw [Grammar.closing_cons c ha]
    simp only [readClosing]
    rw [hb.akin.closes_eq, hb.akin.glyph_eq]
    refine .ask fun closed _ => .choice (fun _ => ?_) fun _ => unclosed h
    exact .ask fun glyph _ => .ask fun e _ => ih.scripts (.some hb)

theorem reads_fence (h : Ahead F c a l a' r) (htail : a.type ≠ .fenced → Twins F c l r) :
    Agree F (SameReading F c) (readFence c (fuel + 1) closers a l) (Grammar.fence c closers a' r) := by
  rw [Grammar.fence_eq]
  simp only [readFence]
  rw [← h.akin.type, ← h.akin.leftDelim, ← h.akin.rightDelim, ← h.akin.opener_eq]
  refine .choice (fun _ => ?_) fun hfenced => .ask fun opened hopened => ?_
  · refine Agree.bind (ih.nested h.akin.body.loose) fun inner _ _ _ heq => ?_
    subst heq
    exact .ask fun e _ => reads_behind ih (.some h)
  · cases opened with
    | none => exact ih.symbol h fun _ => htail hfenced
    | some opened =>
      obtain ⟨left, closer⟩ := opened
      refine Agree.bind (ih.sequence (htail hfenced)) fun x y _ _ hxy => ?_
      rw [hxy.1]
      exact Agree.bind (ih.closing hopened hxy.2) fun x y _ _ hxy => hxy.1 ▸ ih.marks hxy.2

/-! ### Operands -/

theorem reads_operand (h : Ahead F c a l a' r) :
    Agree F (SameReading F c) (readOperand c (fuel + 1) closers a l) (Grammar.operand c closers a' r) := by
  -- An atom of a type that takes no scripts is the same on both sides, with twins behind it.
  have tail : a.type ∉ [.fraction, .radical, .font, .text, .fenced, .operator, .ordinary] → Twins F c l r := h.tail
  have function : (a.isFunction c = .ok false → a.type ≠ .ordinary → Twins F c l r) → Agree F (SameReading F c)
      (do if ← a'.isFunction c then readFunction c fuel closers a l else readSymbol c fuel a l)
      (do if ← a'.isFunction c then Grammar.function c closers a' r else Grammar.symbol c a' r) := by
    intro htail
    refine .ask fun is his => .choice (fun hf => ?_) fun hf => ?_
    · subst hf
      exact ih.function h his
    · obtain rfl : is = false := by simpa using hf
      exact ih.symbol h (htail (by rw [h.akin.isFunction_eq, his]))
  rw [Grammar.operand_eq]
  simp only [readOperand]
  refine Agree.bind (h.digraph _) fun found _ _ hfound heq => ?_
  subst heq
  cases found with
  | some name =>
    obtain ⟨b, l, b', r, rfl, rfl, -, hbehind⟩ := h.of_digraph hfound
    exact Agree.bind (ih.primary (hbehind rfl)) fun x y _ _ hxy => ⟨congrArg (apply name) hxy.1, hxy.2⟩
  | none =>
    dsimp only
    rw [h.akin.sign_eq]
    refine .ask fun sign hsign => ?_
    cases sign with
    | some sign =>
      have ht : a.type = .binary := h.akin.type.trans (type_of_sign? hsign)
      have htail := tail (by rw [ht]; decide)
      exact Agree.bind (ih.primary htail) fun x y _ _ hxy => ⟨congrArg (withSign sign) hxy.1, hxy.2⟩
    | none =>
      dsimp only
      rw [h.akin.isPlaceholder_eq, h.startsNumber_eq]
      refine .choice (fun _ => ih.scripts (.some h)) fun hp => ?_
      refine .ask fun starts hstarts => .choice (fun hs => ?_) fun _ => ?_
      · subst hs
        exact ih.number h (by simpa using hp) hstarts
      rw [h.akin.isFunction_eq, h.akin.opener_eq, ← h.akin.type]
      cases ht : a.type with
      | fraction => exact ih.marked h
      | radical => exact ih.marked h
      | font => exact ih.marked h
      | text => exact ih.marked h
      | fenced => exact ih.fence h fun hne => absurd ht hne
      | opening => exact ih.fence h fun _ => tail (by rw [ht]; decide)
      | sized => exact ih.fence h fun _ => tail (by rw [ht]; decide)
      | operator =>
        refine function fun hf _ => ?_
        cases h with
        | same _ _ _ _ hl => exact hl
        | split hsplit => exact absurd ht (hsplit.takes.type_ne_operator hf)
      | ordinary => exact function fun _ hne => absurd ht hne
      | textual =>
        have htail := tail (by rw [ht]; decide)
        refine .ask fun is his => .choice (fun hf => ?_) fun _ => .ask fun opened _ => ?_
        · subst hf
          exact ih.function h his
        · cases opened with
          | some _ => exact ih.fence h fun _ => htail
          | none => exact ih.symbol h fun _ => htail
      | _ => exact ih.symbol h fun _ => tail (by rw [ht]; decide)

/-! ### Neighbours and primaries -/

theorem reads_neighbours (h : Twins F c l r) :
    Agree F (SameReading F c) (readNeighbours c (fuel + 1) closers e l) (Grammar.neighbours c closers e r) := by
  cases h.view with
  | nil =>
    rw [Grammar.neighbours_nil]
    simp only [readNeighbours]
    exact ⟨rfl, h⟩
  | cons ha =>
    rw [Grammar.neighbours_cons]
    simp only [readNeighbours]
    rw [ha.akin.startsOperand_eq]
    refine .ask fun starts _ => .choice (fun _ => ?_) fun _ => ⟨rfl, h⟩
    refine Agree.bind (ih.application h) fun found found' _ _ hfound => ?_
    cases hfound with
    | some hread =>
      dsimp only
      rw [hread.1]
      exact ih.neighbours hread.2
    | none =>
      refine Agree.bind (ih.operand ha) fun x y hx hy hxy => ?_
      rw [ReadsOperand.test ((Forward.all c fuel).operand hx), ReadsOperand.test ((Forward.all c _).operand hy), hxy.1]
      exact .choice (fun _ => ⟨rfl, hxy.2⟩) fun _ => ih.neighbours hxy.2

theorem reads_primary (h : Twins F c l r) :
    Agree F (SameReading F c) (readPrimary c (fuel + 1) closers l) (Grammar.primary c closers r) := by
  cases h.view with
  | nil =>
    rw [Grammar.primary_nil]
    simp only [readPrimary]
    exact ⟨rfl, h⟩
  | cons ha =>
    rw [Grammar.primary_cons]
    simp only [readPrimary]
    rw [ha.akin.closesAny_eq]
    refine .ask fun closed _ => .choice (fun _ => ⟨rfl, h⟩) fun _ => ?_
    refine Agree.bind (ih.operand ha) fun x y _ _ hxy => ?_
    rw [hxy.1]
    exact .choice (fun _ => hxy) fun _ => ih.neighbours hxy.2

/-! ### Operators and sequences -/

theorem reads_expression {least : Int} (h : Twins F c l r) :
    Agree F (SameReading F c) (readExpression c (fuel + 1) closers least e l)
      (Grammar.expression c closers least e r) := by
  cases h.view with
  | nil =>
    rw [Grammar.expression_nil]
    simp only [readExpression]
    exact ⟨rfl, h⟩
  | cons ha =>
    rw [Grammar.expression_cons]
    simp only [readExpression]
    rw [ha.akin.precedence_eq, ha.akin.name_eq]
    refine .ask fun precedence hprecedence => ?_
    cases precedence with
    | none => exact ⟨rfl, h⟩
    | some p =>
      refine .choice (fun _ => ⟨rfl, h⟩) fun _ => .ask fun op _ => ?_
      have htail := ha.tail_of_operator hprecedence
      refine Agree.bind (ih.primary htail) fun x y _ _ hxy => ?_
      rw [hxy.1]
      refine Agree.bind (ih.tighter hxy.2) fun x y _ _ hxy => ?_
      rw [hxy.1]
      exact ih.expression hxy.2

theorem reads_tighter {precedence : Int} (h : Twins F c l r) :
    Agree F (SameReading F c) (readTighter c (fuel + 1) closers precedence e l)
      (Grammar.tighter c closers precedence e r) := by
  rw [Grammar.tighter_eq]
  simp only [readTighter]
  rw [h.operator_eq]
  refine .ask fun next _ => ?_
  cases next with
  | none => exact ⟨rfl, h⟩
  | some next =>
    refine .choice (fun _ => ⟨rfl, h⟩) fun _ => ?_
    exact Agree.bind (ih.expression h) fun x y _ _ hxy => hxy.1 ▸ ih.tighter hxy.2

theorem reads_sequence (h : Twins F c l r) :
    Agree F (SameReading F c) (readSequence c (fuel + 1) closers l) (Grammar.sequence c closers r) := by
  rw [Grammar.sequence_eq]
  simp only [readSequence]
  refine Agree.bind (ih.primary h) fun x y _ _ hxy => ?_
  rw [hxy.1]
  exact Agree.bind (ih.expression hxy.2) fun x y _ _ hxy => hxy.1 ▸ ih.stray hxy.2

theorem reads_stray (h : Twins F c l r) :
    Agree F (SameReading F c) (readStray c (fuel + 1) closers e l) (Grammar.stray c closers e r) := by
  cases h.view with
  | nil =>
    rw [Grammar.stray_nil]
    simp only [readStray]
    exact ⟨rfl, h⟩
  | @cons a a' l r ha =>
    rw [Grammar.stray_cons]
    simp only [readStray]
    rw [ha.akin.closesAny_eq]
    refine .ask fun closed hclosed => .choice (fun _ => ⟨rfl, h⟩) fun hopen => ?_
    have on : ∀ {x y : Reading}, SameReading F c x y → Agree F (SameReading F c)
        (do
          let read ← readExpression c fuel closers 0 x.expr x.rest
          readStray c fuel closers (juxtapose e read.expr) read.rest)
        (do
          let read ← Grammar.expression c closers 0 y.expr y.rest
          Grammar.stray c closers (juxtapose e read.expr) read.rest) := by
      intro x y hxy
      rw [hxy.1]
      refine Agree.bind (ih.expression hxy.2) fun x y _ _ hxy => ?_
      rw [hxy.1]
      exact ih.stray hxy.2
    refine Agree.bind (ih.primary h) fun x y hx hy hxy => ?_
    have hread := (Forward.all c _).primary hy
    by_cases hmissing : y.expr.isMissing = true
    · rw [if_pos ((ReadsPrimary.test ((Forward.all c fuel).primary hx)).mpr (hxy.1 ▸ hmissing)),
        if_pos (hread.test.mpr hmissing)]
      -- Nothing was read of an operator alone, which has the same scripts on both sides.
      have htail : Twins F c l r := by
        rcases hread with ⟨_, _, -, -, hfound⟩ | ⟨-, hstays⟩
        · rw [hmissing] at hfound
          cases hfound
        · rcases hstays a' rfl with hcloses | ⟨p, hp⟩
          · rw [hclosed] at hcloses
            exact absurd (Except.ok.inj hcloses) hopen
          · exact ha.tail_of_operator hp
      rw [ha.akin.unexpected_eq]
      have hfirst : Agree F (SameReading F c) (a'.unexpected.map fun u => (⟨l, u⟩ : Reading))
          (a'.unexpected.map fun u => (⟨r, u⟩ : Reading)) :=
        Agree.map (.refl (R := Eq) (fun _ => rfl) _) fun _ _ huv => ⟨huv, htail⟩
      exact Agree.bind hfirst fun _ _ _ _ hxy => on hxy
    · rw [if_neg fun hlength => hmissing (hxy.1 ▸ (ReadsPrimary.test ((Forward.all c fuel).primary hx)).mp hlength),
        if_neg fun hlength => hmissing (hread.test.mp hlength)]
      exact on hxy

end

/-! ### All functions -/

/-- One more unit of fuel keeps all functions alike. -/
theorem ReadsAlike.succ (ih : ReadsAlike F c fuel) : ReadsAlike F c (fuel + 1) where
  whole := reads_whole ih
  nested := reads_nested ih
  parts := reads_parts ih
  atom := reads_atom ih
  sequence := reads_sequence ih
  stray := reads_stray ih
  expression := reads_expression ih
  tighter := reads_tighter ih
  primary := reads_primary ih
  operand := reads_operand ih
  symbol := reads_symbol ih
  marked := reads_marked ih
  number := reads_number ih
  mixed := reads_mixed ih
  function := reads_function ih
  fence := reads_fence ih
  closing := reads_closing ih
  scripts := reads_scripts ih
  attached := reads_attached ih
  marks := reads_marks ih
  neighbours := reads_neighbours ih
  application := reads_application ih

/-- Without fuel both sides may be alike in any way. -/
theorem ReadsAlike.zero (hF : F .recursion) : ReadsAlike F c 0 := by
  constructor
  all_goals
    intros
    exact Agree.of_left hF _

theorem ReadsAlike.all (hF : F .recursion) : ∀ fuel, ReadsAlike F c fuel
  | 0 => .zero hF
  | fuel + 1 => (ReadsAlike.all hF fuel).succ

end Twins

/-- Rows that are twins but for spaces are read alike. -/
theorem Loose.ofAtoms {F : Fault → Prop} {c : Catalog} {l r : List Atom} (hF : F .recursion) (h : Loose F c l r) :
    Agree F Eq (ofAtoms c l) (ofAtoms c r) := by
  rw [ofAtoms_eq c r]
  exact (Twins.ReadsAlike.all hF _).whole h

end Formula
