import Formula.Proofs.Reader.FenceArguments

/-!
# Reading a fence in its two forms

`Alike` says of a reader with some fuel that it reads rows with a fence as two atoms as the reader without fuel reads the
same rows with the fence as one atom: the expressions are the same and the rows go on alike, function by function.  One
more unit of fuel keeps this; there is one lemma for every function, which goes along its text.  A question that both
sides ask has one answer, by the lemmas about `FencePair.Rows`.

The two sides part at the fence itself.  There one side reads on in the same row with one more fence open, and the other
reads the body as a row of its own; both end at the closing atom.
-/

namespace Formula

open Atom Expr Outcome

namespace FencePair

variable {F : Fault → Prop} (P : FencePair F)

/-! ### What is alike -/

/-- The same expression, and rows that go on alike. -/
def SameReading (m : Mode) (x y : Reading) : Prop := x.expr = y.expr ∧ P.Rows m x.rest y.rest

/-- Readings that are alike, if there is one at all. -/
def SameFound (m : Mode) : Option Reading → Option Reading → Prop
  | none, none => True
  | some x, some y => P.SameReading m x y
  | _, _ => False

/-- Atoms with the same scripts, if there is one at all. -/
def SameOwner : Option Atom → Option Atom → Prop
  | none, none => True
  | some a, some b => SameScripts a b
  | _, _ => False

theorem SameOwner.refl (own : Option Atom) : SameOwner own own := by
  cases own with
  | none => exact trivial
  | some a => exact ⟨rfl, rfl⟩

/-- With the fuel, the reader reads the fence as two atoms as it is read as one. -/
structure Alike (c : Catalog) (fuel : Nat) : Prop where
  whole : ∀ {l r}, P.Sides (unspaced l) (unspaced r) → Agree F Eq (ofSequence c fuel l) (Grammar.whole c r)
  nested : ∀ {l r : Option (List Atom)}, P.Sides (unspaced (l.getD [])) (unspaced (r.getD [])) →
    Agree F Eq (ofNested c fuel l) (Grammar.nested c r)
  parts : ∀ {l r}, List.Forall₂ (fun p q => P.Sides (unspaced p) (unspaced q)) l r →
    Agree F Eq (ofParts c fuel l) (Grammar.parts c r)
  atom : ∀ a, Agree F Eq (ofAtom c fuel a) (Grammar.atom c a)
  sequence : ∀ {m l r}, m.Sound → P.Rows m l r →
    Agree F (P.SameReading m) (readSequence c fuel (P.leftClosers m) l) (Grammar.sequence c (rightClosers m) r)
  stray : ∀ {m e l r}, m.Sound → P.Rows m l r →
    Agree F (P.SameReading m) (readStray c fuel (P.leftClosers m) e l) (Grammar.stray c (rightClosers m) e r)
  expression : ∀ {m least e l r}, m.Sound → P.Rows m l r →
    Agree F (P.SameReading m) (readExpression c fuel (P.leftClosers m) least e l)
      (Grammar.expression c (rightClosers m) least e r)
  tighter : ∀ {m precedence e l r}, m.Sound → P.Rows m l r →
    Agree F (P.SameReading m) (readTighter c fuel (P.leftClosers m) precedence e l)
      (Grammar.tighter c (rightClosers m) precedence e r)
  primary : ∀ {m l r}, m.Sound → P.Rows m l r →
    Agree F (P.SameReading m) (readPrimary c fuel (P.leftClosers m) l) (Grammar.primary c (rightClosers m) r)
  operand : ∀ {m a l r}, m.Sound → P.Rows m (a :: l) (a :: r) → a.closesAny (rightClosers m) = .ok false →
    Agree F (P.SameReading m) (readOperand c fuel (P.leftClosers m) a l) (Grammar.operand c (rightClosers m) a r)
  symbol : ∀ {m a l r}, P.Rows m (a :: l) (a :: r) → P.Rows m l r →
    Agree F (P.SameReading m) (readSymbol c fuel a l) (Grammar.symbol c a r)
  marked : ∀ {m a l r}, P.Rows m l r → Agree F (P.SameReading m) (readMarked c fuel a l) (Grammar.marked c a r)
  number : ∀ {m a l r}, P.Rows m (a :: l) (a :: r) → P.Rows m l r → a.isPlaceholder = false →
    Expr.startsNumber (a :: r) = .ok true → Agree F (P.SameReading m) (readNumber c fuel a l) (Grammar.number c a r)
  mixed : ∀ {m literal x y}, SameNumeral (P := P) m x y → literalOf y.chars = .ok literal →
    Agree F (P.SameFound m) (readMixed c fuel literal x) (Grammar.mixed c literal y)
  function : ∀ {m a l r}, m.Sound → P.Rows m l r → a.isFunction c = .ok true →
    Agree F (P.SameReading m) (readFunction c fuel (P.leftClosers m) a l) (Grammar.function c (rightClosers m) a r)
  fence : ∀ {m a l r}, m.Sound → P.Rows m (a :: l) (a :: r) → (a.type ≠ .opening → P.Rows m l r) →
    Agree F (P.SameReading m) (readFence c fuel (P.leftClosers m) a l) (Grammar.fence c (rightClosers m) a r)
  closing : ∀ {a : Atom} {left closer closers inner l r}, a.opener? = .ok (some (left, closer)) → P.Sides l r →
    Agree F (P.SameReading (.outside closers)) (readClosing c fuel left closer inner l) (Grammar.closing c left closer inner r)
  closingInside : ∀ {a : Atom} {left g outer stack behind inner b l r}, a.opener? = .ok (some (left, ⟨.closing, some g⟩)) →
    P.Inside (g :: stack) behind (b :: l) (b :: r) → b.type = .closing →
    Agree F (P.SameReading (.inside outer stack behind)) (readClosing c fuel left ⟨.closing, some g⟩ inner (b :: l))
      (Grammar.closing c left ⟨.closing, some g⟩ inner (b :: r))
  pairClosing : ∀ closers behind inner, Agree F (P.SameReading (.outside closers))
    (readClosing c fuel (.text P.left) P.closer inner (P.closing :: behind))
    (do
      let e ← delimited (P.fenced.leftDelim.orElse ".") (P.fenced.rightDelim.orElse ".") inner
      Grammar.scripts c (some P.fenced) e behind)
  pairFence : ∀ {closers behind}, (Mode.outside closers).Sound → (∀ a ∈ behind, a.Keyed F) →
    Agree F (P.SameReading (.outside closers)) (readFence c fuel closers P.opening (P.row ++ P.closing :: behind))
      (Grammar.fence c closers P.fenced behind)
  pairOperand : ∀ {closers behind}, (Mode.outside closers).Sound → (∀ a ∈ behind, a.Keyed F) →
    Agree F (P.SameReading (.outside closers)) (readOperand c fuel closers P.opening (P.row ++ P.closing :: behind))
      (Grammar.operand c closers P.fenced behind)
  scripts : ∀ {m own own' e l r}, SameOwner own own' → P.Rows m l r →
    Agree F (P.SameReading m) (readScripts c fuel own e l) (Grammar.scripts c own' e r)
  attached : ∀ {a b e}, SameScripts a b → Agree F Eq (attachScripts c fuel a e) (Grammar.attached c b e)
  marks : ∀ {m e l r}, P.Rows m l r → Agree F (P.SameReading m) (readPostfix c fuel e l) (Grammar.marks c e r)
  neighbours : ∀ {m e l r}, m.Sound → P.Rows m l r →
    Agree F (P.SameReading m) (readNeighbours c fuel (P.leftClosers m) e l) (Grammar.neighbours c (rightClosers m) e r)
  application : ∀ {m e l r}, P.Rows m l r →
    Agree F (P.SameFound m) (readCall c fuel e l) (Grammar.application c e r)

variable {P} {c : Catalog} {fuel : Nat}

theorem Sides.eq_nil {r : List Atom} (h : P.Sides [] r) : r = [] := by
  rcases h with rfl | ⟨front, behind, hl, -⟩
  · rfl
  · cases front <;> cases hl

section

variable (ih : P.Alike c fuel)
include ih

/-! ### Nested rows and atoms -/

theorem alike_whole {l r : List Atom} (h : P.Sides (unspaced l) (unspaced r)) :
    Agree F Eq (ofSequence c (fuel + 1) l) (Grammar.whole c r) := by
  rw [Grammar.whole_eq]
  simp only [Expr.ofSequence]
  have hsound : (Mode.outside []).Sound := fun k hk => absurd hk List.not_mem_nil
  exact Agree.bind (ih.sequence hsound (m := .outside []) h) fun x y _ _ hxy => hxy.1

theorem alike_nested {l r : Option (List Atom)} (h : P.Sides (unspaced (l.getD [])) (unspaced (r.getD []))) :
    Agree F Eq (ofNested c (fuel + 1) l) (Grammar.nested c r) := by
  rw [Grammar.nested_eq]
  rcases l with _ | _ | ⟨a, rest⟩
  · rw [Grammar.whole_spaces (Sides.eq_nil h)]
    exact rfl
  · rw [Grammar.whole_spaces (Sides.eq_nil h)]
    exact rfl
  · exact ih.whole h

theorem alike_parts {l r : List (List Atom)} (h : List.Forall₂ (fun p q => P.Sides (unspaced p) (unspaced q)) l r) :
    Agree F Eq (ofParts c (fuel + 1) l) (Grammar.parts c r) := by
  cases h with
  | nil =>
    rw [Grammar.parts_nil]
    exact rfl
  | cons hpart hrest =>
    rw [Grammar.parts_cons]
    simp only [ofParts]
    refine Agree.bind (ih.nested hpart) fun e e' _ _ he => ?_
    refine Agree.bind (ih.parts hrest) fun items items' _ _ hitems => ?_
    rw [he, hitems]
    exact rfl

theorem alike_atom (a : Atom) : Agree F Eq (ofAtom c (fuel + 1) a) (Grammar.atom c a) := by
  rw [Grammar.atom_eq]
  simp only [ofAtom]
  cases a.type with
  | fraction =>
    refine Agree.bind (ih.whole (.inl rfl)) fun numerator _ _ _ hn => ?_
    refine Agree.bind (ih.whole (.inl rfl)) fun denominator _ _ _ hd => ?_
    rw [hn, hd]
    exact rfl
  | radical =>
    refine Agree.bind (ih.whole (.inl rfl)) fun radicand _ _ _ hr => ?_
    refine Agree.bind (ih.whole (.inl rfl)) fun index _ _ _ hi => ?_
    rw [hr, hi]
    exact .refl (fun _ => rfl) _
  | _ => exact .refl (fun _ => rfl) _

theorem alike_attached {a b : Atom} {e : Expr} (h : SameScripts a b) :
    Agree F Eq (attachScripts c (fuel + 1) a e) (Grammar.attached c b e) := by
  rw [Grammar.attached_eq, ← h.1, ← h.2]
  simp only [attachScripts]
  refine Agree.bind (ih.nested (.inl rfl)) fun sup _ _ _ hsup => ?_
  refine Agree.bind (ih.nested (.inl rfl)) fun sub _ _ _ hsub => ?_
  rw [hsup, hsub]
  exact rfl

/-! ### Scripts and marks -/

/-- Behind scripts of its own come those of placeholders, of which no bracket is one. -/
theorem alike_placeholders {m : Mode} (e : Expr) {l r : List Atom} (h : P.Rows m l r) :
    Agree F (P.SameReading m) (readScripts c (fuel + 1) none e l) (Grammar.placeholders c e r) := by
  simp only [readScripts, pure_bind]
  cases h.view with
  | nil => exact ⟨rfl, h⟩
  | stop =>
    dsimp only
    rw [P.closing_bracket.isPlaceholder]
    exact ⟨rfl, h⟩
  | fence =>
    dsimp only
    rw [Grammar.placeholders, P.opening_bracket.isPlaceholder, P.fenced_bracket.isPlaceholder]
    exact ⟨rfl, h⟩
  | same a s t =>
    refine .choice (fun hplaceholder => ?_) fun _ => ⟨rfl, h⟩
    have ht : a.type = .ordinary := by
      rw [Bool.and_eq_true] at hplaceholder
      exact type_of_isPlaceholder hplaceholder.1
    exact ih.scripts (SameOwner.refl (some a)) (h.tail (by rw [ht]; decide) (by rw [ht]; decide))

theorem alike_scripts {m : Mode} {own own' : Option Atom} {e : Expr} {l r : List Atom} (hown : SameOwner own own')
    (h : P.Rows m l r) : Agree F (P.SameReading m) (readScripts c (fuel + 1) own e l) (Grammar.scripts c own' e r) := by
  cases own with
  | none =>
    cases own' with
    | none =>
      rw [Grammar.scripts_none]
      exact alike_placeholders ih e h
    | some b => exact hown.elim
  | some a =>
    cases own' with
    | none => exact hown.elim
    | some b =>
      have hscripts : a.hasScripts = b.hasScripts := by
        unfold hasScripts
        rw [hown.1, hown.2]
      have hbehind := fun e' => alike_placeholders ih e' h
      rw [Grammar.scripts_some]
      simp only [readScripts, pure_bind] at hbehind ⊢
      rw [hscripts]
      refine .choice (fun _ => ?_) fun _ => hbehind e
      exact Agree.bind (ih.attached hown) fun e' _ _ _ he => he ▸ hbehind e'

theorem alike_marks {m : Mode} {e : Expr} {l r : List Atom} (h : P.Rows m l r) :
    Agree F (P.SameReading m) (readPostfix c (fuel + 1) e l) (Grammar.marks c e r) := by
  have behind : ∀ {own : Option Atom} {e : Expr} {l r : List Atom}, P.Rows m l r → Agree F (P.SameReading m)
      (do
        let read ← readScripts c fuel own e l
        readPostfix c fuel read.expr read.rest)
      (do
        let read ← Grammar.scripts c own e r
        Grammar.marks c read.expr read.rest) := by
    intro own e l r h
    exact Agree.bind (ih.scripts (SameOwner.refl own) h) fun x y _ _ hxy => hxy.1 ▸ ih.marks hxy.2
  cases h.view with
  | nil =>
    rw [Grammar.marks_nil]
    simp only [readPostfix]
    exact ⟨rfl, h⟩
  | stop hcloses hkeyed =>
    rw [Grammar.marks_nil]
    simp only [readPostfix]
    refine Agree.left (startsWithDigraph?_bracket P.closing_bracket hkeyed _) ?_
    rintro _ - rfl
    dsimp only
    rw [P.closing_bracket.postfixFunction?]
    exact ⟨rfl, h⟩
  | fence hm hkeyed =>
    rw [Grammar.marks_cons]
    simp only [readPostfix]
    refine Agree.left (startsWithDigraph?_bracket P.opening_bracket (P.keyed_behind_opening hkeyed) _) ?_
    rintro _ - rfl
    refine Agree.right (startsWithDigraph?_bracket P.fenced_bracket hkeyed _) ?_
    rintro _ - rfl
    dsimp only
    rw [P.opening_bracket.postfixFunction?, P.fenced_bracket.postfixFunction?]
    exact ⟨rfl, h⟩
  | same a l r =>
    rw [Grammar.marks_cons]
    simp only [readPostfix]
    refine Agree.bind (h.digraph _) fun found _ _ hfound heq => ?_
    subst heq
    cases found with
    | some name =>
      obtain ⟨b, l, r, rfl, rfl, htail⟩ := h.of_digraph hfound
      exact behind htail
    | none =>
      refine .ask fun mark hmark => ?_
      cases mark with
      | none => exact ⟨rfl, h⟩
      | some name =>
        have ht : a.type = .textual := type_of_postfixFunction? hmark
        exact behind (h.tail (by rw [ht]; decide) (by rw [ht]; decide))

/-- Scripts and marks behind an expression. -/
theorem alike_behind {m : Mode} {own own' : Option Atom} {e : Expr} {l r : List Atom} (hown : SameOwner own own')
    (h : P.Rows m l r) : Agree F (P.SameReading m)
      (do
        let read ← readScripts c fuel own e l
        readPostfix c fuel read.expr read.rest)
      (do
        let read ← Grammar.scripts c own' e r
        Grammar.marks c read.expr read.rest) :=
  Agree.bind (ih.scripts hown h) fun _ _ _ _ hxy => hxy.1 ▸ ih.marks hxy.2

/-! ### Operands of one atom -/

theorem alike_marked {m : Mode} {a : Atom} {l r : List Atom} (h : P.Rows m l r) :
    Agree F (P.SameReading m) (readMarked c (fuel + 1) a l) (Grammar.marked c a r) := by
  rw [Grammar.marked_eq]
  simp only [readMarked]
  exact Agree.bind (ih.atom a) fun e _ _ _ he => he ▸ alike_behind ih (SameOwner.refl (some a)) h

theorem alike_symbol {m : Mode} {a : Atom} {l r : List Atom} (h : P.Rows m (a :: l) (a :: r)) (htail : P.Rows m l r) :
    Agree F (P.SameReading m) (readSymbol c (fuel + 1) a l) (Grammar.symbol c a r) := by
  rw [Grammar.symbol_eq]
  simp only [readSymbol]
  refine .ask fun precedence _ => ?_
  cases precedence with
  | some p => exact ⟨rfl, h⟩
  | none => exact .choice (fun _ => ih.marked htail) fun _ => .ask fun e _ => ⟨rfl, htail⟩

/-! ### Numbers -/

theorem alike_mixed {m : Mode} {literal : Expr} {x y : NumeralReading} (h : SameNumeral (P := P) m x y)
    (hliteral : literalOf y.chars = .ok literal) :
    Agree F (P.SameFound m) (readMixed c (fuel + 1) literal x) (Grammar.mixed c literal y) := by
  obtain ⟨chars, last, l⟩ := x
  obtain ⟨chars', last', r⟩ := y
  obtain ⟨rfl, rfl, hrows⟩ : chars = chars' ∧ last = last' ∧ P.Rows m l r := h
  cases hrows.view with
  | nil =>
    rw [Grammar.mixed_nil c literal rfl]
    exact trivial
  | stop =>
    rw [Grammar.mixed_nil c literal rfl]
    simp only [readMixed]
    rw [if_neg (fun h => by rw [P.closing_type] at h; cases h.1)]
    exact trivial
  | fence =>
    rw [Grammar.mixed_cons c rfl hliteral]
    simp only [readMixed]
    rw [if_neg (fun h => by rw [P.opening_type] at h; cases h.1), if_neg (fun h => by rw [P.fenced_type] at h; cases h.1)]
    exact trivial
  | same a l r =>
    rw [Grammar.mixed_cons c rfl hliteral]
    simp only [readMixed]
    refine .choice (fun hfraction => ?_) fun _ => trivial
    have htail := hrows.tail (by rw [hfraction.1]; decide) (by rw [hfraction.1]; decide)
    refine Agree.bind (ih.atom a) fun fraction _ _ _ heq => ?_
    subst heq
    refine .ask fun found _ => ?_
    cases found with
    | none => exact trivial
    | some _ =>
      refine Agree.bind (ih.scripts (SameOwner.refl (some a)) htail) fun x y _ _ hxy => ?_
      rw [hxy.1]
      refine Agree.bind (ih.marks hxy.2) fun x y _ _ hxy => ?_
      exact ⟨congrArg (between "+" literal) hxy.1, hxy.2⟩

theorem alike_number {m : Mode} {a : Atom} {l r : List Atom} (h : P.Rows m (a :: l) (a :: r)) (htail : P.Rows m l r)
    (hp : a.isPlaceholder = false) (hs : Expr.startsNumber (a :: r) = .ok true) :
    Agree F (P.SameReading m) (readNumber c (fuel + 1) a l) (Grammar.number c a r) := by
  rw [Grammar.number_eq c hp hs]
  simp only [readNumber]
  refine Agree.bind h.scanNumeral fun x y _ _ hxy => ?_
  obtain ⟨chars, last, l'⟩ := x
  obtain ⟨chars', last', r'⟩ := y
  obtain ⟨rfl, rfl, hrows⟩ : chars = chars' ∧ last = last' ∧ P.Rows m l' r' := hxy
  refine .choice (fun _ => ih.marked htail) fun _ => .ask fun literal hliteral => ?_
  refine Agree.bind (ih.mixed ⟨rfl, rfl, hrows⟩ hliteral) fun found found' _ _ hfound => ?_
  cases found with
  | none =>
    cases found' with
    | none => exact alike_behind ih (SameOwner.refl last) hrows
    | some y => exact hfound.elim
  | some x =>
    cases found' with
    | none => exact hfound.elim
    | some y => exact hfound

/-! ### Functions and calls -/

theorem alike_function {m : Mode} {a : Atom} {l r : List Atom} (hm : m.Sound) (h : P.Rows m l r)
    (hf : a.isFunction c = .ok true) :
    Agree F (P.SameReading m) (readFunction c (fuel + 1) (P.leftClosers m) a l)
      (Grammar.function c (rightClosers m) a r) := by
  rw [Grammar.function_eq c _ _ hf]
  simp only [readFunction]
  refine .ask fun name _ => ?_
  refine Agree.bind (ih.scripts (SameOwner.refl (some a)) h) fun head head' _ _ hhead => ?_
  refine Agree.bind (ih.primary hm hhead.2) fun x y _ _ hxy => ?_
  rw [hhead.1, hxy.1]
  cases head'.expr with
  | call name argument fence s t => exact .ask fun e _ => ⟨rfl, hxy.2⟩
  | _ => exact ⟨rfl, hxy.2⟩

theorem alike_application {m : Mode} {e : Expr} {l r : List Atom} (h : P.Rows m l r) :
    Agree F (P.SameFound m) (readCall c (fuel + 1) e l) (Grammar.application c e r) := by
  rw [Grammar.application_eq]
  simp only [readCall]
  refine .ask fun is _ => .choice (fun _ => ?_) fun _ => trivial
  refine Agree.bind h.callArguments fun cut cut' _ _ hcut => ?_
  cases hcut with
  | none => exact trivial
  | some harguments hscripts hrest =>
    cases e with
    | symbol name variant s t =>
      refine Agree.bind harguments.commas fun ps qs _ _ hparts => ?_
      refine Agree.bind (ih.parts hparts) fun items _ _ _ heq => ?_
      subst heq
      refine Agree.bind (ih.scripts (by exact hscripts) hrest) fun x y _ _ hxy => ?_
      rw [hxy.1]
      exact Agree.bind (ih.marks hxy.2) fun x y _ _ hxy => hxy
    | _ => exact trivial

end

end FencePair

end Formula
