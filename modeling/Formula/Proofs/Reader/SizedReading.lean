import Formula.Proofs.Reader.SizedPair

/-!
# Reading sized delimiters

`ReadsAlike` says that the reader goes through the row with sized delimiters as it goes through the one with plain
delimiters, function by function: it finds the same expressions and leaves the rows at the same place.  One more unit of fuel
keeps this; there is one lemma for every function, which goes along its text.

The two forms of the fence may be told apart behind a factor alone.  So the functions that read an operand have to say in
which state they leave the place in front of the fence: no operand ends there if the delimiter can close (`Fits`), and a
primary, which takes its neighbours, never ends there.
-/

namespace Formula

open Atom Expr Outcome

namespace SizedPair

variable {F : Fault → Prop} {p : SizedPair} {fuel : Nat} {place : FencePlace} {a b : Atom} {l r : List Atom} {e : Expr}

/-! ### What is alike -/

/-- The same expression, and rows at the place; the one in front of the fence is reached only if `H` holds of the
expression. -/
def SameReading (p : SizedPair) (H : Expr → Prop) (place : FencePlace) (x y : Reading) : Prop :=
  x.expr = y.expr ∧ p.Rows (H y.expr) place x.rest y.rest

/-- Readings that are the same, if there is one at all. -/
inductive SameFound (p : SizedPair) (H : Expr → Prop) (place : FencePlace) : Option Reading → Option Reading → Prop
  | none : SameFound p H place none none
  | some {x y : Reading} : p.SameReading H place x y → SameFound p H place (some x) (some y)

/-- With the fuel, the reader reads both rows alike. -/
structure ReadsAlike (F : Fault → Prop) (p : SizedPair) (fuel : Nat) : Prop where
  sequence : ∀ {place l r}, p.Rows True place l r → Agree F (p.SameReading (fun _ => True) place)
    (readSequence .builtin fuel (p.sizedClosers place) l) (readSequence .builtin fuel (p.plainClosers place) r)
  stray : ∀ {place e l r}, p.Rows True place l r → Agree F (p.SameReading (fun _ => True) place)
    (readStray .builtin fuel (p.sizedClosers place) e l) (readStray .builtin fuel (p.plainClosers place) e r)
  expression : ∀ {place least e l r}, p.Rows True place l r → Agree F (p.SameReading (fun _ => True) place)
    (readExpression .builtin fuel (p.sizedClosers place) least e l)
    (readExpression .builtin fuel (p.plainClosers place) least e r)
  tighter : ∀ {place precedence e l r}, p.Rows True place l r → Agree F (p.SameReading (fun _ => True) place)
    (readTighter .builtin fuel (p.sizedClosers place) precedence e l)
    (readTighter .builtin fuel (p.plainClosers place) precedence e r)
  primary : ∀ {place l r}, p.Rows True place l r → Agree F (p.SameReading (fun _ => False) place)
    (readPrimary .builtin fuel (p.sizedClosers place) l) (readPrimary .builtin fuel (p.plainClosers place) r)
  neighbours : ∀ {place e l r}, p.Rows (p.Fits e) place l r → Agree F (p.SameReading (fun _ => False) place)
    (readNeighbours .builtin fuel (p.sizedClosers place) e l) (readNeighbours .builtin fuel (p.plainClosers place) e r)
  application : ∀ {place e a l b r}, p.Rows (p.Fits e) place (a :: l) (b :: r) →
    a.closesAny (p.sizedClosers place) = .ok false →
    Agree F (p.SameFound p.Fits place) (readCall .builtin fuel e (a :: l)) (readCall .builtin fuel e (b :: r))
  operand : ∀ {place a l b r}, p.Rows True place (a :: l) (b :: r) → a.closesAny (p.sizedClosers place) = .ok false →
    Agree F (p.SameReading p.Fits place) (readOperand .builtin fuel (p.sizedClosers place) a l)
      (readOperand .builtin fuel (p.plainClosers place) b r)
  fence : ∀ {place a l b r}, p.Rows True place (a :: l) (b :: r) → a.closesAny (p.sizedClosers place) = .ok false →
    (a.type = .fenced ∨ a.opener? ≠ .ok none) →
    Agree F (p.SameReading p.Fits place) (readFence .builtin fuel (p.sizedClosers place) a l)
      (readFence .builtin fuel (p.plainClosers place) b r)
  closing : ∀ {left inner k stack l r}, p.Rows False (.inside (k :: stack)) l r →
    StopsAt (p.sizedClosers (.inside (k :: stack))) l → Agree F (p.SameReading p.Fits (.inside stack))
      (readClosing .builtin fuel left k inner l) (readClosing .builtin fuel left k inner r)
  function : ∀ {place a l r}, p.Rows (p.EndsFront a) place l r → Agree F (p.SameReading (fun _ => False) place)
    (readFunction .builtin fuel (p.sizedClosers place) a l) (readFunction .builtin fuel (p.plainClosers place) a r)
  symbol : ∀ {place a l r}, p.Rows False place (a :: l) (a :: r) → p.Rows (p.EndsFront a) place l r →
    (a.type ∈ [.ordinary, .textual, .operator] → a.isFunction .builtin = .ok false) →
    Agree F (p.SameReading p.Fits place) (readSymbol .builtin fuel a l) (readSymbol .builtin fuel a r)
  marked : ∀ {place a l r}, p.Rows (p.EndsFront a ∧ ¬a.AwaitsOperand) place l r →
    Agree F (p.SameReading p.Fits place) (readMarked .builtin fuel a l) (readMarked .builtin fuel a r)
  number : ∀ {place a l r}, p.Rows False place (a :: l) (a :: r) → p.Rows (p.EndsFront a) place l r →
    startsNumber (a :: l) = .ok true →
    Agree F (p.SameReading p.Fits place) (readNumber .builtin fuel a l) (readNumber .builtin fuel a r)
  mixed : ∀ {place literal x y}, p.SameNumeral place x y →
    Agree F (p.SameFound p.Fits place) (readMixed .builtin fuel literal x) (readMixed .builtin fuel literal y)
  scripts : ∀ {K : Prop} {H : Expr → Prop} {place own e l r}, (K → (∀ a ∈ own, a.hasScripts = false) ∧ H e) →
    p.Rows K place l r →
    Agree F (p.SameReading H place) (readScripts .builtin fuel own e l) (readScripts .builtin fuel own e r)
  marks : ∀ {place e l r}, p.Rows (p.Fits e) place l r →
    Agree F (p.SameReading p.Fits place) (readPostfix .builtin fuel e l) (readPostfix .builtin fuel e r)

/-- Behind the fence both rows are the same. -/
theorem alike_same {H : Expr → Prop} (x : Outcome Reading) : Agree F (p.SameReading H .outside) x x :=
  .refl (fun read => ⟨rfl, .same read.rest⟩) x

theorem SameReading.imp {H K : Expr → Prop} {x y : Reading} (h : p.SameReading H place x y) (hK : ∀ e, H e → K e) :
    p.SameReading K place x y := ⟨h.1, h.2.imp (hK _)⟩

theorem fits_of_callName? (hs : p.opener ∉ Glyph.symmetric) (he : callName? e = .ok false) : p.Fits e :=
  ⟨hs, fun _ h => by rw [he] at h; cases h⟩

/-- The second half of a postfix digraph awaits no operand. -/
theorem not_awaitsOperand_of_digraph {d : Atom} {name : String} {rest : List Atom}
    (h : startsWithDigraph? Glyph.postfixDigraphs (a :: d :: rest) = .ok (some name)) : ¬d.AwaitsOperand := by
  obtain ⟨_, _, _, heq, hfound, hname⟩ := digraph_of_startsWithDigraph? h
  cases heq
  obtain ⟨-, t, u, -, hu, hmem⟩ := mem_of_digraph? hfound
  have hall : ∀ e ∈ Glyph.digraphs, Glyph.postfixDigraphs.contains e.2 = true → e.1.2 ∈ digits ++ [".", "!"] := by decide
  exact not_awaitsOperand_of_text hu (hall _ hmem hname)

/-- What starts a number awaits no operand. -/
theorem not_awaitsOperand_of_startsNumber (h : startsNumber (a :: l) = .ok true) : ¬a.AwaitsOperand := by
  obtain ⟨digit, hdigit, h⟩ := bind_eq_ok.mp h
  cases digit with
  | true =>
    obtain ⟨-, t, hmem, ht⟩ := text_of_isDigit hdigit
    exact not_awaitsOperand_of_text ht (List.mem_append_left _ hmem)
  | false =>
    simp only [Bool.false_eq_true, if_false] at h
    split at h
    · obtain ⟨text, htext, h⟩ := bind_eq_ok.mp h
      split at h
      · rename_i hpoint
        rw [Bool.and_eq_true] at hpoint
        rw [Datum.eq_text_of_isText hpoint.1] at htext
        exact not_awaitsOperand_of_text htext (by decide)
      · cases h
    · cases h

/-- The expression of the atom in front of the fence is no name of a call if parentheses stand behind it. -/
theorem fits_of_atom (h : p.EndsFront a) (ha : ¬a.AwaitsOperand) (he : ofAtom .builtin fuel a = .ok e) : p.Fits e := by
  refine ⟨h.not_symmetric ha, fun hparenthesis hcall => p.uncalled hparenthesis a h ?_⟩
  have htype := h.isTerm.type
  cases fuel with
  | zero => cases he
  | succ fuel =>
    cases atomStep_of_ofAtom he with
    | fraction ht _ _ | squareRoot ht _ _ _ | root ht _ _ _ | font ht _ | text ht _ =>
      rw [ht] at htype
      exact absurd htype (by decide)
    | symbol _ he => exact ⟨e, he, hcall⟩
    | other _ => cases hcall

/-- An atom without scripts adds none. -/
theorem readScripts_bare {c : Catalog} (h : a.hasScripts = false) (e : Expr) (l : List Atom) :
    readScripts c fuel (some a) e l = readScripts c fuel none e l := by
  cases fuel with
  | zero => rfl
  | succ fuel =>
    simp only [readScripts]
    rw [if_neg (by rw [h]; exact Bool.false_ne_true)]

/-- The outermost fence is closed by the one delimiter as by the other, and behind it both rows are the same. -/
theorem reads_outermost {left : Datum} {inner : Expr} (h : p.Rows False (.inside []) l r)
    (hstops : StopsAt (p.sizedClosers (.inside [])) l) :
    Agree F (p.SameReading p.Fits .outside) (readClosing .builtin fuel left p.sizedCloser inner l)
      (readClosing .builtin fuel left p.plainCloser inner r) := by
  cases fuel with
  | zero => exact .inr (.inr rfl)
  | succ fuel =>
    rcases hstops with rfl | ⟨a, l, rfl, hcloses⟩
    · generalize hl : ([] : List Atom) = l at h
      cases h with
      | @inside _ q _ => cases q <;> cases hl
    · cases r with
      | nil => cases h.nil_iff.mpr rfl
      | cons b r =>
        cases h.view with
        | right =>
          simp only [readClosing]
          rw [p.closes_right, p.closes_closing, p.right_delimits.glyph, p.closing_delimits.glyph]
          refine .ask fun closed hclosed => ?_
          cases hclosed
          refine .choice (fun _ => .ask fun glyph _ => .ask fun e _ => ?_) fun hne => absurd rfl hne
          rw [readScripts_bare p.right_delimits.bare, readScripts_bare p.closing_delimits.bare]
          exact alike_same _
        | opens _ _ _ halike =>
          rw [sizedClosers, halike.left] at hcloses
          cases hcloses
        | other _ _ hleft =>
          rw [hleft] at hcloses
          cases hcloses

theorem opener?_ne_none {o : Datum × Closer} (h : a.opener? = .ok (some o)) : a.opener? ≠ .ok none := by
  rw [h]
  exact fun heq => by cases heq

/-- A delimiter that opens a fence is read as one. -/
theorem readOperand_of_opener {o : Datum × Closer} (ha : IsDelimiter a) (hopener : a.opener? = .ok (some o))
    (closers : List Closer) (l : List Atom) :
    readOperand .builtin (fuel + 1) closers a l = (do
      let _ ← startsWithDigraph? Glyph.prefixDigraphs (a :: l)
      readFence .builtin fuel closers a l) := by
  simp only [readOperand]
  rcases hfound : startsWithDigraph? Glyph.prefixDigraphs (a :: l) with f | _ | name
  · rfl
  rotate_left
  · obtain ⟨_, _, _, heq, hdigraph, -⟩ := digraph_of_startsWithDigraph? hfound
    cases heq
    exact absurd hdigraph (ha.isSolitary.digraph?_left_ne _ _)
  show (a.sign? .builtin >>= _) = readFence .builtin fuel closers a l
  have hnumber : startsNumber (a :: l) = .ok false := by
    rw [startsNumber, ha.isSolitary.isDigit]
    simp only [bind, Except.bind, Bool.false_eq_true, if_false, if_neg (ha.type_ne (t := .ordinary) (by decide))]
    rfl
  rw [ha.sign?, ha.isPlaceholder, hnumber]
  have htype := ha.type
  simp only [List.mem_cons, List.not_mem_nil, or_false] at htype
  rcases htype with ht | ht | ht | ht
  · simp [ht, bind, Except.bind]
  · exact absurd (opener?_of_type (by rw [ht]; decide)) (opener?_ne_none hopener)
  · rw [ht, ha.isFunction ht, hopener]
    simp [bind, Except.bind]
  · simp [ht, bind, Except.bind]

section

variable (ih : p.ReadsAlike F fuel)
include ih

/-! ### Scripts and marks -/

/-- Behind scripts of its own come those of placeholders. -/
theorem reads_placeholders {K : Prop} {H : Expr → Prop} (hK : K → H e) (h : p.Rows K place l r) :
    Agree F (p.SameReading H place) (readScripts .builtin (fuel + 1) none e l)
      (readScripts .builtin (fuel + 1) none e r) := by
  simp only [readScripts, pure_bind]
  cases l with
  | nil =>
    cases h.nil_iff.mp rfl
    exact ⟨rfl, h.imp hK⟩
  | cons a l =>
    cases r with
    | nil => cases h.nil_iff.mpr rfl
    | cons b r =>
      obtain ⟨hab, -⟩ := List.forall₂_cons.mp h.sameButDelimiters
      dsimp only
      rw [hab.isPlaceholder, hab.hasScripts]
      refine .choice (fun hbearer => ?_) fun _ => ⟨rfl, h.imp hK⟩
      rw [Bool.and_eq_true] at hbearer
      obtain ⟨rfl, hrest⟩ := h.tail fun hb => by rw [hb.isPlaceholder] at hbearer; cases hbearer.1
      refine ih.scripts (fun hends => ?_) hrest
      rw [hends.isTerm.isPlaceholder] at hbearer
      cases hbearer.1

theorem reads_scripts {K : Prop} {H : Expr → Prop} {own : Option Atom} (hK : K → (∀ a ∈ own, a.hasScripts = false) ∧ H e)
    (h : p.Rows K place l r) :
    Agree F (p.SameReading H place) (readScripts .builtin (fuel + 1) own e l)
      (readScripts .builtin (fuel + 1) own e r) := by
  cases own with
  | none => exact reads_placeholders ih (fun k => (hK k).2) h
  | some a =>
    have hbehind := fun (e' : Expr) (hK : K → H e') => reads_placeholders ih hK h
    simp only [readScripts, pure_bind] at hbehind ⊢
    refine .choice (fun hs => .ask fun e' _ => hbehind e' fun k => ?_) fun _ => hbehind e fun k => (hK k).2
    rw [(hK k).1 a rfl] at hs
    cases hs

/-- Scripts and marks behind an expression. -/
theorem reads_behind {K : Prop} {own : Option Atom} (hK : K → (∀ a ∈ own, a.hasScripts = false) ∧ p.Fits e)
    (h : p.Rows K place l r) : Agree F (p.SameReading p.Fits place)
      (do
        let read ← readScripts .builtin fuel own e l
        readPostfix .builtin fuel read.expr read.rest)
      (do
        let read ← readScripts .builtin fuel own e r
        readPostfix .builtin fuel read.expr read.rest) :=
  Agree.bind (ih.scripts hK h) fun _ _ _ _ hxy => by
    rw [hxy.1]
    exact ih.marks hxy.2

theorem reads_marks (h : p.Rows (p.Fits e) place l r) :
    Agree F (p.SameReading p.Fits place) (readPostfix .builtin (fuel + 1) e l) (readPostfix .builtin (fuel + 1) e r) := by
  cases l with
  | nil =>
    cases h.nil_iff.mp rfl
    simp only [readPostfix]
    exact ⟨rfl, h⟩
  | cons a l =>
    cases r with
    | nil => cases h.nil_iff.mpr rfl
    | cons b r =>
      have hsame := h.sameButDelimiters
      obtain ⟨hab, hlr⟩ := List.forall₂_cons.mp hsame
      simp only [readPostfix]
      rw [hsame.startsWithDigraph?]
      refine .ask fun found hfound => ?_
      cases found with
      | some name =>
        obtain ⟨rfl, ha, d, l, r, rfl, rfl, hd, -⟩ := SameButDelimiters.of_startsWithDigraph? hab hlr hfound
        have hrest := ((h.tail ha).2.tail hd).2
        refine reads_behind ih (fun hends => ⟨?_, ?_⟩) hrest
        · rintro _ ⟨⟩
          exact hends.isTerm.bare
        · exact fits_of_callName? (hends.not_symmetric (not_awaitsOperand_of_digraph hfound)) rfl
      | none =>
        dsimp only
        rw [hab.postfixFunction?]
        refine .ask fun mark hmark => ?_
        cases mark with
        | none => exact ⟨rfl, h⟩
        | some name =>
          obtain ⟨rfl, hrest⟩ := h.tail fun hb => by rw [hb.postfixFunction?] at hmark; cases hmark
          refine reads_behind ih (fun hends => ⟨?_, ?_⟩) hrest
          · rintro _ ⟨⟩
            exact hends.isTerm.bare
          · exact fits_of_callName? (hends.not_symmetric (not_awaitsOperand_of_mark hmark)) rfl

/-! ### Operands of one atom -/

theorem reads_marked (h : p.Rows (p.EndsFront a ∧ ¬a.AwaitsOperand) place l r) :
    Agree F (p.SameReading p.Fits place) (readMarked .builtin (fuel + 1) a l) (readMarked .builtin (fuel + 1) a r) := by
  simp only [readMarked]
  refine .ask fun e he => reads_behind ih (fun hends => ⟨?_, fits_of_atom hends.1 hends.2 he⟩) h
  rintro _ ⟨⟩
  exact hends.1.isTerm.bare

theorem reads_symbol (hrow : p.Rows False place (a :: l) (a :: r)) (h : p.Rows (p.EndsFront a) place l r)
    (hf : a.type ∈ [.ordinary, .textual, .operator] → a.isFunction .builtin = .ok false) :
    Agree F (p.SameReading p.Fits place) (readSymbol .builtin (fuel + 1) a l) (readSymbol .builtin (fuel + 1) a r) := by
  simp only [readSymbol]
  refine .ask fun precedence hprecedence => ?_
  cases precedence with
  | some q => exact ⟨rfl, hrow.imp False.elim⟩
  | none =>
    have hawaits : ¬a.AwaitsOperand := by
      rintro (⟨q, hq⟩ | ⟨ht, hq, -⟩)
      · rw [hprecedence] at hq
        cases hq
      · rw [hf ht] at hq
        cases hq
    refine .choice (fun _ => ih.marked (h.imp fun hends => ⟨hends, hawaits⟩)) fun _ => .ask fun u hu => ⟨rfl, ?_⟩
    refine h.imp fun hends => fits_of_callName? (hends.not_symmetric hawaits) ?_
    obtain ⟨text, -, hu⟩ := bind_eq_ok.mp hu
    cases hu
    rfl

/-! ### Numbers -/

theorem reads_mixed {literal : Expr} {x y : NumeralReading} (h : p.SameNumeral place x y) :
    Agree F (p.SameFound p.Fits place) (readMixed .builtin (fuel + 1) literal x)
      (readMixed .builtin (fuel + 1) literal y) := by
  obtain ⟨chars, last, l⟩ := x
  obtain ⟨chars', last', r⟩ := y
  obtain ⟨-, rfl, h⟩ := h
  simp only [readMixed]
  cases l with
  | nil =>
    cases h.nil_iff.mp rfl
    exact .none
  | cons a l =>
    cases r with
    | nil => cases h.nil_iff.mpr rfl
    | cons b r =>
      dsimp only
      by_cases ht : b.type = .fraction
      · obtain ⟨rfl, hrest⟩ := h.tail fun hb => hb.type_ne (by decide) ht
        refine .choice (fun _ => .ask fun fraction _ => .ask fun found _ => ?_) fun _ => .none
        cases found with
        | none => exact .none
        | some _ =>
          have hno : p.EndsFront a → False := fun hends => by
            have := hends.isTerm.type
            rw [ht] at this
            exact absurd this (by decide)
          refine Agree.bind (ih.scripts (H := p.Fits) (fun hends => (hno hends).elim) hrest) fun x y _ _ hxy => ?_
          rw [hxy.1]
          refine Agree.bind (ih.marks hxy.2) fun x y _ _ hxy => .some ⟨congrArg (between "+" literal) hxy.1, ?_⟩
          exact hxy.2.imp fun hfits => fits_of_callName? hfits.1 rfl
      · have ha : a.type ≠ .fraction := fun ha => by
          have hab := (List.forall₂_cons.mp h.sameButDelimiters).1
          cases hab with
          | same => exact ht ha
          | delimiters ha' => exact ha'.type_ne (by decide) ha
        rw [if_neg fun h => ha h.1, if_neg fun h => ht h.1]
        exact .none

theorem reads_number (hrow : p.Rows False place (a :: l) (a :: r)) (h : p.Rows (p.EndsFront a) place l r)
    (hstarts : startsNumber (a :: l) = .ok true) :
    Agree F (p.SameReading p.Fits place) (readNumber .builtin (fuel + 1) a l) (readNumber .builtin (fuel + 1) a r) := by
  simp only [readNumber]
  refine Agree.bind hrow.scanNumeral fun x y _ _ hxy => ?_
  rw [hxy.1]
  refine .choice (fun _ => ?_) fun _ => .ask fun literal hliteral => ?_
  · exact ih.marked (h.imp fun hends => ⟨hends, not_awaitsOperand_of_startsNumber hstarts⟩)
  refine Agree.bind (ih.mixed hxy) fun found found' _ _ hfound => ?_
  cases hfound with
  | some hread => exact hread
  | none =>
    dsimp only
    rw [hxy.2.1]
    refine reads_behind ih (fun hends => ⟨hends.2, fits_of_callName? hends.1 ?_⟩) hxy.2.2
    obtain ⟨value, -, hliteral⟩ := bind_eq_ok.mp hliteral
    cases hliteral
    rfl

/-! ### Functions and calls -/

theorem reads_function (h : p.Rows (p.EndsFront a) place l r) : Agree F (p.SameReading (fun _ => False) place)
    (readFunction .builtin (fuel + 1) (p.sizedClosers place) a l)
    (readFunction .builtin (fuel + 1) (p.plainClosers place) a r) := by
  simp only [readFunction]
  refine .ask fun name _ => ?_
  have howner : p.EndsFront a → (∀ b ∈ some a, b.hasScripts = false) ∧ True := fun hends => by
    refine ⟨?_, trivial⟩
    rintro _ ⟨⟩
    exact hends.isTerm.bare
  refine Agree.bind (ih.scripts (H := fun _ => True) howner h) fun head head' _ _ hhead => ?_
  refine Agree.bind (ih.primary hhead.2) fun x y _ _ hxy => ?_
  rw [hhead.1, hxy.1]
  cases head'.expr with
  | call name argument fence s t => exact .ask fun e _ => ⟨rfl, hxy.2⟩
  | _ => exact ⟨rfl, hxy.2⟩

theorem reads_application (h : p.Rows (p.Fits e) place (a :: l) (b :: r))
    (hopen : a.closesAny (p.sizedClosers place) = .ok false) :
    Agree F (p.SameFound p.Fits place) (readCall .builtin (fuel + 1) e (a :: l))
      (readCall .builtin (fuel + 1) e (b :: r)) := by
  simp only [readCall]
  refine .ask fun is his => .choice (fun hcall => ?_) fun _ => .none
  subst hcall
  rcases h.here_or with h | ⟨hfits, -, hl, hr⟩
  · refine Agree.bind (h.callArguments hopen) fun cut cut' _ _ hcut => ?_
    cases hcut with
    | none => exact .none
    | some hrest =>
      cases e with
      | symbol name variant s t =>
        refine .ask fun parts _ => .ask fun items _ => ?_
        refine Agree.bind (ih.scripts (H := p.Fits) False.elim hrest) fun x y _ _ hxy => ?_
        rw [hxy.1]
        exact Agree.bind (ih.marks hxy.2) fun x y _ _ hxy => .some hxy
      | _ => exact .none
  · rw [hl, hr, (hfits.callArguments his).1, (hfits.callArguments his).2]
    exact .none

/-! ### Fences -/

theorem reads_closing {left : Datum} {inner : Expr} {k : Closer} {stack : List Closer}
    (h : p.Rows False (.inside (k :: stack)) l r) (hstops : StopsAt (p.sizedClosers (.inside (k :: stack))) l) :
    Agree F (p.SameReading p.Fits (.inside stack)) (readClosing .builtin (fuel + 1) left k inner l)
      (readClosing .builtin (fuel + 1) left k inner r) := by
  rcases hstops with rfl | ⟨a, l, rfl, hcloses⟩
  · generalize hl : ([] : List Atom) = l at h
    cases h with
    | @inside _ q _ => cases q <;> cases hl
  · cases r with
    | nil => cases h.nil_iff.mpr rfl
    | cons b r =>
      cases h.view with
      | shuts _ hk _ _ hbehind =>
        simp only [readClosing]
        refine .ask fun closed hclosed => ?_
        cases hk.symm.trans hclosed
        exact .choice (fun _ => .ask fun glyph _ => .ask fun e _ => ih.scripts False.elim hbehind)
          fun hne => absurd rfl hne
      | opens _ _ _ halike =>
        rw [sizedClosers, halike.left] at hcloses
        cases hcloses
      | other _ _ hleft =>
        rw [hleft] at hcloses
        cases hcloses

theorem reads_fence (h : p.Rows True place (a :: l) (b :: r)) (hopen : a.closesAny (p.sizedClosers place) = .ok false)
    (hfence : a.type = .fenced ∨ a.opener? ≠ .ok none) :
    Agree F (p.SameReading p.Fits place) (readFence .builtin (fuel + 1) (p.sizedClosers place) a l)
      (readFence .builtin (fuel + 1) (p.plainClosers place) b r) := by
  cases h.view with
  | same => exact alike_same _
  | left =>
    simp only [readFence]
    rw [if_neg (p.left_isDelimiter.type_ne (by decide)), if_neg (p.opening_isDelimiter.type_ne (by decide)), p.opener?_left,
      p.opener?_opening]
    dsimp only [bind, Except.bind]
    refine Agree.bind (ih.sequence (.inside p.nested)) fun x y hx _ hxy => ?_
    rw [hxy.1]
    refine Agree.bind (reads_outermost hxy.2.inside_any ((Forward.all _ _).sequence hx).2) fun x y _ _ hxy => ?_
    rw [hxy.1]
    exact ih.marks hxy.2
  | right =>
    rw [sizedClosers, p.closesAny_right] at hopen
    cases hopen
  | shuts _ _ _ halike =>
    rw [sizedClosers, halike.left] at hopen
    cases hopen
  | @opens k stack _ _ _ left hdelimiter hopener _ _ hbehind =>
    simp only [readFence]
    rw [if_neg (hdelimiter.type_ne (by decide)), if_neg (hdelimiter.type_ne (by decide)), hopener]
    have hsized : p.sizedClosers (.inside stack) ++ [k] = p.sizedClosers (.inside (k :: stack)) := by
      simp [sizedClosers]
    have hplain : p.plainClosers (.inside stack) ++ [k] = p.plainClosers (.inside (k :: stack)) := by
      simp [plainClosers]
    dsimp only [bind, Except.bind]
    rw [hsized, hplain]
    refine Agree.bind (ih.sequence (hbehind.imp False.elim)) fun x y hx _ hxy => ?_
    rw [hxy.1]
    refine Agree.bind (ih.closing hxy.2.inside_any ((Forward.all _ _).sequence hx).2) fun x y _ _ hxy => ?_
    rw [hxy.1]
    exact ih.marks hxy.2
  | other hopener _ _ _ _ hbehind =>
    have ht : a.type = .fenced := hfence.resolve_right fun hne => hne hopener
    have hno : p.EndsFront a → False := fun hends => by
      have := hends.isTerm.type
      rw [ht] at this
      exact absurd this (by decide)
    simp only [readFence]
    rw [if_pos ht, if_pos ht]
    exact .ask fun inner _ => .ask fun e _ => reads_behind ih (fun hends => (hno hends).elim) hbehind

/-! ### Operands -/

theorem reads_operand (h : p.Rows True place (a :: l) (b :: r)) (hopen : a.closesAny (p.sizedClosers place) = .ok false) :
    Agree F (p.SameReading p.Fits place) (readOperand .builtin (fuel + 1) (p.sizedClosers place) a l)
      (readOperand .builtin (fuel + 1) (p.plainClosers place) b r) := by
  cases h.view with
  | same => exact alike_same _
  | left =>
    rw [readOperand_of_opener p.left_isDelimiter p.opener?_left,
      readOperand_of_opener p.opening_isDelimiter p.opener?_opening, h.sameButDelimiters.startsWithDigraph?]
    exact .ask fun _ _ => ih.fence h hopen (.inr (opener?_ne_none p.opener?_left))
  | right =>
    rw [sizedClosers, p.closesAny_right] at hopen
    cases hopen
  | shuts _ _ _ halike =>
    rw [sizedClosers, halike.left] at hopen
    cases hopen
  | opens ha hopener =>
    rw [readOperand_of_opener ha hopener, readOperand_of_opener ha hopener, h.sameButDelimiters.startsWithDigraph?]
    exact .ask fun _ _ => ih.fence h hopen (.inr (opener?_ne_none hopener))
  | other hopener htype _ _ hrow hbehind =>
    -- An atom of another type than the terms in front of the fence does not end the front.
    have ofType : a.type ∉ operatorTypes → p.EndsFront a → False := fun hne hends => hne hends.isTerm.type
    have symbol : (a.type ∈ [.ordinary, .textual, .operator] → a.isFunction .builtin = .ok false) → Agree F
        (p.SameReading p.Fits place) (readSymbol .builtin fuel a l) (readSymbol .builtin fuel a r) :=
      ih.symbol hrow hbehind
    have function : ∀ {s t : Outcome Reading},
        (a.isFunction .builtin = .ok false → Agree F (p.SameReading p.Fits place) s t) →
        Agree F (p.SameReading p.Fits place)
          (do if ← a.isFunction .builtin then readFunction .builtin fuel (p.sizedClosers place) a l else s)
          (do if ← a.isFunction .builtin then readFunction .builtin fuel (p.plainClosers place) a r else t) := by
      intro s t hst
      refine .ask fun is his => .choice (fun _ => ?_) fun hf => ?_
      · exact (ih.function hbehind).imp fun _ _ _ _ hxy => hxy.imp fun _ => False.elim
      · obtain rfl : is = false := by simpa using hf
        exact hst his
    simp only [readOperand]
    have hsame := hrow.sameButDelimiters
    obtain ⟨hab, hlr⟩ := List.forall₂_cons.mp hsame
    rw [hsame.startsWithDigraph?]
    refine .ask fun found hfound => ?_
    cases found with
    | some name =>
      obtain ⟨-, ha, d, l, r, rfl, rfl, hd, -⟩ := SameButDelimiters.of_startsWithDigraph? hab hlr hfound
      have hrest := ((h.tail ha).2.tail hd).2
      refine Agree.bind (ih.primary (hrest.imp fun _ => trivial)) fun x y _ _ hxy => ?_
      exact ⟨congrArg (apply name) hxy.1, hxy.2.imp False.elim⟩
    | none =>
      dsimp only
      refine .ask fun sign _ => ?_
      cases sign with
      | some sign =>
        refine Agree.bind (ih.primary (hbehind.imp fun _ => trivial)) fun x y _ _ hxy => ?_
        exact ⟨congrArg (withSign sign) hxy.1, hxy.2.imp False.elim⟩
      | none =>
        dsimp only
        refine .choice (fun hplaceholder => ?_) fun _ => ?_
        · refine ih.scripts (fun hends => ?_) hbehind
          rw [hends.isTerm.isPlaceholder] at hplaceholder
          cases hplaceholder
        rw [SameButDelimiters.startsNumber hab hlr]
        refine .ask fun starts hstarts => .choice (fun hs => ?_) fun _ => ?_
        · subst hs
          exact ih.number hrow hbehind ((SameButDelimiters.startsNumber hab hlr).trans hstarts)
        cases ht : a.type with
        | fraction => exact ih.marked (hbehind.imp fun hends => (ofType (by rw [ht]; decide) hends).elim)
        | radical => exact ih.marked (hbehind.imp fun hends => (ofType (by rw [ht]; decide) hends).elim)
        | font => exact ih.marked (hbehind.imp fun hends => (ofType (by rw [ht]; decide) hends).elim)
        | text => exact ih.marked (hbehind.imp fun hends => (ofType (by rw [ht]; decide) hends).elim)
        | fenced => exact ih.fence h hopen (.inl ht)
        | opening => exact absurd ht (type_of_opener?_none hopener)
        | sized => exact absurd (by simp [ht]) htype
        | operator => exact function fun hf => symbol fun _ => hf
        | ordinary => exact function fun hf => symbol fun _ => hf
        | textual =>
          refine function fun hf => ?_
          rw [hopener]
          exact symbol fun _ => hf
        | _ => exact symbol fun hmem => absurd hmem (by rw [ht]; decide)

/-! ### Neighbours and primaries -/

theorem reads_neighbours (h : p.Rows (p.Fits e) place l r) : Agree F (p.SameReading (fun _ => False) place)
    (readNeighbours .builtin (fuel + 1) (p.sizedClosers place) e l)
    (readNeighbours .builtin (fuel + 1) (p.plainClosers place) e r) := by
  cases l with
  | nil =>
    cases h.nil_iff.mp rfl
    simp only [readNeighbours]
    refine ⟨rfl, h.here_or.resolve_right ?_⟩
    rintro ⟨-, -, heq, -⟩
    cases heq
  | cons a l =>
    cases r with
    | nil => cases h.nil_iff.mpr rfl
    | cons b r =>
      simp only [readNeighbours]
      rw [h.startsOperand]
      refine .ask fun starts hstarts => .choice (fun hs => ?_) fun hs => ⟨rfl, h.here_or.resolve_right ?_⟩
      · subst hs
        have hopen := open_of_startsOperand (h.startsOperand.trans hstarts)
        refine Agree.bind (ih.application h hopen) fun found found' _ _ hfound => ?_
        cases hfound with
        | some hread =>
          dsimp only
          rw [hread.1]
          exact ih.neighbours hread.2
        | none =>
          refine Agree.bind (ih.operand (h.imp fun _ => trivial) hopen) fun x y hx hy hxy => ?_
          have hread := (Forward.all .builtin fuel).operand hy
          rw [ReadsOperand.test ((Forward.all .builtin fuel).operand hx), ReadsOperand.test hread, hxy.1]
          refine .choice (fun hmissing => ⟨rfl, ?_⟩) fun _ => ih.neighbours (hxy.2.imp fun hfits => ?_)
          · -- nothing was read of an operator, which the fence does not start with
            rcases hread with ⟨-, hfound⟩ | ⟨rfl, q, hq⟩
            · rw [hmissing] at hfound
              cases hfound
            · refine hxy.2.here_or.resolve_right ?_
              rintro ⟨-, -, -, heq⟩
              obtain ⟨rfl, -⟩ := List.cons.inj heq
              rw [p.opening_isDelimiter.precedence] at hq
              cases hq
          · exact fits_of_callName? hfits.1 rfl
      · rintro ⟨hfits, rfl, -, heq⟩
        obtain ⟨rfl, -⟩ := List.cons.inj heq
        rw [plainClosers, (startsOperand_fence hfits.1).2] at hstarts
        exact hs (Except.ok.inj hstarts).symm

theorem reads_primary (h : p.Rows True place l r) : Agree F (p.SameReading (fun _ => False) place)
    (readPrimary .builtin (fuel + 1) (p.sizedClosers place) l)
    (readPrimary .builtin (fuel + 1) (p.plainClosers place) r) := by
  cases l with
  | nil =>
    cases h.nil_iff.mp rfl
    simp only [readPrimary]
    refine ⟨rfl, h.here_or.resolve_right ?_⟩
    rintro ⟨-, -, heq, -⟩
    cases heq
  | cons a l =>
    cases r with
    | nil => cases h.nil_iff.mpr rfl
    | cons b r =>
      simp only [readPrimary]
      rw [h.closesAny]
      refine .ask fun closed hclosed => .choice (fun hc => ⟨rfl, h.here_or.resolve_right ?_⟩) fun hc => ?_
      · subst hc
        rintro ⟨-, rfl, -⟩
        cases hclosed
      · obtain rfl : closed = false := by simpa using hc
        refine Agree.bind (ih.operand h (h.closesAny.trans hclosed)) fun x y _ hy hxy => ?_
        rw [hxy.1]
        refine .choice (fun hmissing => ⟨hxy.1, ?_⟩) fun _ => ih.neighbours hxy.2
        rcases (Forward.all .builtin fuel).operand hy with ⟨-, hfound⟩ | ⟨rfl, q, hq⟩
        · rw [hmissing] at hfound
          cases hfound
        · refine hxy.2.here_or.resolve_right ?_
          rintro ⟨-, -, -, heq⟩
          obtain ⟨rfl, -⟩ := List.cons.inj heq
          rw [p.opening_isDelimiter.precedence] at hq
          cases hq

/-! ### Operators and sequences -/

theorem reads_expression {least : Int} (h : p.Rows True place l r) : Agree F (p.SameReading (fun _ => True) place)
    (readExpression .builtin (fuel + 1) (p.sizedClosers place) least e l)
    (readExpression .builtin (fuel + 1) (p.plainClosers place) least e r) := by
  cases l with
  | nil =>
    cases h.nil_iff.mp rfl
    simp only [readExpression]
    exact ⟨rfl, h⟩
  | cons a l =>
    cases r with
    | nil => cases h.nil_iff.mpr rfl
    | cons b r =>
      obtain ⟨hab, -⟩ := List.forall₂_cons.mp h.sameButDelimiters
      simp only [readExpression]
      rw [hab.precedence]
      refine .ask fun precedence hprecedence => ?_
      cases precedence with
      | none => exact ⟨rfl, h⟩
      | some q =>
        obtain ⟨rfl, hrest⟩ := h.tail fun hb => by rw [hb.precedence] at hprecedence; cases hprecedence
        refine .choice (fun _ => ⟨rfl, h⟩) fun _ => .ask fun op _ => ?_
        refine Agree.bind (ih.primary (hrest.imp fun _ => trivial)) fun x y _ _ hxy => ?_
        rw [hxy.1]
        refine Agree.bind (ih.tighter (hxy.2.imp False.elim)) fun x y _ _ hxy => ?_
        rw [hxy.1]
        exact ih.expression hxy.2

theorem reads_tighter {precedence : Int} (h : p.Rows True place l r) : Agree F (p.SameReading (fun _ => True) place)
    (readTighter .builtin (fuel + 1) (p.sizedClosers place) precedence e l)
    (readTighter .builtin (fuel + 1) (p.plainClosers place) precedence e r) := by
  simp only [readTighter]
  rw [h.sameButDelimiters.operator?]
  refine .ask fun next _ => ?_
  cases next with
  | none => exact ⟨rfl, h⟩
  | some next =>
    refine .choice (fun _ => ⟨rfl, h⟩) fun _ => ?_
    refine Agree.bind (ih.expression h) fun x y _ _ hxy => ?_
    rw [hxy.1]
    exact ih.tighter hxy.2

theorem reads_sequence (h : p.Rows True place l r) : Agree F (p.SameReading (fun _ => True) place)
    (readSequence .builtin (fuel + 1) (p.sizedClosers place) l)
    (readSequence .builtin (fuel + 1) (p.plainClosers place) r) := by
  simp only [readSequence]
  refine Agree.bind (ih.primary h) fun x y _ _ hxy => ?_
  rw [hxy.1]
  refine Agree.bind (ih.expression (hxy.2.imp False.elim)) fun x y _ _ hxy => ?_
  rw [hxy.1]
  exact ih.stray hxy.2

theorem reads_stray (h : p.Rows True place l r) : Agree F (p.SameReading (fun _ => True) place)
    (readStray .builtin (fuel + 1) (p.sizedClosers place) e l)
    (readStray .builtin (fuel + 1) (p.plainClosers place) e r) := by
  cases l with
  | nil =>
    cases h.nil_iff.mp rfl
    simp only [readStray]
    exact ⟨rfl, h⟩
  | cons a l =>
    cases r with
    | nil => cases h.nil_iff.mpr rfl
    | cons b r =>
      simp only [readStray]
      rw [h.closesAny]
      refine .ask fun closed hclosed => .choice (fun _ => ⟨rfl, h⟩) fun hopen => ?_
      have on : ∀ {x y : Reading}, p.SameReading (fun _ => True) place x y →
          Agree F (p.SameReading (fun _ => True) place)
          (do
            let read ← readExpression .builtin fuel (p.sizedClosers place) 0 x.expr x.rest
            readStray .builtin fuel (p.sizedClosers place) (juxtapose e read.expr) read.rest)
          (do
            let read ← readExpression .builtin fuel (p.plainClosers place) 0 y.expr y.rest
            readStray .builtin fuel (p.plainClosers place) (juxtapose e read.expr) read.rest) := by
        intro x y hxy
        rw [hxy.1]
        refine Agree.bind (ih.expression hxy.2) fun x y _ _ hxy => ?_
        rw [hxy.1]
        exact ih.stray hxy.2
      refine Agree.bind (ih.primary h) fun x y hx hy hxy => ?_
      have hread := (Forward.all .builtin fuel).primary hy
      by_cases hmissing : y.expr.isMissing = true
      · rw [if_pos ((ReadsPrimary.test ((Forward.all .builtin fuel).primary hx)).mpr (hxy.1 ▸ hmissing)),
          if_pos (hread.test.mpr hmissing)]
        -- Nothing was read of an operator alone, which is the same on both sides.
        have hoperator : ∃ q, b.precedence .builtin = .ok (some q) := by
          rcases hread with ⟨_, _, -, -, hfound⟩ | ⟨-, hstays⟩
          · rw [hmissing] at hfound
            cases hfound
          · rcases hstays b rfl with hcloses | hq
            · rw [hclosed] at hcloses
              exact absurd (Except.ok.inj hcloses) hopen
            · exact hq
        obtain ⟨q, hq⟩ := hoperator
        obtain ⟨rfl, hrest⟩ := h.tail fun hb => by rw [hb.precedence] at hq; cases hq
        have hfirst : Agree F (p.SameReading (fun _ => True) place) (a.unexpected.map fun u => (⟨l, u⟩ : Reading))
            (a.unexpected.map fun u => (⟨r, u⟩ : Reading)) :=
          Agree.map (.refl (R := Eq) (fun _ => rfl) _) fun _ _ huv => ⟨huv, hrest.imp fun _ => trivial⟩
        exact Agree.bind hfirst fun _ _ _ _ hxy => on hxy
      · rw [if_neg fun hlength => hmissing (hxy.1 ▸ (ReadsPrimary.test ((Forward.all .builtin fuel).primary hx)).mp hlength),
          if_neg fun hlength => hmissing (hread.test.mp hlength)]
        exact on (hxy.imp fun _ => False.elim)

end

/-! ### All functions -/

/-- One more unit of fuel keeps all functions alike. -/
theorem ReadsAlike.succ (ih : p.ReadsAlike F fuel) : p.ReadsAlike F (fuel + 1) where
  sequence := reads_sequence ih
  stray := reads_stray ih
  expression := reads_expression ih
  tighter := reads_tighter ih
  primary := reads_primary ih
  neighbours := reads_neighbours ih
  application := reads_application ih
  operand := reads_operand ih
  fence := reads_fence ih
  closing := reads_closing ih
  function := reads_function ih
  symbol := reads_symbol ih
  marked := reads_marked ih
  number := reads_number ih
  mixed := reads_mixed ih
  scripts := reads_scripts ih
  marks := reads_marks ih

theorem ReadsAlike.all : ∀ fuel, p.ReadsAlike F fuel
  | 0 => by
    constructor
    all_goals
      intros
      exact .inr (.inr rfl)
  | fuel + 1 => (ReadsAlike.all fuel).succ

/-- Whole rows. -/
theorem ofAtoms_alike (hl : unspaced l = p.front ++ p.sizedRow) (hr : unspaced r = p.front ++ p.plainRow) :
    ofAtoms .builtin l = ofAtoms .builtin r := by
  have hrows : p.Rows True .outside (unspaced l) (unspaced r) := by
    rw [hl, hr]
    cases hfront : p.front with
    | nil => exact .here trivial
    | cons a q => exact .ahead (by rw [hfront, List.nil_append] : p.front = [] ++ a :: q)
  -- fuel that is enough for both rows
  let fuel := 32 * (listSize l + listSize r) + 10
  have whole : ∀ {row : List Atom}, listSize row ≤ listSize l + listSize r → ofAtoms .builtin row = (do
      let read ← readSequence .builtin fuel [] (unspaced row)
      return read.expr) := fun {row} hsize => by
    have henough : 32 * listSize row + 10 ≤ fuel + 1 := by omega
    rw [ofAtoms_eq, ← ofSequence_eq .builtin henough]
    simp only [Expr.ofSequence]
    rfl
  have hread : Agree (fun _ => False) Eq (ofAtoms .builtin l) (ofAtoms .builtin r) := by
    rw [whole (by omega), whole (by omega)]
    exact Agree.bind ((ReadsAlike.all fuel).sequence hrows) fun _ _ _ _ hxy => hxy.1
  exact hread.eq (fun _ _ h => h) fun _ _ h => h

end SizedPair

end Formula
