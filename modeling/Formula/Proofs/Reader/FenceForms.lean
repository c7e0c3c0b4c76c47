import Formula.Proofs.Reader.FenceReading

/-!
# The two forms of a fence are one construct

The functions of the reader that open and close fences, and the loops around them, read a row with a fence in its two
forms alike.  So all functions do, with any fuel (`FencePair.Alike.all`), and whole sequences have the same expression
in both forms.
-/

namespace Formula

open Atom Expr Outcome

namespace FencePair

variable {F : Fault → Prop} {P : FencePair F} {c : Catalog} {fuel : Nat}

/-! ### What opens and what closes -/

theorem closes_opening {a : Atom} (ht : a.type = .opening ∨ a.type = .fenced) {k : Closer} (h : IsCloser k) :
    a.closes k = .ok false := by
  refine if_neg fun heq => ?_
  have hk := h.1
  rw [← heq] at hk
  rcases ht with ht | ht <;> rw [ht] at hk <;> simp at hk

theorem closes_of_text {a : Atom} {g : String} (ht : a.type = .closing) (htext : a.text = .ok (.text g)) :
    a.closes ⟨.closing, some g⟩ = .ok true ∧ a.glyph = .ok (.text g) := by
  have hglyph : a.glyph = .ok (.text g) := by
    unfold Atom.glyph
    rw [if_neg (by rw [ht]; decide), htext]
  refine ⟨?_, hglyph⟩
  unfold Atom.closes
  rw [if_pos ht, hglyph]
  show Except.ok (g == g) = _
  rw [beq_self_eq_true]

/-- Inside of the fence only opening atoms open one, and wait for their partner. -/
theorem Inside.of_opener {stack : List String} {behind l r : List Atom} {a : Atom} {left : Datum} {closer : Closer}
    (h : P.Inside stack behind (a :: l) (a :: r)) (ha : a.opener? = .ok (some (left, closer))) :
    ∃ p, closer = ⟨.closing, some p⟩ ∧ P.Inside (p :: stack) behind l r := by
  have hplain := h.plain a List.mem_cons_self
  cases opens_of_opener? ha with
  | bracket ho htext hp =>
    obtain ⟨t, p, htext', hp', hin⟩ := h.opening ho
    cases htext.symm.trans htext'
    obtain rfl : _ = some p := (Except.ok.inj hp).symm.trans hp'
    exact ⟨p, rfl, hin⟩
  | textual ht htext hp =>
    obtain ⟨-, t, hmem, rfl⟩ := mem_of_lookup_partners hp
    unfold isLooseDelimiter at hplain
    rw [List.any_eq_true.mpr ⟨t, hmem, spelled_iff.mpr htext⟩, ht] at hplain
    cases hplain
  | sized ht =>
    unfold isLooseDelimiter at hplain
    rw [ht] at hplain
    cases hplain

section

variable (ih : P.Alike c fuel)
include ih

/-! ### Fences -/

theorem alike_closing {a : Atom} {left : Datum} {closer : Closer} {closers : List Closer} {inner : Expr}
    {l r : List Atom} (ha : a.opener? = .ok (some (left, closer))) (h : P.Sides l r) :
    Agree F (P.SameReading (.outside closers)) (readClosing c (fuel + 1) left closer inner l)
      (Grammar.closing c left closer inner r) := by
  have hcloser := isCloser_of_opener? ha
  have unclosed : ∀ {l r : List Atom}, P.Rows (.outside closers) l r → Agree F (P.SameReading (.outside closers))
      (do readScripts c fuel none (← delimited left (.text (closer.glyph.getD "")) inner) l)
      (do Grammar.scripts c none (← delimited left (.text (closer.glyph.getD "")) inner) r) :=
    fun h => .ask fun e _ => ih.scripts (by exact trivial) h
  have hrows : P.Rows (.outside closers) l r := h
  cases hrows.view with
  | nil =>
    rw [Grammar.closing_nil c ha]
    simp only [readClosing]
    exact unclosed hrows
  | stop =>
    rcases h with heq | ⟨front, behind, -, heq, -⟩
    · cases heq
    · cases front <;> cases heq
  | fence =>
    rw [Grammar.closing_cons c ha]
    simp only [readClosing]
    rw [closes_opening (.inl P.opening_type) hcloser, closes_opening (.inr P.fenced_type) hcloser]
    exact unclosed hrows
  | same b l r =>
    rw [Grammar.closing_cons c ha]
    simp only [readClosing]
    refine .ask fun closed _ => .choice (fun _ => ?_) fun _ => unclosed hrows
    exact .ask fun glyph _ => .ask fun e _ => ih.scripts (SameOwner.refl (some b)) hrows.tail_outside

theorem alike_closingInside {a : Atom} {left : Datum} {g : String} {outer : List Closer} {stack : List String}
    {behind : List Atom} {inner : Expr} {b : Atom} {l r : List Atom}
    (ha : a.opener? = .ok (some (left, ⟨.closing, some g⟩))) (h : P.Inside (g :: stack) behind (b :: l) (b :: r))
    (hb : b.type = .closing) :
    Agree F (P.SameReading (.inside outer stack behind))
      (readClosing c (fuel + 1) left ⟨.closing, some g⟩ inner (b :: l))
      (Grammar.closing c left ⟨.closing, some g⟩ inner (b :: r)) := by
  obtain ⟨p, more, heq, htext, -, hin⟩ := h.closing hb
  obtain ⟨rfl, rfl⟩ := List.cons.inj heq
  obtain ⟨hcloses, hglyph⟩ := closes_of_text hb htext
  rw [Grammar.closing_cons c ha]
  simp only [readClosing]
  rw [hcloses, hglyph]
  show Agree F _ (delimited left (.text g) inner >>= _) (delimited left (.text g) inner >>= _)
  exact .ask fun e _ => ih.scripts (SameOwner.refl (some b)) (m := .inside outer stack behind) hin

/-- At the closing atom both sides have the fence read. -/
theorem alike_pairClosing (closers : List Closer) (behind : List Atom) (inner : Expr) :
    Agree F (P.SameReading (.outside closers))
      (readClosing c (fuel + 1) (.text P.left) P.closer inner (P.closing :: behind))
      (do
        let e ← delimited (P.fenced.leftDelim.orElse ".") (P.fenced.rightDelim.orElse ".") inner
        Grammar.scripts c (some P.fenced) e behind) := by
  have named : ∀ e ∈ Glyph.partners, (Datum.text e.1).isVoid = false ∧ (Datum.text e.2).isVoid = false := by decide
  obtain ⟨before, after, heq, -⟩ := List.lookup_eq_some_iff.mp P.partner
  obtain ⟨hleft, hright⟩ := named (P.left, P.right) (heq ▸ List.mem_append_right _ List.mem_cons_self)
  have hleft : (Datum.text P.left).orElse "." = .text P.left := if_neg (by rw [hleft]; decide)
  have hright : (Datum.text P.right).orElse "." = .text P.right := if_neg (by rw [hright]; decide)
  simp only [readClosing]
  rw [P.closes_closing, (closes_of_text P.closing_type P.closing_text).2, P.leftDelim, P.rightDelim, hleft, hright]
  have hrows : P.Rows (.outside closers) behind behind := .inl rfl
  exact .ask fun e _ => ih.scripts (by exact ⟨P.superscript.symm, P.subscript.symm⟩) hrows

theorem alike_fence {m : Mode} {a : Atom} {l r : List Atom} (hm : m.Sound) (h : P.Rows m (a :: l) (a :: r))
    (htail : a.type ≠ .opening → P.Rows m l r) :
    Agree F (P.SameReading m) (readFence c (fuel + 1) (P.leftClosers m) a l) (Grammar.fence c (rightClosers m) a r) := by
  rw [Grammar.fence_eq]
  simp only [readFence]
  refine .choice (fun hfenced => ?_) fun _ => .ask fun opened hopened => ?_
  · refine Agree.bind (ih.nested (.inl rfl)) fun inner _ _ _ heq => ?_
    subst heq
    exact .ask fun e _ => alike_behind ih (SameOwner.refl (some a)) (htail (by rw [hfenced]; decide))
  · cases opened with
    | none => exact ih.symbol h (htail (type_of_opener?_none hopened))
    | some opened =>
      obtain ⟨left, closer⟩ := opened
      cases m with
      | outside closers =>
        have hsound : (Mode.outside (closers ++ [closer])).Sound := by
          intro k hk
          rcases List.mem_append.mp hk with hk | hk
          · exact hm k hk
          · exact List.mem_singleton.mp hk ▸ isCloser_of_opener? hopened
        refine Agree.bind (ih.sequence (m := .outside (closers ++ [closer])) hsound h.tail_outside) fun x y _ _ hxy => ?_
        rw [hxy.1]
        exact Agree.bind (ih.closing hopened hxy.2) fun x y _ _ hxy => hxy.1 ▸ ih.marks hxy.2
      | inside outer stack behind =>
        obtain ⟨p, rfl, hin⟩ := Inside.of_opener h hopened
        have hleft : P.leftClosers (.inside outer stack behind) ++ [⟨.closing, some p⟩] =
            P.leftClosers (.inside outer (p :: stack) behind) := by
          simp [leftClosers, closersOf_cons]
        have hright : rightClosers (.inside outer stack behind) ++ [⟨.closing, some p⟩] =
            rightClosers (.inside outer (p :: stack) behind) := (closersOf_cons p stack).symm
        dsimp only
        rw [hleft, hright]
        refine Agree.bind (ih.sequence (m := .inside outer (p :: stack) behind) hm hin) fun x y _ hy hxy => ?_
        obtain ⟨l', e⟩ := x
        obtain ⟨r', e'⟩ := y
        obtain ⟨rfl, hrest⟩ : e = e' ∧ P.Inside (p :: stack) behind l' r' := hxy
        -- The row goes on up to what closes the fence, since it nests.
        rcases ((Forward.all c _).sequence hy).2 with rfl | ⟨b, rest, rfl, hclosed⟩
        · cases hrest.nests
        · obtain ⟨l', rfl⟩ : ∃ l, l' = b :: l := ⟨_, hrest.eq⟩
          have hb : b.type = .closing := by
            by_cases hb : b.type = .closing
            · exact hb
            · have hopen : b.closesAny (closersOf (p :: stack)) = .ok false := closesAny_eq_false fun k hk => by
                obtain ⟨g, -, rfl⟩ := List.mem_map.mp hk
                exact hb
              rw [rightClosers, hopen] at hclosed
              cases hclosed
          exact Agree.bind (ih.closingInside hopened hrest hb) fun x y _ _ hxy => hxy.1 ▸ ih.marks hxy.2

theorem alike_pairFence {closers : List Closer} {behind : List Atom} (hm : (Mode.outside closers).Sound)
    (hkeyed : ∀ a ∈ behind, a.Keyed F) :
    Agree F (P.SameReading (.outside closers)) (readFence c (fuel + 1) closers P.opening (P.row ++ P.closing :: behind))
      (Grammar.fence c closers P.fenced behind) := by
  have hin : P.Inside [] behind (P.row ++ P.closing :: behind) P.row :=
    ⟨rfl, P.nests, fun g hg => absurd hg List.not_mem_nil, P.plain, P.keyed, hkeyed⟩
  rw [Grammar.fence_eq, if_pos P.fenced_type, P.fenced_body, Grammar.nested_eq, Grammar.whole_eq]
  simp only [readFence, bind_assoc, pure_bind]
  rw [if_neg (by rw [P.opening_type]; decide), P.opener?_opening]
  show Agree F _ (readSequence c fuel (closers ++ [P.closer]) _ >>= _) _
  refine Agree.bind (ih.sequence (m := .inside closers [] behind) hm hin) fun x y _ hy hxy => ?_
  obtain ⟨l, e⟩ := x
  obtain ⟨r, e'⟩ := y
  obtain ⟨rfl, hrest⟩ : e = e' ∧ P.Inside [] behind l r := hxy
  obtain rfl : r = [] := ((Forward.all c _).sequence hy).2.nil_of_no_closers
  obtain rfl : l = P.closing :: behind := hrest.eq
  have hclosed := Agree.bind (Q := P.SameReading (.outside closers)) (ih.pairClosing closers behind e)
    (g := fun read => readPostfix c fuel read.expr read.rest) (k := fun read => Grammar.marks c read.expr read.rest)
    fun x y _ _ hxy => hxy.1 ▸ ih.marks hxy.2
  rw [bind_assoc] at hclosed
  exact hclosed

/-! ### Operands -/

theorem alike_pairOperand {closers : List Closer} {behind : List Atom} (hm : (Mode.outside closers).Sound)
    (hkeyed : ∀ a ∈ behind, a.Keyed F) :
    Agree F (P.SameReading (.outside closers))
      (readOperand c (fuel + 1) closers P.opening (P.row ++ P.closing :: behind))
      (Grammar.operand c closers P.fenced behind) := by
  have number : ∀ {a : Atom} (rest : List Atom), IsBracket a → Expr.startsNumber (a :: rest) = .ok false := by
    intro a rest ha
    rw [Expr.startsNumber, ha.isSolitary.isDigit, if_neg (ha.type_ne (by decide))]
    rfl
  have sign : ∀ {a : Atom}, IsBracket a → a.sign? c = .ok none := fun ha => if_neg (ha.type_ne (by decide))
  rw [Grammar.operand_eq]
  simp only [readOperand]
  refine Agree.left (startsWithDigraph?_bracket P.opening_bracket (P.keyed_behind_opening hkeyed) _) ?_
  rintro _ - rfl
  refine Agree.right (startsWithDigraph?_bracket P.fenced_bracket hkeyed _) ?_
  rintro _ - rfl
  dsimp only
  rw [sign P.opening_bracket, sign P.fenced_bracket, P.opening_bracket.isPlaceholder, P.fenced_bracket.isPlaceholder,
    number _ P.opening_bracket, number _ P.fenced_bracket, P.opening_type, P.fenced_type]
  exact ih.pairFence hm hkeyed

theorem alike_operand {m : Mode} {a : Atom} {l r : List Atom} (hm : m.Sound) (h : P.Rows m (a :: l) (a :: r))
    (hopen : a.closesAny (rightClosers m) = .ok false) :
    Agree F (P.SameReading m) (readOperand c (fuel + 1) (P.leftClosers m) a l)
      (Grammar.operand c (rightClosers m) a r) := by
  have htail : a.type ≠ .opening → P.Rows m l r := h.tail_open hopen
  have function : a.type ≠ .opening → Agree F (P.SameReading m)
      (do if ← a.isFunction c then readFunction c fuel (P.leftClosers m) a l else readSymbol c fuel a l)
      (do if ← a.isFunction c then Grammar.function c (rightClosers m) a r else Grammar.symbol c a r) := by
    intro ht
    refine .ask fun is his => .choice (fun h => ?_) fun _ => ih.symbol h (htail ht)
    subst h
    exact ih.function hm (htail ht) his
  rw [Grammar.operand_eq]
  simp only [readOperand]
  refine Agree.bind (h.digraph _) fun found _ _ hfound heq => ?_
  subst heq
  cases found with
  | some name =>
    obtain ⟨b, l, r, rfl, rfl, hbehind⟩ := h.of_digraph hfound
    exact Agree.bind (ih.primary hm hbehind) fun x y _ _ hxy => ⟨congrArg (apply name) hxy.1, hxy.2⟩
  | none =>
    refine .ask fun sign hsign => ?_
    cases sign with
    | some sign =>
      have ht := type_of_sign? hsign
      have htail := htail (by rw [ht]; decide)
      exact Agree.bind (ih.primary hm htail) fun x y _ _ hxy => ⟨congrArg (withSign sign) hxy.1, hxy.2⟩
    | none =>
      refine .choice (fun hp => ?_) fun hp => ?_
      · have ht := type_of_isPlaceholder hp
        exact ih.scripts (SameOwner.refl (some a)) (htail (by rw [ht]; decide))
      rw [h.startsNumber]
      refine .ask fun starts hstarts => .choice (fun hs => ?_) fun _ => ?_
      · subst hs
        have ht := type_of_startsNumber hstarts
        exact ih.number h (htail (by rw [ht]; decide)) (by simpa using hp) hstarts
      cases ht : a.type with
      | fraction => exact ih.marked (htail (by rw [ht]; decide))
      | radical => exact ih.marked (htail (by rw [ht]; decide))
      | font => exact ih.marked (htail (by rw [ht]; decide))
      | text => exact ih.marked (htail (by rw [ht]; decide))
      | fenced => exact ih.fence hm h htail
      | opening => exact ih.fence hm h htail
      | sized => exact ih.fence hm h htail
      | operator => exact function (by rw [ht]; decide)
      | ordinary => exact function (by rw [ht]; decide)
      | textual =>
        have htail := htail (by rw [ht]; decide)
        refine .ask fun is his => .choice (fun hf => ?_) fun _ => .ask fun opened _ => ?_
        · subst hf
          exact ih.function hm htail his
        · cases opened with
          | some _ => exact ih.fence hm h fun _ => htail
          | none => exact ih.symbol h htail
      | _ => exact ih.symbol h (htail (by rw [ht]; decide))

/-! ### Neighbours and primaries -/

/-- An operand that multiplies what is before it, and those behind it. -/
theorem alike_factor {m : Mode} (hm : m.Sound) {a b : Atom} {l r : List Atom} {e : Expr}
    (h : Agree F (P.SameReading m) (readOperand c fuel (P.leftClosers m) a l) (Grammar.operand c (rightClosers m) b r)) :
    Agree F (P.SameReading m)
      (do
        let read ← readOperand c fuel (P.leftClosers m) a l
        if read.expr.isMissing || read.rest.length = (a :: l).length then return ⟨read.rest, e⟩
        else readNeighbours c fuel (P.leftClosers m) (between "*" e read.expr) read.rest)
      (do
        let read ← Grammar.operand c (rightClosers m) b r
        if read.expr.isMissing || read.rest.length = (b :: r).length then return ⟨read.rest, e⟩
        else Grammar.neighbours c (rightClosers m) (between "*" e read.expr) read.rest) := by
  refine Agree.bind h fun x y hx hy hxy => ?_
  have hleft := ReadsOperand.test ((Forward.all c fuel).operand hx)
  have hright := ReadsOperand.test ((Forward.all c _).operand hy)
  rw [hleft, hright, hxy.1]
  exact .choice (fun _ => ⟨rfl, hxy.2⟩) fun _ => ih.neighbours hm hxy.2

/-- A call is read in the same way whatever the rows begin with, and so is what there is without one. -/
theorem alike_called {m : Mode} {e : Expr} {l r : List Atom} (hm : m.Sound) (h : P.Rows m l r) {s t : Outcome Reading}
    (hst : Agree F (P.SameReading m) s t) : Agree F (P.SameReading m)
      (do
        match ← readCall c fuel e l with
        | some read => readNeighbours c fuel (P.leftClosers m) read.expr read.rest
        | none => s)
      (do
        match ← Grammar.application c e r with
        | some read => Grammar.neighbours c (rightClosers m) read.expr read.rest
        | none => t) := by
  refine Agree.bind (ih.application h) fun found found' _ _ hfound => ?_
  cases found with
  | none =>
    cases found' with
    | none => exact hst
    | some y => exact hfound.elim
  | some x =>
    cases found' with
    | none => exact hfound.elim
    | some y =>
      dsimp only
      rw [hfound.1]
      exact ih.neighbours hm hfound.2

theorem alike_neighbours {m : Mode} {e : Expr} {l r : List Atom} (hm : m.Sound) (h : P.Rows m l r) :
    Agree F (P.SameReading m) (readNeighbours c (fuel + 1) (P.leftClosers m) e l)
      (Grammar.neighbours c (rightClosers m) e r) := by
  cases h.view with
  | nil =>
    rw [Grammar.neighbours_nil]
    simp only [readNeighbours]
    exact ⟨rfl, h⟩
  | stop hcloses =>
    rw [Grammar.neighbours_nil]
    simp only [readNeighbours]
    rw [startsOperand_of_closed hcloses]
    exact ⟨rfl, h⟩
  | @fence closers behind heq hkeyed =>
    subst heq
    rw [Grammar.neighbours_cons]
    simp only [readNeighbours]
    have hleft : P.opening.startsOperand c (P.leftClosers (.outside closers)) = .ok true :=
      startsOperand_bracket P.opening_bracket (.inl P.opening_type) hm
    have hright : P.fenced.startsOperand c (rightClosers (.outside closers)) = .ok true :=
      startsOperand_bracket P.fenced_bracket (.inr P.fenced_type) hm
    rw [hleft, hright]
    exact alike_called ih hm h (alike_factor ih hm (ih.pairOperand hm hkeyed))
  | same a l r =>
    rw [Grammar.neighbours_cons]
    simp only [readNeighbours]
    refine Agree.bind (h.startsOperand hm) fun starts _ _ hstarts heq => ?_
    subst heq
    refine .choice (fun hs => ?_) fun _ => ⟨rfl, h⟩
    subst hs
    exact alike_called ih hm h (alike_factor ih hm (ih.operand hm h (open_of_startsOperand hstarts)))

theorem alike_primary {m : Mode} {l r : List Atom} (hm : m.Sound) (h : P.Rows m l r) :
    Agree F (P.SameReading m) (readPrimary c (fuel + 1) (P.leftClosers m) l) (Grammar.primary c (rightClosers m) r) := by
  have on : ∀ {a b : Atom} {l r : List Atom},
      Agree F (P.SameReading m) (readOperand c fuel (P.leftClosers m) a l) (Grammar.operand c (rightClosers m) b r) →
      Agree F (P.SameReading m)
        (do
          let read ← readOperand c fuel (P.leftClosers m) a l
          if read.expr.isMissing then return read
          readNeighbours c fuel (P.leftClosers m) read.expr read.rest)
        (do
          let read ← Grammar.operand c (rightClosers m) b r
          if read.expr.isMissing then return read
          Grammar.neighbours c (rightClosers m) read.expr read.rest) := by
    intro a b l r h
    refine Agree.bind h fun x y _ _ hxy => ?_
    rw [hxy.1]
    exact .choice (fun _ => hxy) fun _ => ih.neighbours hm hxy.2
  cases h.view with
  | nil =>
    rw [Grammar.primary_nil]
    simp only [readPrimary]
    exact ⟨rfl, h⟩
  | stop hcloses =>
    rw [Grammar.primary_nil]
    simp only [readPrimary]
    rw [hcloses]
    exact ⟨rfl, h⟩
  | @fence closers behind heq hkeyed =>
    subst heq
    rw [Grammar.primary_cons]
    simp only [readPrimary]
    have hleft : P.opening.closesAny (P.leftClosers (.outside closers)) = .ok false :=
      closesAny_opening (.inl P.opening_type) hm
    have hright : P.fenced.closesAny (rightClosers (.outside closers)) = .ok false :=
      closesAny_opening (.inr P.fenced_type) hm
    rw [hleft, hright]
    exact on (ih.pairOperand hm hkeyed)
  | same a l r =>
    rw [Grammar.primary_cons]
    simp only [readPrimary]
    refine Agree.bind (h.closesAny hm) fun closed _ _ hclosed heq => ?_
    subst heq
    refine .choice (fun _ => ⟨rfl, h⟩) fun hopen => ?_
    have hopen : a.closesAny (rightClosers m) = .ok false := by rw [hclosed]; simp at hopen; rw [hopen]
    exact on (ih.operand hm h hopen)

/-! ### Operators and sequences -/

theorem alike_expression {m : Mode} {least : Int} {e : Expr} {l r : List Atom} (hm : m.Sound) (h : P.Rows m l r) :
    Agree F (P.SameReading m) (readExpression c (fuel + 1) (P.leftClosers m) least e l)
      (Grammar.expression c (rightClosers m) least e r) := by
  cases h.view with
  | nil =>
    rw [Grammar.expression_nil]
    simp only [readExpression]
    exact ⟨rfl, h⟩
  | stop hcloses =>
    rw [Grammar.expression_nil]
    simp only [readExpression]
    rw [P.closing_bracket.precedence]
    exact ⟨rfl, h⟩
  | fence =>
    rw [Grammar.expression_cons]
    simp only [readExpression]
    rw [P.opening_bracket.precedence, P.fenced_bracket.precedence]
    exact ⟨rfl, h⟩
  | same a l r =>
    rw [Grammar.expression_cons]
    simp only [readExpression]
    refine .ask fun precedence hprecedence => ?_
    cases precedence with
    | none => exact ⟨rfl, h⟩
    | some p =>
      refine .choice (fun _ => ⟨rfl, h⟩) fun _ => .ask fun op _ => ?_
      have htail : P.Rows m l r := by
        rcases h.tail_or_bracket with htail | ⟨ha, -⟩
        · exact htail
        · rw [ha.precedence] at hprecedence
          cases hprecedence
      refine Agree.bind (ih.primary hm htail) fun x y _ _ hxy => ?_
      rw [hxy.1]
      refine Agree.bind (ih.tighter hm hxy.2) fun x y _ _ hxy => ?_
      rw [hxy.1]
      exact ih.expression hm hxy.2

theorem alike_tighter {m : Mode} {precedence : Int} {e : Expr} {l r : List Atom} (hm : m.Sound) (h : P.Rows m l r) :
    Agree F (P.SameReading m) (readTighter c (fuel + 1) (P.leftClosers m) precedence e l)
      (Grammar.tighter c (rightClosers m) precedence e r) := by
  rw [Grammar.tighter_eq]
  simp only [readTighter]
  rw [h.operator]
  refine .ask fun next _ => ?_
  cases next with
  | none => exact ⟨rfl, h⟩
  | some next =>
    refine .choice (fun _ => ⟨rfl, h⟩) fun _ => ?_
    exact Agree.bind (ih.expression hm h) fun x y _ _ hxy => hxy.1 ▸ ih.tighter hm hxy.2

theorem alike_sequence {m : Mode} {l r : List Atom} (hm : m.Sound) (h : P.Rows m l r) :
    Agree F (P.SameReading m) (readSequence c (fuel + 1) (P.leftClosers m) l)
      (Grammar.sequence c (rightClosers m) r) := by
  rw [Grammar.sequence_eq]
  simp only [readSequence]
  refine Agree.bind (ih.primary hm h) fun x y _ _ hxy => ?_
  rw [hxy.1]
  exact Agree.bind (ih.expression hm hxy.2) fun x y _ _ hxy => hxy.1 ▸ ih.stray hm hxy.2

/-- One round of the loop behind an expression: of a bracket that opens a fence a primary is read. -/
theorem alike_round {m : Mode} (hm : m.Sound) {a b : Atom} {l r : List Atom} (h : P.Rows m (a :: l) (b :: r))
    (hab : a = b ∧ P.Rows m l r ∨ IsBracket b ∧ b.closesAny (rightClosers m) = .ok false) {e : Expr} :
    Agree F (P.SameReading m)
      (do
        let read ← readPrimary c fuel (P.leftClosers m) (a :: l)
        let first : Reading ←
          if read.rest.length = (a :: l).length then a.unexpected.map fun u => ⟨l, u⟩ else pure read
        let read ← readExpression c fuel (P.leftClosers m) 0 first.expr first.rest
        readStray c fuel (P.leftClosers m) (juxtapose e read.expr) read.rest)
      (do
        let read ← Grammar.primary c (rightClosers m) (b :: r)
        let first : Reading ←
          if read.rest.length = (b :: r).length then b.unexpected.map fun u => ⟨r, u⟩ else pure read
        let read ← Grammar.expression c (rightClosers m) 0 first.expr first.rest
        Grammar.stray c (rightClosers m) (juxtapose e read.expr) read.rest) := by
  have on : ∀ {x y : Reading}, P.SameReading m x y → Agree F (P.SameReading m)
      (do
        let read ← readExpression c fuel (P.leftClosers m) 0 x.expr x.rest
        readStray c fuel (P.leftClosers m) (juxtapose e read.expr) read.rest)
      (do
        let read ← Grammar.expression c (rightClosers m) 0 y.expr y.rest
        Grammar.stray c (rightClosers m) (juxtapose e read.expr) read.rest) := by
    intro x y hxy
    rw [hxy.1]
    refine Agree.bind (ih.expression hm hxy.2) fun x y _ _ hxy => ?_
    rw [hxy.1]
    exact ih.stray hm hxy.2
  refine Agree.bind (ih.primary hm h) fun x y hx hy hxy => ?_
  have hleft := ReadsPrimary.test ((Forward.all c fuel).primary hx)
  have hread := (Forward.all c _).primary hy
  have hright := ReadsPrimary.test hread
  by_cases hmissing : y.expr.isMissing = true
  · rw [if_pos (hleft.mpr (hxy.1 ▸ hmissing)), if_pos (hright.mpr hmissing)]
    rcases hab with ⟨rfl, htail⟩ | ⟨hb, hopen⟩
    · have hfirst : Agree F (P.SameReading m) (a.unexpected.map fun u => (⟨l, u⟩ : Reading))
          (a.unexpected.map fun u => (⟨r, u⟩ : Reading)) :=
        Agree.map (.refl (R := Eq) (fun _ => rfl) _) fun _ _ huv => ⟨huv, htail⟩
      exact Agree.bind hfirst fun _ _ _ _ hxy => on hxy
    · rcases hread with ⟨_, _, -, -, hfound⟩ | ⟨rfl, hstays⟩
      · rw [hmissing] at hfound
        cases hfound
      · rcases hstays b rfl with hclosed | ⟨p, hp⟩
        · rw [hopen] at hclosed
          cases hclosed
        · rw [hb.precedence] at hp
          cases hp
  · rw [if_neg fun h => hmissing (hxy.1 ▸ hleft.mp h), if_neg fun h => hmissing (hright.mp h)]
    exact on hxy

theorem alike_stray {m : Mode} {e : Expr} {l r : List Atom} (hm : m.Sound) (h : P.Rows m l r) :
    Agree F (P.SameReading m) (readStray c (fuel + 1) (P.leftClosers m) e l) (Grammar.stray c (rightClosers m) e r) := by
  cases h.view with
  | nil =>
    rw [Grammar.stray_nil]
    simp only [readStray]
    exact ⟨rfl, h⟩
  | stop hcloses =>
    rw [Grammar.stray_nil]
    simp only [readStray]
    rw [hcloses]
    exact ⟨rfl, h⟩
  | @fence closers behind heq hkeyed =>
    subst heq
    rw [Grammar.stray_cons]
    simp only [readStray]
    have hleft : P.opening.closesAny (P.leftClosers (.outside closers)) = .ok false :=
      closesAny_opening (.inl P.opening_type) hm
    have hright : P.fenced.closesAny (rightClosers (.outside closers)) = .ok false :=
      closesAny_opening (.inr P.fenced_type) hm
    rw [hleft, hright]
    exact alike_round ih hm h (.inr ⟨P.fenced_bracket, hright⟩)
  | same a l r =>
    rw [Grammar.stray_cons]
    simp only [readStray]
    refine Agree.bind (h.closesAny hm) fun closed _ _ hclosed heq => ?_
    subst heq
    refine .choice (fun _ => ⟨rfl, h⟩) fun hopen => ?_
    have hopen : a.closesAny (rightClosers m) = .ok false := by rw [hclosed]; simp at hopen; rw [hopen]
    rcases h.tail_or_bracket with htail | ⟨ha, -⟩
    · exact alike_round ih hm h (.inl ⟨rfl, htail⟩)
    · exact alike_round ih hm h (.inr ⟨ha, hopen⟩)

end

/-! ### All functions -/

/-- One more unit of fuel keeps all functions alike. -/
theorem Alike.succ (ih : P.Alike c fuel) : P.Alike c (fuel + 1) where
  whole := alike_whole ih
  nested := alike_nested ih
  parts := alike_parts ih
  atom := alike_atom ih
  sequence := alike_sequence ih
  stray := alike_stray ih
  expression := alike_expression ih
  tighter := alike_tighter ih
  primary := alike_primary ih
  operand := alike_operand ih
  symbol := alike_symbol ih
  marked := alike_marked ih
  number := alike_number ih
  mixed := alike_mixed ih
  function := alike_function ih
  fence := alike_fence ih
  closing := alike_closing ih
  closingInside := alike_closingInside ih
  pairClosing := alike_pairClosing ih
  pairFence := alike_pairFence ih
  pairOperand := alike_pairOperand ih
  scripts := alike_scripts ih
  attached := alike_attached ih
  marks := alike_marks ih
  neighbours := alike_neighbours ih
  application := alike_application ih

/-- Without fuel both sides may be alike in any way. -/
theorem Alike.zero (hF : F .recursion) : P.Alike c 0 := by
  constructor
  all_goals
    intros
    exact Agree.of_left hF _

theorem Alike.all (hF : F .recursion) : ∀ fuel, P.Alike c fuel
  | 0 => .zero hF
  | fuel + 1 => (Alike.all hF fuel).succ

/-- Sequences that have a fence in its two forms are read alike. -/
theorem ofAtoms_alike (hF : F .recursion) {l r : List Atom} (h : P.Sides (unspaced l) (unspaced r)) :
    Agree F Eq (ofAtoms c l) (ofAtoms c r) := by
  rw [ofAtoms_eq c r]
  exact (Alike.all hF _).whole h

end FencePair

/-! ### Whole sequences -/

/-- The atoms are a fence with the glyphs `left` and `right`: an opening and a closing one around the body, and one that
holds it. -/
structure IsFence (left right : String) (body : List Atom) (first last one : Atom) : Prop where
  partner : Glyph.partners.lookup left = some right
  opening : first.type = .opening ∧ first.text = .ok (.text left)
  closing : last.type = .closing ∧ last.text = .ok (.text right)
  fenced : one.type = .fenced ∧ one.text = .ok (.text "") ∧ one.body = some body
  delimiters : one.leftDelim = .text left ∧ one.rightDelim = .text right
  scripts : one.superscript = last.superscript ∧ one.subscript = last.subscript

/-- The fences of the body nest, and none of its delimiters is of another kind. -/
def WellFenced (body : List Atom) : Prop := Atom.nests [] body = true ∧ ∀ a ∈ body, a.isLooseDelimiter = false

/-- Spaces change nothing about how a row nests. -/
theorem nests_unspaced {row : List Atom} {stack : List String} (h : Atom.nests stack row = true) :
    Atom.nests stack (unspaced row) = true := by
  induction row generalizing stack with
  | nil => exact h
  | cons a row ih =>
    by_cases hs : a.type = .spacing
    · rw [unspaced_cons_of_spacing hs]
      exact ih (FencePair.nests_other (by rw [hs]; decide) (by rw [hs]; decide) h)
    rw [unspaced_cons_of_ne hs]
    rw [Atom.nests.eq_def] at h ⊢
    dsimp only at h ⊢
    split at h
    · cases hp : a.partner? with
      | none =>
        rw [hp] at h
        cases h
      | some p =>
        rw [hp] at h
        exact ih h
    · cases stack with
      | nil => cases h
      | cons p more =>
        have h : (a.spelled p && Atom.nests more row) = true := h
        rw [Bool.and_eq_true] at h
        show (a.spelled p && Atom.nests more (unspaced row)) = true
        rw [h.1, ih h.2]
        rfl
    · exact ih h

/-- The two forms of a fence, with faults that may be on one side alone. -/
def IsFence.pair {left right : String} {body : List Atom} {first last one : Atom}
    (h : IsFence left right body first last one) (hbody : WellFenced body) {F : Fault → Prop}
    (hkeyed : ∀ a ∈ body, a.Keyed F) : FencePair F where
  opening := first
  closing := last
  fenced := one
  left := left
  right := right
  body := body
  partner := h.partner
  opening_type := h.opening.1
  opening_text := h.opening.2
  closing_type := h.closing.1
  closing_text := h.closing.2
  fenced_type := h.fenced.1
  fenced_text := h.fenced.2.1
  fenced_body := h.fenced.2.2
  leftDelim := h.delimiters.1
  rightDelim := h.delimiters.2
  superscript := h.scripts.1
  subscript := h.scripts.2
  nests := nests_unspaced hbody.1
  plain a ha := hbody.2 a (List.mem_filter.mp ha).1
  keyed a ha := hkeyed a (List.mem_filter.mp ha).1

/-- Rows with the fence in its two forms, without their spaces. -/
theorem IsFence.sides {left right : String} {body : List Atom} {first last one : Atom}
    (h : IsFence left right body first last one) (hbody : WellFenced body) {F : Fault → Prop}
    (hkeyed : ∀ a ∈ body, a.Keyed F) (front : List Atom) {behind : List Atom} (hbehind : ∀ a ∈ behind, a.Keyed F) :
    (h.pair hbody hkeyed).Sides (unspaced (front ++ first :: (body ++ last :: behind)))
      (unspaced (front ++ one :: behind)) := by
  refine .inr ⟨unspaced front, unspaced behind, ?_, ?_, fun a ha => hbehind a (List.mem_filter.mp ha).1⟩
  · rw [unspaced_append, unspaced_cons_of_ne (by simp [h.opening.1]), unspaced_append,
      unspaced_cons_of_ne (by simp [h.closing.1])]
    rfl
  · rw [unspaced_append, unspaced_cons_of_ne (by simp [h.fenced.1])]
    rfl

/-- If the spellings of the atoms in the fence and behind it can be looked up, both forms have one outcome. -/
theorem IsFence.ofAtoms_eq (c : Catalog) {left right : String} {body : List Atom} {first last one : Atom}
    (h : IsFence left right body first last one) (hbody : WellFenced body) (front behind : List Atom)
    (hkeyed : ∀ a ∈ body ++ behind, ∃ d k, a.text = .ok d ∧ d.key = .ok k) :
    ofAtoms c (front ++ first :: (body ++ last :: behind)) = ofAtoms c (front ++ one :: behind) := by
  have keyed : ∀ a ∈ body ++ behind, a.Keyed (· = .recursion) := by
    intro a ha
    obtain ⟨d, k, htext, hkey⟩ := hkeyed a ha
    unfold Atom.Keyed
    rw [htext]
    exact within_ok (.of_eq_ok hkey trivial)
  have hsides := h.sides hbody (fun a ha => keyed a (List.mem_append_left _ ha)) front
    fun a (ha : a ∈ behind) => keyed a (List.mem_append_right _ ha)
  have ends : ∀ (row : List Atom) (f : Fault), ofAtoms c row = .error f → f ≠ .recursion :=
    fun row f hf => (ofAtoms_ends c row).of_error hf
  exact (FencePair.ofAtoms_alike (F := (· = .recursion)) rfl hsides).eq (ends _) (ends _)

/-- **A plain fence and a fence that fits its height are one construct.**  For every catalog, whatever stands in front of
the fence and behind it: if both forms are read, they have the same expression; and if the spellings of the atoms in the
fence and behind it can be looked up, as every text can, one form is read exactly if the other is, with the same
outcome. -/
theorem ofAtoms_fence_forms (c : Catalog) {left right : String} {body : List Atom} {first last one : Atom}
    (h : IsFence left right body first last one) (hbody : WellFenced body) (front behind : List Atom) :
    (∀ e e', ofAtoms c (front ++ first :: (body ++ last :: behind)) = .ok e →
      ofAtoms c (front ++ one :: behind) = .ok e' → e = e') ∧
    ((∀ a ∈ body ++ behind, ∃ d k, a.text = .ok d ∧ d.key = .ok k) →
      ofAtoms c (front ++ first :: (body ++ last :: behind)) = ofAtoms c (front ++ one :: behind)) := by
  constructor
  · intro e e' he he'
    have all : ∀ a : Atom, a.Keyed fun _ => True := fun a =>
      within_of_forall (fun _ => trivial) (fun t => within_of_forall (fun _ => trivial) (fun _ => trivial) _) _
    have hsides := h.sides hbody (fun a _ => all a) front fun a (_ : a ∈ behind) => all a
    exact (FencePair.ofAtoms_alike trivial hsides).of_ok he he'
  · exact h.ofAtoms_eq c hbody front behind

/-- The call `f(x, y)` with its fence as two atoms and as one. -/
theorem ofAtoms_fence_call : ∃ body first last one, IsFence "(" ")" body first last one ∧ WellFenced body ∧ ∃ e,
    ofAtoms .builtin ([{ type := .ordinary, value := .text "f" }] ++ one :: []) = .ok e ∧
      ofAtoms .builtin ([{ type := .ordinary, value := .text "f" }] ++ first :: (body ++ last :: [])) = .ok e := by
  let body : List Atom := [{ type := .ordinary, value := .text "x" }, { type := .punctuation, value := .text "," },
    { type := .ordinary, value := .text "y" }]
  have h : IsFence "(" ")" body { type := .opening, value := .text "(" } { type := .closing, value := .text ")" }
      { type := .fenced, body := some body, leftDelim := .text "(", rightDelim := .text ")" } :=
    ⟨rfl, ⟨rfl, rfl⟩, ⟨rfl, rfl⟩, ⟨rfl, rfl, rfl⟩, ⟨rfl, rfl⟩, ⟨rfl, rfl⟩⟩
  have hall : ∀ a ∈ body, a.isLooseDelimiter = false ∧ ∃ d k, a.text = .ok d ∧ d.key = .ok k := by
    intro a ha
    rcases List.mem_cons.mp ha with rfl | ha
    · exact ⟨rfl, _, _, rfl, rfl⟩
    rcases List.mem_cons.mp ha with rfl | ha
    · exact ⟨rfl, _, _, rfl, rfl⟩
    · obtain rfl := List.mem_singleton.mp ha
      exact ⟨rfl, _, _, rfl, rfl⟩
  have hbody : WellFenced body := ⟨rfl, fun a ha => (hall a ha).1⟩
  refine ⟨body, _, _, _, h, hbody, _, rfl, ?_⟩
  rw [(ofAtoms_fence_forms .builtin h hbody _ []).2 fun a ha => (hall a (by rwa [List.append_nil] at ha)).2]
  rfl

end Formula
