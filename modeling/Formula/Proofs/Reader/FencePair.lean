import Formula.Proofs.Reader.Brackets

/-!
# A fence as two atoms and as one

A fence may stand in a row as an opening atom, what is between, and a closing atom, or as one atom that holds what is
between.  `FencePair` is such a pair of forms, and `Rows` relates the rows that the reader meets when it reads the one
and the other: outside of the fence they differ in its form (`Sides`), and inside of it the one row goes on behind the
closing atom where the other is at its end.

The reader asks of both rows the same questions and gets the same answers, one lemma for each question; an answer may
differ by a fault in `F`, where one side looks at the spelling of a neighbour that the other does not have.
-/

namespace Formula

open Atom Expr Outcome

/-- A fence in its two forms. -/
structure FencePair (F : Fault → Prop) where
  opening : Atom
  closing : Atom
  fenced : Atom
  left : String
  right : String
  body : List Atom
  partner : Glyph.partners.lookup left = some right
  opening_type : opening.type = .opening
  opening_text : opening.text = .ok (.text left)
  closing_type : closing.type = .closing
  closing_text : closing.text = .ok (.text right)
  fenced_type : fenced.type = .fenced
  fenced_text : fenced.text = .ok (.text "")
  fenced_body : fenced.body = some body
  leftDelim : fenced.leftDelim = .text left
  rightDelim : fenced.rightDelim = .text right
  superscript : fenced.superscript = closing.superscript
  subscript : fenced.subscript = closing.subscript
  nests : nests [] (unspaced body) = true
  plain : ∀ a ∈ unspaced body, a.isLooseDelimiter = false
  keyed : ∀ a ∈ unspaced body, a.Keyed F

/-- The fences of the stack wait for their partners, the innermost at the end. -/
def closersOf (stack : List String) : List Closer := stack.reverse.map fun g => ⟨.closing, some g⟩

theorem closersOf_cons (g : String) (stack : List String) :
    closersOf (g :: stack) = closersOf stack ++ [⟨.closing, some g⟩] := by
  simp [closersOf]

/-- Where the two readings are: inside of the fence, within the fences of the stack and with what stands behind the
closing atom, or outside. -/
inductive Mode where
  | inside (outer : List Closer) (stack : List String) (behind : List Atom)
  | outside (closers : List Closer)

/-- The closers outside of the fence are such that a reader has. -/
def Mode.Sound : Mode → Prop
  | .inside outer _ _ => ∀ k ∈ outer, IsCloser k
  | .outside closers => ∀ k ∈ closers, IsCloser k

namespace FencePair

variable {F : Fault → Prop} (P : FencePair F) {c : Catalog}

/-- What is between the two atoms. -/
def row : List Atom := unspaced P.body

/-- What the opening atom waits for. -/
def closer : Closer := ⟨.closing, some P.right⟩

/-- The rows are the same, or one has the fence as two atoms where the other has it as one. -/
def Sides (l r : List Atom) : Prop :=
  l = r ∨ ∃ front behind, l = front ++ P.opening :: (P.row ++ P.closing :: behind) ∧ r = front ++ P.fenced :: behind ∧
    ∀ a ∈ behind, a.Keyed F

/-- The closers of the reading in which the fence is two atoms. -/
def leftClosers : Mode → List Closer
  | .inside outer stack _ => outer ++ P.closer :: closersOf stack
  | .outside closers => closers

/-- The closers of the reading in which the fence is one atom. -/
def rightClosers : Mode → List Closer
  | .inside _ stack _ => closersOf stack
  | .outside closers => closers

/-- One row goes on behind the closing atom where the other is at its end, and the fences of the stack are open. -/
structure Inside (stack : List String) (behind l r : List Atom) : Prop where
  eq : l = r ++ P.closing :: behind
  nests : Atom.nests stack r = true
  glyphs : ∀ g ∈ stack, g ∈ Glyph.closers
  plain : ∀ a ∈ r, a.isLooseDelimiter = false
  keyed : ∀ a ∈ r, a.Keyed F
  behind : ∀ a ∈ behind, a.Keyed F

/-- The rows that the two readings have in front of them. -/
def Rows : Mode → List Atom → List Atom → Prop
  | .inside _ stack behind, l, r => P.Inside stack behind l r
  | .outside _, l, r => P.Sides l r

/-! ### Brackets of the fence -/

theorem opening_bracket : IsBracket P.opening := ⟨.inl P.opening_type, P.left, P.opening_text, (not_mem_of_partner P.partner).1⟩

theorem closing_bracket : IsBracket P.closing :=
  ⟨.inr (.inl P.closing_type), P.right, P.closing_text, (not_mem_of_partner P.partner).2⟩

theorem fenced_bracket : IsBracket P.fenced := ⟨.inr (.inr P.fenced_type), "", P.fenced_text, by decide⟩

theorem closes_closing : P.closing.closes P.closer = .ok true := by
  have hglyph : P.closing.glyph = .ok (.text P.right) := by
    unfold Atom.glyph
    rw [if_neg (by rw [P.closing_type]; decide), P.closing_text]
  unfold Atom.closes closer
  rw [if_pos P.closing_type, hglyph]
  show Except.ok (P.right == P.right) = _
  rw [beq_self_eq_true]

theorem opener?_opening : P.opening.opener? = .ok (some (.text P.left, P.closer)) := by
  unfold Atom.opener?
  rw [P.opening_type, P.opening_text]
  show Except.ok (some (Datum.text P.left, (⟨.closing, Glyph.partners.lookup P.left⟩ : Closer))) = _
  rw [P.partner]
  rfl

/-- What is between the atoms has their glyphs as keys, and so has what is behind them. -/
theorem keyed_behind_opening {behind : List Atom} (h : ∀ a ∈ behind, a.Keyed F) :
    ∀ a ∈ P.row ++ P.closing :: behind, a.Keyed F := by
  intro a ha
  rcases List.mem_append.mp ha with ha | ha
  · exact P.keyed a ha
  · rcases List.mem_cons.mp ha with rfl | ha
    · exact P.closing_bracket.keyed
    · exact h a ha

/-! ### Sides -/

theorem Sides.unspaced {l r : List Atom} (h : P.Sides l r) : P.Sides (unspaced l) (Atom.unspaced r) := by
  rcases h with rfl | ⟨front, behind, rfl, rfl, hkeyed⟩
  · exact .inl rfl
  · refine .inr ⟨Atom.unspaced front, Atom.unspaced behind, ?_, ?_, fun a ha => hkeyed a (List.mem_filter.mp ha).1⟩
    · have hrow : Atom.unspaced P.row = P.row := unspaced_unspaced P.body
      have hopening : (Atom.unspaced (P.opening :: (P.row ++ P.closing :: behind))) =
          P.opening :: (P.row ++ P.closing :: Atom.unspaced behind) := by
        rw [unspaced_cons_of_ne (by simp [P.opening_type]), unspaced_append, hrow,
          unspaced_cons_of_ne (by simp [P.closing_type])]
      rw [unspaced_append, hopening]
    · rw [unspaced_append, unspaced_cons_of_ne (by simp [P.fenced_type])]

/-- What two such rows begin with. -/
inductive View (m : Mode) : List Atom → List Atom → Prop
  | nil : View m [] []
  | stop {behind : List Atom} : P.closing.closesAny (P.leftClosers m) = .ok true → (∀ a ∈ behind, a.Keyed F) →
      View m (P.closing :: behind) []
  | fence {closers : List Closer} {behind : List Atom} : m = .outside closers → (∀ a ∈ behind, a.Keyed F) →
      View m (P.opening :: (P.row ++ P.closing :: behind)) (P.fenced :: behind)
  | same (a : Atom) (l r : List Atom) : View m (a :: l) (a :: r)

/-- An atom that closes one of the fences closes any of them. -/
theorem closesAny_of_mem {a : Atom} {g : String} (htype : a.type = .closing) (htext : a.text = .ok (.text g)) :
    ∀ {closers : List Closer}, (⟨.closing, some g⟩ : Closer) ∈ closers → a.closesAny closers = .ok true
  | k :: rest, h => by
    have hglyph : a.glyph = .ok (.text g) := by
      unfold Atom.glyph
      rw [if_neg (by rw [htype]; decide), htext]
    have hself : a.closes ⟨.closing, some g⟩ = .ok true := by
      unfold Atom.closes
      rw [if_pos htype, hglyph]
      show Except.ok (g == g) = _
      rw [beq_self_eq_true]
    unfold Atom.closesAny
    rcases List.mem_cons.mp h with rfl | hmem
    · rw [hself]
      rfl
    · have hrest := closesAny_of_mem htype htext hmem
      have hone : ∃ is, a.closes k = .ok is := by
        unfold Atom.closes
        rw [hglyph]
        by_cases hk : a.type = k.type
        · rw [if_pos hk]
          exact ⟨_, rfl⟩
        · rw [if_neg hk]
          exact ⟨_, rfl⟩
      obtain ⟨is, his⟩ := hone
      rw [his, hrest]
      cases is <;> rfl

theorem Rows.view {m : Mode} {l r : List Atom} (h : P.Rows m l r) : P.View m l r := by
  cases m with
  | outside closers =>
    rcases h with rfl | ⟨front, behind, rfl, rfl, hkeyed⟩
    · cases l with
      | nil => exact .nil
      | cons a l => exact .same a l l
    · cases front with
      | nil => exact .fence rfl hkeyed
      | cons a front => exact .same a _ _
  | inside outer stack behind =>
    obtain rfl := Inside.eq h
    cases r with
    | nil =>
      refine .stop (closesAny_of_mem P.closing_type P.closing_text ?_) h.behind
      exact List.mem_append_right _ List.mem_cons_self
    | cons a r => exact .same a _ r

/-! ### Tails -/

theorem nests_opening {a : Atom} {rest : List Atom} {stack : List String} (ht : a.type = .opening)
    (h : Atom.nests stack (a :: rest) = true) :
    ∃ t p, a.text = .ok (.text t) ∧ Glyph.partners.lookup t = some p ∧ Atom.nests (p :: stack) rest = true := by
  rw [Atom.nests.eq_def] at h
  dsimp only at h
  rw [ht] at h
  dsimp only at h
  split at h
  · rename_i p hp
    unfold partner? at hp
    split at hp
    · rename_i t htext
      exact ⟨t, p, htext, hp, h⟩
    · cases hp
  · cases h

theorem nests_closing {a : Atom} {rest : List Atom} {stack : List String} (ht : a.type = .closing)
    (h : Atom.nests stack (a :: rest) = true) :
    ∃ p more, stack = p :: more ∧ a.text = .ok (.text p) ∧ Atom.nests more rest = true := by
  rw [Atom.nests.eq_def] at h
  dsimp only at h
  rw [ht] at h
  cases stack with
  | nil => cases h
  | cons p more =>
    have h : (a.spelled p && Atom.nests more rest) = true := h
    rw [Bool.and_eq_true] at h
    exact ⟨p, more, rfl, spelled_iff.mp h.1, h.2⟩

theorem nests_other {a : Atom} {rest : List Atom} {stack : List String} (ho : a.type ≠ .opening) (hc : a.type ≠ .closing)
    (h : Atom.nests stack (a :: rest) = true) : Atom.nests stack rest = true := by
  rw [Atom.nests.eq_def] at h
  dsimp only at h
  split at h
  · exact absurd ‹_› ho
  · exact absurd ‹_› hc
  · exact h

variable {P}

/-- What opens a fence inside is waited for by its partner. -/
theorem Inside.opening {stack : List String} {behind l r : List Atom} {a : Atom} (h : P.Inside stack behind (a :: l) (a :: r))
    (ht : a.type = .opening) :
    ∃ t p, a.text = .ok (.text t) ∧ Glyph.partners.lookup t = some p ∧ P.Inside (p :: stack) behind l r := by
  obtain ⟨t, p, htext, hp, hnests⟩ := nests_opening ht h.nests
  refine ⟨t, p, htext, hp, ⟨(List.cons.inj h.eq).2, hnests, fun g hg => ?_, fun b hb => ?_, fun b hb => ?_, h.behind⟩⟩
  · rcases List.mem_cons.mp hg with rfl | hg
    · obtain ⟨front, back, heq, -⟩ := List.lookup_eq_some_iff.mp hp
      exact List.mem_map.mpr ⟨(t, g), heq ▸ List.mem_append_right _ List.mem_cons_self, rfl⟩
    · exact h.glyphs g hg
  · exact h.plain b (List.mem_cons_of_mem _ hb)
  · exact h.keyed b (List.mem_cons_of_mem _ hb)

/-- What closes a fence inside is the glyph that the innermost fence waits for. -/
theorem Inside.closing {stack : List String} {behind l r : List Atom} {a : Atom} (h : P.Inside stack behind (a :: l) (a :: r))
    (ht : a.type = .closing) :
    ∃ p more, stack = p :: more ∧ a.text = .ok (.text p) ∧ p ∈ Glyph.closers ∧ P.Inside more behind l r := by
  obtain ⟨p, more, rfl, htext, hnests⟩ := nests_closing ht h.nests
  refine ⟨p, more, rfl, htext, h.glyphs p List.mem_cons_self, ⟨(List.cons.inj h.eq).2, hnests, ?_, ?_, ?_, h.behind⟩⟩
  · exact fun g hg => h.glyphs g (List.mem_cons_of_mem _ hg)
  · exact fun b hb => h.plain b (List.mem_cons_of_mem _ hb)
  · exact fun b hb => h.keyed b (List.mem_cons_of_mem _ hb)

theorem Inside.other {stack : List String} {behind l r : List Atom} {a : Atom} (h : P.Inside stack behind (a :: l) (a :: r))
    (ho : a.type ≠ .opening) (hc : a.type ≠ .closing) : P.Inside stack behind l r where
  eq := (List.cons.inj h.eq).2
  nests := nests_other ho hc h.nests
  glyphs := h.glyphs
  plain b hb := h.plain b (List.mem_cons_of_mem _ hb)
  keyed b hb := h.keyed b (List.mem_cons_of_mem _ hb)
  behind := h.behind

theorem Rows.tail_outside {closers : List Closer} {a : Atom} {l r : List Atom}
    (h : P.Rows (.outside closers) (a :: l) (a :: r)) : P.Rows (.outside closers) l r := by
  rcases h with heq | ⟨front, behind, hl, hr, hkeyed⟩
  · obtain ⟨-, rfl⟩ := List.cons.inj heq
    exact .inl rfl
  · cases front with
    | nil =>
      have hopening : P.opening = P.fenced := (List.cons.inj hl).1.symm.trans (List.cons.inj hr).1
      have := P.opening_type
      rw [hopening, P.fenced_type] at this
      cases this
    | cons b front => exact .inr ⟨front, behind, (List.cons.inj hl).2, (List.cons.inj hr).2, hkeyed⟩

theorem Rows.tail {m : Mode} {a : Atom} {l r : List Atom} (h : P.Rows m (a :: l) (a :: r)) (ho : a.type ≠ .opening)
    (hc : a.type ≠ .closing) : P.Rows m l r := by
  cases m with
  | outside closers => exact h.tail_outside
  | inside outer stack behind => exact Inside.other h ho hc

/-- Behind an atom the rows go on alike, or it is a bracket inside of the fence. -/
theorem Rows.tail_or_bracket {m : Mode} {a : Atom} {l r : List Atom} (h : P.Rows m (a :: l) (a :: r)) :
    P.Rows m l r ∨ (IsBracket a ∧ (∀ b ∈ l, b.Keyed F) ∧ ∀ b ∈ r, b.Keyed F) := by
  cases m with
  | outside closers => exact .inl h.tail_outside
  | inside outer stack behind =>
    have hin : P.Inside stack behind (a :: l) (a :: r) := h
    have hr : ∀ b ∈ r, b.Keyed F := fun b hb => hin.keyed b (List.mem_cons_of_mem _ hb)
    have hl : ∀ b ∈ l, b.Keyed F := by
      rw [(List.cons.inj hin.eq).2]
      intro b hb
      rcases List.mem_append.mp hb with hb | hb
      · exact hr b hb
      · rcases List.mem_cons.mp hb with rfl | hb
        · exact P.closing_bracket.keyed
        · exact hin.behind b hb
    by_cases ho : a.type = .opening
    · obtain ⟨t, p, ht, hp, -⟩ := hin.opening ho
      exact .inr ⟨⟨.inl ho, t, ht, (not_mem_of_partner hp).1⟩, hl, hr⟩
    · by_cases hc : a.type = .closing
      · obtain ⟨p, more, -, ht, hp, -⟩ := hin.closing hc
        obtain ⟨e, he, rfl⟩ := List.mem_map.mp hp
        have hlookup : ∀ e ∈ Glyph.partners, Glyph.partners.lookup e.1 = some e.2 := by decide
        exact .inr ⟨⟨.inr (.inl hc), e.2, ht, (not_mem_of_partner (hlookup e he)).2⟩, hl, hr⟩
      · exact .inl (h.tail ho hc)

/-! ### Operators and numerals -/

section

variable {m : Mode} {l r : List Atom}

theorem Rows.operator (h : P.Rows m l r) : operator? c l = operator? c r := by
  cases h.view with
  | nil => rfl
  | stop => exact P.closing_bracket.precedence
  | fence => exact P.opening_bracket.precedence.trans P.fenced_bracket.precedence.symm
  | same a l r => rfl

theorem Rows.startsWithDigit (h : P.Rows m l r) : startsWithDigit l = startsWithDigit r := by
  cases h.view with
  | nil => rfl
  | stop => exact P.closing_bracket.isSolitary.isDigit
  | fence => exact P.opening_bracket.isSolitary.isDigit.trans P.fenced_bracket.isSolitary.isDigit.symm
  | same a l r => rfl

theorem Rows.startsWithExponent (h : P.Rows m l r) : startsWithExponent l = startsWithExponent r := by
  have quiet : ∀ {a : Atom} (rest : List Atom), IsBracket a → Atom.startsWithExponent (a :: rest) = .ok false := by
    intro a rest ha
    show (a.isDigit >>= _) = _
    rw [ha.isSolitary.isDigit]
    show (a.signOf? >>= _) = _
    rw [ha.isSolitary.signOf?]
    rfl
  cases h.view with
  | nil => rfl
  | stop => exact quiet _ P.closing_bracket
  | fence => exact (quiet _ P.opening_bracket).trans (quiet _ P.fenced_bracket).symm
  | same a l r =>
    rcases h.tail_or_bracket with htail | ⟨ha, -⟩
    · unfold Atom.startsWithExponent
      dsimp only
      rw [htail.startsWithDigit]
      rfl
    · exact (quiet l ha).trans (quiet r ha).symm

theorem Rows.startsNumber {a : Atom} (h : P.Rows m (a :: l) (a :: r)) :
    Expr.startsNumber (a :: l) = Expr.startsNumber (a :: r) := by
  rw [Expr.startsNumber, Expr.startsNumber]
  rcases h.tail_or_bracket with htail | ⟨ha, -⟩
  · rw [htail.startsWithDigit]
  · rw [if_neg (ha.type_ne (by decide)), if_neg (ha.type_ne (by decide))]

theorem Rows.numeralStep {a : Atom} (h : P.Rows m (a :: l) (a :: r)) (state : NumeralState) (before : Bool) :
    numeralStep state before a l = numeralStep state before a r := by
  rcases h.tail_or_bracket with htail | ⟨ha, -⟩
  · unfold Atom.numeralStep
    rw [htail.startsWithDigit, htail.startsWithExponent]
  · rw [ha.isSolitary.numeralStep, ha.isSolitary.numeralStep]

/-- The numerals are the same, and the rows go on alike behind them. -/
def SameNumeral (m : Mode) (x y : NumeralReading) : Prop := x.chars = y.chars ∧ x.last = y.last ∧ P.Rows m x.rest y.rest

theorem Rows.scanNumeralFrom (h : P.Rows m l r) (state : NumeralState) (chars : List Char) (last : Option Atom) :
    Agree F (SameNumeral (P := P) m) (scanNumeralFrom state chars last l) (scanNumeralFrom state chars last r) := by
  induction r generalizing l state chars last with
  | nil =>
    cases h.view with
    | nil => exact ⟨rfl, rfl, h⟩
    | stop =>
      show Agree F _ (Atom.numeralStep state _ P.closing _ >>= _) _
      rw [P.closing_bracket.isSolitary.numeralStep]
      exact ⟨rfl, rfl, h⟩
  | cons b r ih =>
    cases h.view with
    | fence =>
      rw [Atom.scanNumeralFrom, Atom.scanNumeralFrom, P.opening_bracket.isSolitary.numeralStep, P.fenced_bracket.isSolitary.numeralStep]
      exact ⟨rfl, rfl, h⟩
    | same _ l _ =>
      rw [Atom.scanNumeralFrom, Atom.scanNumeralFrom, h.numeralStep]
      refine .ask fun found hfound => ?_
      cases found with
      | none => exact ⟨rfl, rfl, h⟩
      | some step =>
        rcases h.tail_or_bracket with htail | ⟨hb, -⟩
        · exact .choice (fun _ => ⟨rfl, rfl, htail⟩) (fun _ => ih htail _ _ _)
        · rw [hb.isSolitary.numeralStep] at hfound
          cases hfound

theorem Rows.scanNumeral (h : P.Rows m l r) : Agree F (SameNumeral (P := P) m) (scanNumeral l) (scanNumeral r) :=
  h.scanNumeralFrom _ _ _

/-! ### Digraphs -/

theorem Rows.digraph (h : P.Rows m l r) (names : List String) :
    Agree F Eq (startsWithDigraph? names l) (startsWithDigraph? names r) := by
  cases h.view with
  | nil => exact .refl (fun _ => rfl) _
  | stop hcloses hkeyed => exact .of_within (startsWithDigraph?_bracket P.closing_bracket hkeyed names) (within_ok rfl)
  | fence hm hkeyed =>
    exact .of_within (startsWithDigraph?_bracket P.opening_bracket (P.keyed_behind_opening hkeyed) names)
      (startsWithDigraph?_bracket P.fenced_bracket hkeyed names)
  | same a l r =>
    rcases h.tail_or_bracket with htail | ⟨ha, hl, hr⟩
    · cases htail.view with
      | nil => exact .refl (fun _ => rfl) _
      | stop =>
        have hkeyed : a.Keyed F := by
          cases m with
          | outside closers =>
            rcases htail with heq | ⟨front, behind, -, hr, -⟩
            · cases heq
            · cases front <;> cases hr
          | inside outer stack behind => exact Inside.keyed h a List.mem_cons_self
        refine .of_within (Within.bind (P.closing_bracket.isSolitary.digraph?_right_within hkeyed) ?_) (within_ok rfl)
        rintro _ rfl
        exact within_ok rfl
      | fence =>
        show Agree F Eq (digraph? a P.opening >>= _) (digraph? a P.fenced >>= _)
        rw [P.opening_bracket.isSolitary.digraph?_right, P.fenced_bracket.isSolitary.digraph?_right]
        exact .refl (fun _ => rfl) _
      | same b l r => exact .refl (fun _ => rfl) _
    · exact .of_within (startsWithDigraph?_bracket ha hl names) (startsWithDigraph?_bracket ha hr names)

/-- A digraph is two atoms that both rows begin with. -/
theorem Rows.of_digraph {a : Atom} (h : P.Rows m (a :: l) (a :: r)) {names : List String} {name : String}
    (hfound : startsWithDigraph? names (a :: r) = .ok (some name)) :
    ∃ b l' r', l = b :: l' ∧ r = b :: r' ∧ P.Rows m l' r' := by
  have none_of_bracket : ∀ {b c : Atom} (rest : List Atom), IsBracket b ∨ IsBracket c →
      startsWithDigraph? names (b :: c :: rest) ≠ .ok (some name) := by
    intro b c rest hbc heq
    obtain ⟨found, hdigraph, heq⟩ := bind_eq_ok.mp heq
    cases found with
    | none => cases heq
    | some found =>
      rcases hbc with hb | hc
      · exact hb.isSolitary.digraph?_left_ne _ _ hdigraph
      · exact hc.isSolitary.digraph?_right_ne _ _ hdigraph
  rcases h.tail_or_bracket with htail | ⟨ha, -⟩
  · cases htail.view with
    | nil => cases hfound
    | stop => cases hfound
    | fence => exact absurd hfound (none_of_bracket _ (.inr P.fenced_bracket))
    | same b l r =>
      rcases htail.tail_or_bracket with htail' | ⟨hb, -⟩
      · exact ⟨b, l, r, rfl, rfl, htail'⟩
      · exact absurd hfound (none_of_bracket _ (.inr hb))
  · cases r with
    | nil => cases hfound
    | cons b r => exact absurd hfound (none_of_bracket _ (.inl ha))

/-! ### Fences -/

theorem Rows.closesAny {a : Atom} (h : P.Rows m (a :: l) (a :: r)) (hm : m.Sound) :
    Agree F Eq (a.closesAny (P.leftClosers m)) (a.closesAny (rightClosers m)) := by
  cases m with
  | outside closers => exact .refl (fun _ => rfl) _
  | inside outer stack behind =>
    have hin : P.Inside stack behind (a :: l) (a :: r) := h
    by_cases hc : a.type = .closing
    · obtain ⟨p, more, rfl, ht, -⟩ := hin.closing hc
      have hmem : (⟨.closing, some p⟩ : Closer) ∈ closersOf (p :: more) := by simp [closersOf]
      have hmem' : (⟨.closing, some p⟩ : Closer) ∈ outer ++ P.closer :: closersOf (p :: more) :=
        List.mem_append_right _ (List.mem_cons_of_mem _ hmem)
      exact .of_within (.of_eq_ok (closesAny_of_mem hc ht hmem') rfl) (.of_eq_ok (closesAny_of_mem hc ht hmem) rfl)
    · -- no other atom inside closes a fence: it is none of those outside, nor does it look like what they wait for
      have hstack : ∀ k ∈ P.closer :: closersOf stack, a.type ≠ k.type := by
        intro k hk
        rcases List.mem_cons.mp hk with rfl | hk
        · exact hc
        · obtain ⟨g, -, rfl⟩ := List.mem_map.mp hk
          exact hc
      have hplain := hin.plain a List.mem_cons_self
      have hkeyed := hin.keyed a List.mem_cons_self
      have left : ∀ closers : List Closer, (∀ k ∈ closers, IsCloser k) →
          (a.closesAny (closers ++ P.closer :: closersOf stack)).Within F (· = false) := by
        intro closers hclosers
        induction closers with
        | nil => exact .of_eq_ok (closesAny_eq_false hstack) rfl
        | cons k closers ih =>
          have hone : (a.closes k).Within F (· = false) := by
            obtain ⟨htype, hglyph⟩ := hclosers k List.mem_cons_self
            unfold Atom.closes
            by_cases heq : a.type = k.type
            · rw [if_pos heq]
              by_cases htextual : k.type = .textual
              · obtain ⟨g, hg, hk⟩ := hglyph htextual
                have htext : a.glyph = a.text := if_neg (by rw [heq, htextual]; decide)
                rw [htext, hk]
                refine (hkeyed.and_ok fun t ht => ht).bind fun t ht => within_ok ?_
                refine Bool.eq_false_iff.mpr fun hisText => ?_
                have hspelled : a.spelled g = true := by
                  unfold Atom.spelled
                  rw [ht.2]
                  exact hisText
                unfold isLooseDelimiter at hplain
                rw [heq, htextual, Bool.or_eq_false_iff, Bool.and_eq_false_iff] at hplain
                rcases hplain.2 with hfalse | hnone
                · cases hfalse
                · have := List.any_eq_false.mp hnone g (List.mem_append_right _ hg)
                  exact this hspelled
              · unfold isLooseDelimiter at hplain
                rw [heq] at hplain hc
                simp only [List.mem_cons, List.not_mem_nil, or_false, htextual, hc, false_or] at htype
                rw [htype] at hplain
                cases hplain
            · rw [if_neg heq]
              exact within_ok rfl
          refine Within.bind hone ?_
          rintro _ rfl
          exact ih fun k hk => hclosers k (List.mem_cons_of_mem _ hk)
      have hright : ∀ k ∈ closersOf stack, a.type ≠ k.type := fun k hk => hstack k (List.mem_cons_of_mem _ hk)
      exact .of_within (left outer hm) (.of_eq_ok (closesAny_eq_false hright) rfl)

/-- Where an atom closes no fence, the rows go on alike behind it unless it opens one. -/
theorem Rows.tail_open {a : Atom} (h : P.Rows m (a :: l) (a :: r)) (hopen : a.closesAny (rightClosers m) = .ok false)
    (ho : a.type ≠ .opening) : P.Rows m l r := by
  cases m with
  | outside closers => exact h.tail_outside
  | inside outer stack behind =>
    have hin : P.Inside stack behind (a :: l) (a :: r) := h
    refine hin.other ho fun hc => ?_
    obtain ⟨p, more, rfl, ht, -⟩ := hin.closing hc
    have hmem : (⟨.closing, some p⟩ : Closer) ∈ closersOf (p :: more) := by simp [closersOf]
    have hclosed : a.closesAny (closersOf (p :: more)) = .ok false := hopen
    rw [closesAny_of_mem hc ht hmem] at hclosed
    cases hclosed

/-- A bracket that does not close a fence closes none. -/
theorem closesAny_opening {a : Atom} (ht : a.type = .opening ∨ a.type = .fenced) {closers : List Closer}
    (h : ∀ k ∈ closers, IsCloser k) : a.closesAny closers = .ok false := by
  refine closesAny_eq_false fun k hk heq => ?_
  have hk := (h k hk).1
  rw [← heq] at hk
  rcases ht with ht | ht <;> rw [ht] at hk <;> simp at hk

theorem Rows.startsOperand {a : Atom} (h : P.Rows m (a :: l) (a :: r)) (hm : m.Sound) :
    Agree F Eq (a.startsOperand c (P.leftClosers m)) (a.startsOperand c (rightClosers m)) := by
  refine (h.closesAny hm).bind fun closed _ _ _ heq => ?_
  subst heq
  exact .refl (fun _ => rfl) _

theorem startsOperand_bracket {a : Atom} (ha : IsBracket a) (ht : a.type = .opening ∨ a.type = .fenced)
    {closers : List Closer} (h : ∀ k ∈ closers, IsCloser k) : a.startsOperand c closers = .ok true := by
  unfold Atom.startsOperand
  rw [closesAny_opening ht h, ha.precedence, ha.isPlaceholder]
  rcases ht with ht | ht <;> rw [ht] <;> rfl

end

end FencePair

end Formula
