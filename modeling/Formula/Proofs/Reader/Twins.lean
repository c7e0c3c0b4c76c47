import Formula.Proofs.Reader.FenceArguments
import Formula.Proofs.Reader.Spaces

/-!
# Rows that are read alike

The scripts of an operand may stand on its last atom, or on a placeholder behind it.  `Twins` relates two rows without
spaces that differ in this, and in spaces inside of their atoms: atom by atom they are the same, but where one row has an
operand with scripts the other may have it without them and a placeholder that carries them.

Where the reader asks what stands next, the one row shows what is behind the operand and the other the placeholder.  To
every such question a placeholder is the same answer as scripts are: no numeral goes on with it, and no digraph.  Only the
second atom of a prefix digraph takes no scripts, so an operand is not parted from its scripts behind such a first atom
(`Clear`).
-/

namespace Formula

open Atom Expr Outcome

/-- The operands that take the scripts of a placeholder behind them: constructs, names of functions, and symbols. -/
inductive TakesScripts (c : Catalog) (b : Atom) : Prop
  | construct : b.type ∈ [.fraction, .radical, .font, .text, .fenced] → TakesScripts c b
  | function : b.type = .operator → b.isFunction c = .ok true → TakesScripts c b
  | symbol : b.type = .ordinary → b.isPlaceholder = false → b.text ≠ .ok (.text ",") →
    (∀ p, b.precedence c ≠ .ok (some p)) → TakesScripts c b

namespace TakesScripts

variable {c : Catalog} {b : Atom}

theorem type_mem (h : TakesScripts c b) :
    b.type ∈ [.fraction, .radical, .font, .text, .fenced, .operator, .ordinary] := by
  cases h with
  | construct ht => exact List.mem_append_left [AtomType.operator, .ordinary] ht
  | function ht => simp [ht]
  | symbol ht => simp [ht]

theorem type_ne (h : TakesScripts c b) {t : AtomType}
    (ht : t ∉ [.fraction, .radical, .font, .text, .fenced, .operator, .ordinary]) : b.type ≠ t := by
  rintro rfl
  exact ht h.type_mem

/-- Such an operand is no operator. -/
theorem precedence_ne (h : TakesScripts c b) (p : Int) : b.precedence c ≠ .ok (some p) := by
  intro hp
  cases h with
  | construct ht =>
    have hnone : b.precedence c = .ok none := if_neg (by
      simp only [List.mem_cons, List.not_mem_nil, or_false] at ht
      rcases ht with ht | ht | ht | ht | ht <;> rw [ht] <;> decide)
    rw [hnone] at hp
    cases hp
  | function ht hf =>
    obtain ⟨name, hname, hf⟩ := bind_eq_ok.mp hf
    have hprecedence : b.precedence c = c.precedenceOf name := by
      unfold Atom.precedence
      rw [ht, hname]
      rfl
    rw [hprecedence] at hp
    rw [hp] at hf
    cases hf
  | symbol _ _ _ hnone => exact hnone p hp

theorem isPlaceholder (h : TakesScripts c b) : b.isPlaceholder = false := by
  by_cases ht : b.type = .ordinary
  · cases h with
    | construct htype =>
      rw [ht] at htype
      simp at htype
    | function htype => simp [htype] at ht
    | symbol _ hp => exact hp
  · rw [Atom.isPlaceholder, beq_eq_false_iff_ne.mpr ht]
    rfl

theorem text_ne (h : TakesScripts c b) (ht : b.type = .ordinary) : b.text ≠ .ok (.text ",") := by
  cases h with
  | construct htype =>
    rw [ht] at htype
    simp at htype
  | function htype => simp [htype] at ht
  | symbol _ _ hcomma => exact hcomma

/-- The name of a large operator is none, if it is not that of a function. -/
theorem type_ne_operator (h : TakesScripts c b) (hf : b.isFunction c = .ok false) : b.type ≠ .operator := by
  intro ht
  cases h with
  | construct htype =>
    rw [ht] at htype
    simp at htype
  | function _ htrue =>
    rw [hf] at htrue
    cases htrue
  | symbol htype => simp [htype] at ht

end TakesScripts

/-! ### Placeholders -/

namespace Atom

/-- A placeholder that is spelled by its value. -/
structure IsBearer (p : Atom) : Prop where
  type : p.type = .ordinary
  value : p.value = .text zeroWidth
  latex : p.latex.isVoid = true

namespace IsBearer

variable {p : Atom}

theorem text (h : IsBearer p) : p.text = .ok (.text zeroWidth) := by
  unfold Atom.text
  rw [if_pos h.latex, h.value]

theorem isPlaceholder (h : IsBearer p) : p.isPlaceholder = true := by
  unfold Atom.isPlaceholder
  rw [h.type, h.value]
  rfl

theorem isDigit (h : IsBearer p) : p.isDigit = .ok false := by
  unfold Atom.isDigit
  rw [if_pos h.type, h.text]
  rfl

theorem signOf? (h : IsBearer p) : p.signOf? = .ok none := signOf?_of_ne_binary (by rw [h.type]; decide)

theorem startsWithExponent (h : IsBearer p) (rest : List Atom) : startsWithExponent (p :: rest) = .ok false := by
  show (p.isDigit >>= _) = _
  rw [h.isDigit]
  show (p.signOf? >>= _) = _
  rw [h.signOf?]
  rfl

/-- A placeholder ends a numeral. -/
theorem numeralStep (h : IsBearer p) (state : NumeralState) (before : Bool) (behind : List Atom) :
    numeralStep state before p behind = .ok none := by
  have hmarker : (Datum.text zeroWidth).isOneOf exponentMarkers = .ok false := by rfl
  unfold Atom.numeralStep
  rw [h.text, h.isDigit, h.signOf?, h.type]
  simp only [bind, Except.bind, if_true, hmarker]
  cases state <;> rfl

end IsBearer

/-- A placeholder is no second half of a digraph. -/
theorem digraph?_bearer {F : Fault → Prop} {b p : Atom} (hb : b.Keyed F) (hp : IsBearer p) :
    (digraph? b p).Within F (· = none) := by
  unfold digraph?
  split
  · exact within_ok rfl
  · rw [hp.text]
    refine hb.bind fun left hleft => hleft.bind fun left _ => ?_
    cases left with
    | text t =>
      show Within F _ (.ok (Glyph.digraphs.lookup (t, zeroWidth)))
      refine within_ok (List.lookup_eq_none_iff.mpr fun e he => ?_)
      have hall : ∀ e ∈ Glyph.digraphs, e.1.2 ≠ zeroWidth := by decide
      rw [bne_iff_ne]
      intro heq
      exact hall e he (by rw [← heq])
    | _ => exact within_ok rfl

end Atom

/-! ### Twins -/

/-- An operand with scripts, the operand without them, and a placeholder with them. -/
structure Split (F : Fault → Prop) (c : Catalog) (b b' p : Atom) : Prop where
  takes : TakesScripts c b
  keyed : b.Keyed F
  akin : Akin b b'
  scripted : b.hasScripts = true
  bare : b'.hasScripts = false
  bearer : IsBearer p
  scripts : SameScripts b p

/-- The rows begin with atoms that both or neither carry scripts, or the atom in front makes no prefix digraph with
them. -/
def Clear (a : Atom) (l r : List Atom) : Prop :=
  l.head?.map hasScripts = r.head?.map hasScripts ∨
    ∀ name, startsWithDigraph? Glyph.prefixDigraphs (a :: l) ≠ .ok (some name)

/-- Rows without spaces that differ in spaces inside of their atoms, and in whether operands carry their scripts or
placeholders behind them do. -/
inductive Twins (F : Fault → Prop) (c : Catalog) : List Atom → List Atom → Prop
  | nil : Twins F c [] []
  | same {a a' : Atom} {l r : List Atom} : Akin a a' → SameScripts a a' → a.type ≠ .spacing → Clear a l r →
    Twins F c l r → Twins F c (a :: l) (a' :: r)
  | split {b b' p : Atom} {l r : List Atom} : Split F c b b' p → Twins F c l r → Twins F c (b :: l) (b' :: p :: r)

/-- Twins that begin with an atom each, parted behind it. -/
inductive Ahead (F : Fault → Prop) (c : Catalog) : Atom → List Atom → Atom → List Atom → Prop
  | same {a a' : Atom} {l r : List Atom} : Akin a a' → SameScripts a a' → a.type ≠ .spacing → Clear a l r →
    Twins F c l r → Ahead F c a l a' r
  | split {b b' p : Atom} {l r : List Atom} : Split F c b b' p → Twins F c l r → Ahead F c b l b' (p :: r)

variable {F : Fault → Prop} {c : Catalog} {a a' : Atom} {l r : List Atom}

theorem Ahead.akin (h : Ahead F c a l a' r) : Akin a a' := by
  cases h with
  | same h => exact h
  | split h => exact h.akin

theorem Ahead.twins (h : Ahead F c a l a' r) : Twins F c (a :: l) (a' :: r) := by
  cases h with
  | same h hs ht hc hl => exact .same h hs ht hc hl
  | split h hl => exact .split h hl

/-- Atoms that are no operand with scripts have twins behind them. -/
theorem Ahead.tail (h : Ahead F c a l a' r)
    (ht : a.type ∉ [.fraction, .radical, .font, .text, .fenced, .operator, .ordinary]) : Twins F c l r := by
  cases h with
  | same _ _ _ _ hl => exact hl
  | split h => exact absurd h.takes.type_mem ht

/-- So have operators. -/
theorem Ahead.tail_of_operator (h : Ahead F c a l a' r) {p : Int} (hp : a'.precedence c = .ok (some p)) :
    Twins F c l r := by
  cases h with
  | same _ _ _ _ hl => exact hl
  | split h => exact absurd (h.akin.precedence_eq.trans hp) (h.takes.precedence_ne p)

namespace Twins

/-- Twins are both empty, or both begin with an atom. -/
inductive View (F : Fault → Prop) (c : Catalog) : List Atom → List Atom → Prop
  | nil : View F c [] []
  | cons {a a' : Atom} {l r : List Atom} : Ahead F c a l a' r → View F c (a :: l) (a' :: r)

theorem view (h : Twins F c l r) : View F c l r := by
  cases h with
  | nil => exact .nil
  | same h hs ht hc hl => exact .cons (.same h hs ht hc hl)
  | split h hl => exact .cons (.split h hl)

theorem eq_nil (h : Twins F c [] r) : r = [] := by
  cases h
  rfl

theorem ne_spacing (h : Twins F c l r) : (∀ a ∈ l, a.type ≠ .spacing) ∧ ∀ a ∈ r, a.type ≠ .spacing := by
  induction h with
  | nil => simp
  | same h hs ht hc hl ih => exact ⟨by simpa using ⟨ht, ih.1⟩, by simpa using ⟨h.type ▸ ht, ih.2⟩⟩
  | split h hl ih =>
    have hb := h.takes.type_ne (t := .spacing) (by decide)
    have hp : AtomType.ordinary ≠ .spacing := by decide
    exact ⟨by simpa using ⟨hb, ih.1⟩, by simpa [h.bearer.type, hp] using ⟨h.akin.type ▸ hb, ih.2⟩⟩

theorem unspaced_eq (h : Twins F c l r) : unspaced l = l ∧ unspaced r = r :=
  ⟨unspaced_eq_self h.ne_spacing.1, unspaced_eq_self h.ne_spacing.2⟩

/-- Rows that differ in spaces inside of their atoms alone. -/
theorem of_tight {row row' : List Atom} (hs : ∀ a ∈ row, a.type ≠ .spacing) (h : row.map tight = row'.map tight) :
    Twins F c row row' := by
  induction row generalizing row' with
  | nil =>
    rw [List.map_nil] at h
    rw [List.map_eq_nil_iff.mp h.symm]
    exact .nil
  | cons a row ih =>
    cases row' with
    | nil => cases h
    | cons a' row' =>
      obtain ⟨htight, hrow⟩ := List.cons.inj h
      obtain ⟨hakin, hscripts⟩ := akin_of_tight htight
      have hclear : row.head?.map hasScripts = row'.head?.map hasScripts := by
        cases row with
        | nil =>
          rw [List.map_nil] at hrow
          rw [List.map_eq_nil_iff.mp hrow.symm]
        | cons b row =>
          cases row' with
          | nil => cases hrow
          | cons b' row' =>
            have hb := (akin_of_tight (List.cons.inj hrow).1).2.hasScripts
            exact congrArg some hb
      exact .same hakin hscripts (hs a List.mem_cons_self) (.inl hclear)
        (ih (fun b hb => hs b (List.mem_cons_of_mem _ hb)) hrow)

end Twins

/-- Rows that are twins once their spaces are left out. -/
def Loose (F : Fault → Prop) (c : Catalog) (l r : List Atom) : Prop := Twins F c (unspaced l) (unspaced r)

theorem loose_of_tightRow {row row' : List Atom} (h : tightRow row = tightRow row') : Loose F c row row' := by
  refine .of_tight (fun a ha => ne_spacing_of_mem_unspaced ha) ?_
  rwa [tightRow_eq, tightRow_eq] at h

theorem Atom.SameField.loose {field field' : Option (List Atom)} (h : SameField field field') :
    Loose F c (field.getD []) (field'.getD []) := loose_of_tightRow h.row

theorem Twins.loose (h : Twins F c l r) : Loose F c l r := by
  unfold Loose
  rwa [h.unspaced_eq.1, h.unspaced_eq.2]

/-! ### Operators and numerals -/

namespace Twins

theorem operator_eq (h : Twins F c l r) : operator? c l = operator? c r := by
  cases h.view with
  | nil => rfl
  | cons ha => exact ha.akin.precedence_eq

theorem startsWithDigit_eq (h : Twins F c l r) : startsWithDigit l = startsWithDigit r := by
  cases h.view with
  | nil => rfl
  | cons ha => exact ha.akin.isDigit_eq

theorem startsWithExponent_eq (h : Twins F c l r) : startsWithExponent l = startsWithExponent r := by
  cases h.view with
  | nil => rfl
  | @cons a a' l r ha =>
    unfold Atom.startsWithExponent
    dsimp only
    rw [show startsWithDigit (a :: l) = startsWithDigit (a' :: r) from ha.akin.isDigit_eq, ha.akin.signOf_eq]
    refine bind_congr fun digit => ?_
    by_cases ht : a.type = .binary
    · rw [(ha.tail (by rw [ht]; decide)).startsWithDigit_eq]
    · have hsign := signOf?_of_ne_binary (a := a') (by rw [← ha.akin.type]; exact ht)
      rw [hsign]
      rfl

end Twins

namespace Ahead

theorem startsNumber_eq (h : Ahead F c a l a' r) : Expr.startsNumber (a :: l) = Expr.startsNumber (a' :: r) := by
  rw [Expr.startsNumber, Expr.startsNumber, h.akin.isDigit_eq, h.akin.type, h.akin.text_eq]
  cases h with
  | same _ hs _ _ hl => rw [hl.startsWithDigit_eq, hs.hasScripts]
  | @split _ p _ r h hl =>
    -- Scripts on a point keep a number from starting with it, and so does a placeholder behind it.
    have hdigit : startsWithDigit (p :: r) = .ok false := h.bearer.isDigit
    rw [h.scripted, h.bare, hdigit]
    refine bind_congr fun digit => ?_
    split
    · rfl
    · split
      · refine bind_congr fun text => ?_
        rw [Bool.not_true, Bool.and_false, if_neg Bool.false_ne_true]
        split <;> rfl
      · rfl

theorem numeralStep_eq (h : Ahead F c a l a' r) (state : NumeralState) (before : Bool) :
    numeralStep state before a l = numeralStep state before a' r := by
  unfold Atom.numeralStep
  rw [h.akin.text_eq, h.akin.isDigit_eq, h.akin.type, h.akin.signOf_eq]
  cases h with
  | same _ hs _ _ hl => rw [hl.startsWithDigit_eq, hl.startsWithExponent_eq, hs.hasScripts]
  | @split _ p _ r h hl =>
    -- What is behind the operand is asked for at commas, and at markers without scripts.
    rw [h.scripted, h.bare, h.bearer.startsWithExponent]
    have hcomma : ∀ text, a'.text = .ok text →
        (text.isText "," && before && (a'.type = .punctuation || a'.type = .ordinary)) = false := by
      intro text htext
      by_cases ht : a'.type = .ordinary
      · have hne := h.takes.text_ne (h.akin.type ▸ ht)
        rw [h.akin.text_eq, htext] at hne
        have hisText : text.isText "," = false := Bool.eq_false_iff.mpr fun his => by
          obtain ⟨s, rfl⟩ := Datum.isText_of_isText his
          exact hne (by rw [eq_of_beq his])
        rw [hisText]
        rfl
      · have hpunctuation : a'.type ≠ .punctuation := h.akin.type ▸ h.takes.type_ne (by decide)
        simp [ht, hpunctuation]
    cases htext : a'.text with
    | error f => rfl
    | ok text =>
      show (a'.isDigit >>= _) = (a'.isDigit >>= _)
      refine bind_congr fun digit => ?_
      cases state with
      | mantissa pointed =>
        have hnever : ∀ marker : Bool,
            (if (marker && before && !false) = true then
                (do if ← (.ok false : Outcome Bool) then return some (['e'], NumeralState.sign) else return none)
              else pure none) = (pure none : Outcome _) := fun marker => by
          split <;> rfl
        simp only [hcomma text htext, hnever, Bool.not_true, Bool.and_false, Bool.false_eq_true, if_false]
      | sign => rfl
      | exponent => rfl

end Ahead

/-- Atoms whose scripts come next, if there are any, and twins behind them. -/
inductive Owner (F : Fault → Prop) (c : Catalog) : Option Atom → List Atom → Option Atom → List Atom → Prop
  | none {l r : List Atom} : Twins F c l r → Owner F c none l none r
  | some {a a' : Atom} {l r : List Atom} : Ahead F c a l a' r → Owner F c (some a) l (some a') r

/-- The numerals are the same, and end at atoms that take the same scripts. -/
def SameNumeral (F : Fault → Prop) (c : Catalog) (x y : NumeralReading) : Prop :=
  x.chars = y.chars ∧ Owner F c x.last x.rest y.last y.rest

theorem Twins.scanNumeralFrom (h : Twins F c l r) : ∀ {state : NumeralState} {chars : List Char} {last last' : Option Atom},
    Owner F c last l last' r →
      Agree F (SameNumeral F c) (scanNumeralFrom state chars last l) (scanNumeralFrom state chars last' r) := by
  induction h with
  | nil => exact fun howner => ⟨rfl, howner⟩
  | @same a a' l r hakin hscripts ht hclear hl ih =>
    intro state chars last last' howner
    have ha : Ahead F c a l a' r := .same hakin hscripts ht hclear hl
    rw [Atom.scanNumeralFrom, Atom.scanNumeralFrom, ha.numeralStep_eq]
    refine .ask fun found _ => ?_
    cases found with
    | none => exact ⟨rfl, howner⟩
    | some step =>
      dsimp only
      rw [hscripts.hasScripts]
      exact .choice (fun _ => ⟨rfl, .some ha⟩) fun _ => ih (.some ha)
  | @split b b' p l r hsplit hl ih =>
    intro state chars last last' howner
    have hb : Ahead F c b l b' (p :: r) := .split hsplit hl
    rw [Atom.scanNumeralFrom, Atom.scanNumeralFrom, hb.numeralStep_eq]
    refine .ask fun found _ => ?_
    cases found with
    | none => exact ⟨rfl, howner⟩
    | some step =>
      -- The scripts end the numeral on one side, and the placeholder on the other.
      dsimp only
      rw [if_pos hsplit.scripted, if_neg (by rw [hsplit.bare]; exact Bool.false_ne_true), Atom.scanNumeralFrom,
        hsplit.bearer.numeralStep]
      exact ⟨rfl, .some hb⟩

theorem Twins.scanNumeral (h : Twins F c l r) : Agree F (SameNumeral F c) (scanNumeral l) (scanNumeral r) :=
  h.scanNumeralFrom (.none h)

/-! ### Digraphs -/

theorem startsWithDigraph?_eq (names : List String) (hakin : Akin a a') (hscripts : SameScripts a a') (h : Twins F c l r) :
    startsWithDigraph? names (a :: l) = startsWithDigraph? names (a' :: r) := by
  cases h.view with
  | nil => rfl
  | @cons b b' l r hb =>
    have hdigraph : digraph? a b = digraph? a' b' := by
      unfold digraph?
      rw [hscripts.hasScripts, hakin.text_eq, hb.akin.text_eq]
    rw [startsWithDigraph?, startsWithDigraph?, hdigraph]

/-- An operand with scripts begins no digraph. -/
theorem startsWithDigraph?_scripted (names : List String) (h : a.hasScripts = true) (rest : List Atom) :
    startsWithDigraph? names (a :: rest) = .ok none := by
  cases rest with
  | nil => rfl
  | cons b rest =>
    have hdigraph : digraph? a b = .ok none := if_pos h
    rw [startsWithDigraph?, hdigraph]
    rfl

/-- Nor does one with a placeholder behind it. -/
theorem startsWithDigraph?_bearer (names : List String) {b p : Atom} (hb : b.Keyed F) (hp : IsBearer p) (rest : List Atom) :
    (startsWithDigraph? names (b :: p :: rest)).Within F (· = none) := by
  refine (digraph?_bearer hb hp).bind ?_
  rintro _ rfl
  exact within_ok rfl

namespace Ahead

theorem digraph (h : Ahead F c a l a' r) (names : List String) :
    Agree F Eq (startsWithDigraph? names (a :: l)) (startsWithDigraph? names (a' :: r)) := by
  cases h with
  | same hakin hscripts _ _ hl => exact .of_eq (startsWithDigraph?_eq names hakin hscripts hl)
  | split h =>
    refine .of_within (.of_eq_ok (startsWithDigraph?_scripted names h.scripted l) rfl) ?_
    exact startsWithDigraph?_bearer names (h.akin.keyed h.keyed) h.bearer _

/-- A digraph is two atoms that both rows begin with, and behind a prefix digraph there are twins. -/
theorem of_digraph (h : Ahead F c a l a' r) {names : List String} {name : String}
    (hfound : startsWithDigraph? names (a' :: r) = .ok (some name)) :
    ∃ b l' b' r', l = b :: l' ∧ r = b' :: r' ∧ Ahead F c b l' b' r' ∧
      (names = Glyph.prefixDigraphs → Twins F c l' r') := by
  cases h with
  | @split _ p _ r h _ =>
    cases (startsWithDigraph?_bearer names (keyed_true a') h.bearer r).of_ok hfound
  | same hakin hscripts _ hclear hl =>
    have heq := startsWithDigraph?_eq names hakin hscripts hl
    cases hl.view with
    | nil => cases hfound
    | @cons b b' l r hb =>
      refine ⟨b, l, b', r, rfl, rfl, hb, ?_⟩
      rintro rfl
      cases hb with
      | same _ _ _ _ hl => exact hl
      | split hsplit =>
        rcases hclear with hheads | hnone
        · have hboth : b.hasScripts = b'.hasScripts := Option.some.inj hheads
          rw [hsplit.scripted, hsplit.bare] at hboth
          cases hboth
        · exact absurd (heq.trans hfound) (hnone name)

end Ahead

/-! ### Arguments -/

theorem Clear.of_prefix {p q : List Atom} (h : Clear a l r) (hp : p <+: l) (hq : q <+: r) (hpq : Twins F c p q) :
    Clear a p q := by
  cases hpq.view with
  | nil => exact .inl rfl
  | @cons b b' p q _ =>
    obtain ⟨l', rfl⟩ := hp
    obtain ⟨r', rfl⟩ := hq
    exact h

/-- What is cut off the rows at a closing atom. -/
inductive SameCut (F : Fault → Prop) (c : Catalog) (l r : List Atom) :
    Option (List Atom × Atom × List Atom) → Option (List Atom × Atom × List Atom) → Prop
  | none : SameCut F c l r none none
  | some {inner inner' rest rest' : List Atom} {last last' : Atom} : Twins F c inner inner' → inner <+: l → inner' <+: r →
      Ahead F c last rest last' rest' → SameCut F c l r (some (inner, last, rest)) (some (inner', last', rest'))

namespace Twins

theorem splitAtCloser (h : Twins F c l r) : ∀ depth : Nat,
    SameCut F c l r (splitAtCloser depth l) (splitAtCloser depth r) := by
  induction h with
  | nil => exact fun _ => .none
  | @same a a' l r hakin hscripts ht hclear hl ih =>
    intro depth
    rw [Expr.splitAtCloser, Expr.splitAtCloser, ← hakin.type]
    dsimp only
    split
    · exact .some .nil (List.nil_prefix) (List.nil_prefix) (.same hakin hscripts ht hclear hl)
    · have hcut := ih (if a.type = .opening then depth + 1 else if a.type = .closing then depth - 1 else depth)
      revert hcut
      generalize Expr.splitAtCloser _ l = cut
      generalize Expr.splitAtCloser _ r = cut'
      intro hcut
      cases hcut with
      | none => exact .none
      | some hinner hp hq hlast =>
        exact .some (.same hakin hscripts ht (hclear.of_prefix hp hq hinner) hinner) (List.prefix_cons_inj a |>.mpr hp)
          (List.prefix_cons_inj a' |>.mpr hq) hlast
  | @split b b' p l r hsplit hl ih =>
    intro depth
    have hb : ∀ t ∈ [AtomType.opening, .closing], b.type ≠ t := fun t ht => hsplit.takes.type_ne (by
      simp only [List.mem_cons, List.not_mem_nil, or_false] at ht
      rcases ht with rfl | rfl <;> decide)
    have pass : ∀ {a : Atom} (rest : List Atom), a.type ≠ .opening → a.type ≠ .closing →
        Expr.splitAtCloser depth (a :: rest) = (Expr.splitAtCloser depth rest).map fun s => (a :: s.1, s.2) := by
      intro a rest ho hc
      rw [Expr.splitAtCloser, if_neg (fun h => hc h.1), if_neg ho, if_neg hc]
    have hop := hb .opening (by simp)
    have hcl := hb .closing (by simp)
    rw [pass l hop hcl, pass (p :: r) (hsplit.akin.type ▸ hop) (hsplit.akin.type ▸ hcl),
      pass r (by rw [hsplit.bearer.type]; decide) (by rw [hsplit.bearer.type]; decide)]
    have hcut := ih depth
    revert hcut
    generalize Expr.splitAtCloser _ l = cut
    generalize Expr.splitAtCloser _ r = cut'
    intro hcut
    cases hcut with
    | none => exact .none
    | some hinner hp hq hlast =>
      exact .some (.split hsplit hinner) (List.prefix_cons_inj b |>.mpr hp)
        (List.prefix_cons_inj b' |>.mpr (List.prefix_cons_inj p |>.mpr hq)) hlast

end Twins

/-- What was read before goes in front of the first part. -/
def inFirst (front : List Atom) : List (List Atom) → List (List Atom)
  | [] => []
  | part :: rest => (front ++ part) :: rest

theorem splitAtCommas_inFirst (row : List Atom) : ∀ (depth : Int) (part : List Atom),
    splitAtCommas depth part row = Except.map (inFirst part.reverse) (splitAtCommas depth [] row) := by
  induction row with
  | nil =>
    intro depth part
    show Except.ok [part.reverse] = .ok [part.reverse ++ []]
    rw [List.append_nil]
  | cons a row ih =>
    intro depth part
    rw [splitAtCommas_step, splitAtCommas_step]
    cases endsPart depth a with
    | error f => rfl
    | ok comma =>
      cases comma with
      | true =>
        show (splitAtCommas _ [] row >>= _) = Except.map _ (splitAtCommas _ [] row >>= _)
        cases splitAtCommas (depthBehind depth a) [] row with
        | error f => rfl
        | ok parts =>
          show Except.ok (part.reverse :: parts) = .ok ((part.reverse ++ []) :: parts)
          rw [List.append_nil]
      | false =>
        show splitAtCommas _ (a :: part) row = Except.map _ (splitAtCommas _ [a] row)
        rw [ih _ (a :: part), ih _ [a]]
        cases splitAtCommas (depthBehind depth a) [] row with
        | error f => rfl
        | ok parts =>
          refine congrArg Except.ok ?_
          cases parts with
          | nil => rfl
          | cons first rest => simp [inFirst]

theorem splitAtCommas_pass {depth : Int} {a : Atom} (ho : a.type ≠ .opening) (hc : a.type ≠ .closing)
    (hp : a.type ≠ .punctuation) (rest : List Atom) :
    splitAtCommas depth [] (a :: rest) = Except.map (inFirst [a]) (splitAtCommas depth [] rest) := by
  have hdepth : depthBehind depth a = depth := by rw [depthBehind, if_neg ho, if_neg hc]
  rw [splitAtCommas_skip (.inr hp), hdepth, splitAtCommas_inFirst rest depth [a]]
  rfl

/-- The parts of the rows are twins, and the first of them stand at the beginning. -/
inductive SameParts (F : Fault → Prop) (c : Catalog) (l r : List Atom) : List (List Atom) → List (List Atom) → Prop
  | mk {p q : List Atom} {ps qs : List (List Atom)} : p <+: l → q <+: r → Twins F c p q →
    List.Forall₂ (Twins F c) ps qs → SameParts F c l r (p :: ps) (q :: qs)

theorem SameParts.forall₂ {ps qs : List (List Atom)} (h : SameParts F c l r ps qs) : List.Forall₂ (Twins F c) ps qs := by
  cases h with
  | mk _ _ hfirst hrest => exact .cons hfirst hrest

namespace Twins

theorem commas {G : Fault → Prop} (h : Twins F c l r) : ∀ depth : Int,
    Agree G (SameParts F c l r) (splitAtCommas depth [] l) (splitAtCommas depth [] r) := by
  induction h with
  | nil => exact fun _ => .mk List.nil_prefix List.nil_prefix .nil .nil
  | @same a a' l r hakin hscripts ht hclear hl ih =>
    intro depth
    have hends : endsPart depth a = endsPart depth a' := by
      unfold endsPart depthBehind
      rw [hakin.type, hakin.text_eq]
    have hdepth : depthBehind depth a = depthBehind depth a' := by
      unfold depthBehind
      rw [hakin.type]
    rw [splitAtCommas_step, splitAtCommas_step, hends, hdepth]
    refine .ask fun comma _ => .choice (fun _ => ?_) fun _ => ?_
    · refine Agree.bind (ih _) fun ps qs _ _ hparts => ?_
      exact .mk List.nil_prefix List.nil_prefix .nil hparts.forall₂
    · rw [splitAtCommas_inFirst l _ [a], splitAtCommas_inFirst r _ [a']]
      refine Agree.map (ih _) fun ps qs hparts => ?_
      cases hparts with
      | mk hp hq hfirst hrest =>
        exact .mk (List.prefix_cons_inj a |>.mpr hp) (List.prefix_cons_inj a' |>.mpr hq)
          (.same hakin hscripts ht (hclear.of_prefix hp hq hfirst) hfirst) hrest
  | @split b b' p l r hsplit hl ih =>
    intro depth
    have hop := hsplit.takes.type_ne (t := .opening) (by decide)
    have hcl := hsplit.takes.type_ne (t := .closing) (by decide)
    have hpu := hsplit.takes.type_ne (t := .punctuation) (by decide)
    have htype := hsplit.akin.type
    have hbearer := hsplit.bearer.type
    rw [splitAtCommas_pass hop hcl hpu, splitAtCommas_pass (htype ▸ hop) (htype ▸ hcl) (htype ▸ hpu),
      splitAtCommas_pass (by simp [hbearer]) (by simp [hbearer]) (by simp [hbearer])]
    have hmap : Except.map (inFirst [b']) (Except.map (inFirst [p]) (splitAtCommas depth [] r)) =
        Except.map (inFirst [b', p]) (splitAtCommas depth [] r) := by
      cases splitAtCommas depth [] r with
      | error f => rfl
      | ok parts => cases parts <;> rfl
    rw [hmap]
    refine Agree.map (ih depth) fun ps qs hparts => ?_
    cases hparts with
    | mk hp hq hfirst hrest =>
      exact .mk (List.prefix_cons_inj b |>.mpr hp) (List.prefix_cons_inj b' |>.mpr (List.prefix_cons_inj p |>.mpr hq))
        (.split hsplit hfirst) hrest

end Twins

/-- The parts of rows that are twins but for spaces are so as well. -/
theorem Loose.commas {G : Fault → Prop} (h : Loose F c l r) :
    Agree G (List.Forall₂ (Loose F c)) (splitAtCommas 0 [] l) (splitAtCommas 0 [] r) := by
  have hparts := Twins.commas (G := G) h 0
  have hleft : splitAtCommas 0 [] (unspaced l) = _ := splitAtCommas_unspaced l 0 []
  have hright : splitAtCommas 0 [] (unspaced r) = _ := splitAtCommas_unspaced r 0 []
  rw [hleft, hright] at hparts
  refine (Agree.of_map hparts).imp fun ps qs _ _ hpq => ?_
  have hforall := hpq.forall₂
  rw [List.forall₂_map_left_iff, List.forall₂_map_right_iff] at hforall
  exact hforall

/-- The arguments of a call, with the atom that ends them and what is behind it. -/
inductive SameArguments (F : Fault → Prop) (c : Catalog) :
    Option (List Atom × Atom × List Atom) → Option (List Atom × Atom × List Atom) → Prop
  | none : SameArguments F c none none
  | some {inner inner' rest rest' : List Atom} {last last' : Atom} : Loose F c inner inner' →
      Ahead F c last rest last' rest' → SameArguments F c (some (inner, last, rest)) (some (inner', last', rest'))

theorem Twins.callArguments (h : Twins F c l r) : Agree F (SameArguments F c) (callArguments? l) (callArguments? r) := by
  cases h.view with
  | nil => exact .none
  | @cons a a' l r ha =>
    have hakin := ha.akin
    rw [callArguments?, callArguments?, ← hakin.type, ← hakin.leftDelim, ← hakin.rightDelim, ← hakin.text_eq]
    split
    · exact .choice (fun _ => .some hakin.body.loose ha) fun _ => .none
    · rename_i ht
      refine .ask fun text _ => .choice (fun _ => ?_) fun _ => .none
      have hcut := (ha.tail (by rw [ht]; decide)).splitAtCloser 0
      show SameArguments F c (Expr.splitAtCloser 0 l) (Expr.splitAtCloser 0 r)
      revert hcut
      generalize Expr.splitAtCloser 0 l = cut
      generalize Expr.splitAtCloser 0 r = cut'
      intro hcut
      cases hcut with
      | none => exact .none
      | some hinner _ _ hlast => exact .some hinner.loose hlast
    · exact .none

end Formula
