import Formula.Proofs.Agreement
import Formula.Proofs.Reader.Follow
import Formula.Proofs.Reader.Progress

/-!
# Brackets

What the reader sees of an atom that opens or closes a fence while it reads something else: no digit and no sign, no
operator, no half of a digraph, no mark, no placeholder.  A row in which such atoms nest, each closed by the partner of
its glyph, is left with every fence of it closed; `nests` goes through it with the glyphs that are still awaited.
-/

namespace Formula

open Atom Expr Outcome

/-- The glyphs of all delimiters. -/
def Glyph.delimiters : List String := Glyph.partners.map (·.1) ++ Glyph.closers

namespace Atom

variable {F : Fault → Prop} {c : Catalog}

/-- The spelling may be looked up in a table, up to faults in `F`. -/
def Keyed (F : Fault → Prop) (a : Atom) : Prop := a.text.Within F fun t => t.key.Within F fun _ => True

/-- The glyph that closes what the atom opens. -/
def partner? (a : Atom) : Option String :=
  match a.text with
  | .ok (.text t) => Glyph.partners.lookup t
  | _ => none

/-- The opening and closing atoms of the row nest, and the glyphs of the stack are closed in its order. -/
def nests : List String → List Atom → Bool
  | stack, [] => stack.isEmpty
  | stack, a :: rest =>
    match a.type with
    | .opening => match a.partner? with
      | some p => nests (p :: stack) rest
      | none => false
    | .closing => match stack with
      | p :: more => a.spelled p && nests more rest
      | [] => false
    | _ => nests stack rest

/-- A delimiter of another kind: a sized one, or one in the role of text. -/
def isLooseDelimiter (a : Atom) : Bool := a.type == .sized || (a.type == .textual && Glyph.delimiters.any a.spelled)

/-- The atom opens, closes or holds a fence, and its spelling is part of no numeral and of no digraph. -/
structure IsBracket (a : Atom) : Prop where
  type : a.type = .opening ∨ a.type = .closing ∨ a.type = .fenced
  text : ∃ t, a.text = .ok (.text t) ∧ t ∉ [",", "!", "\\nabla", "\\times", "\\cdot"]

/-! ### Spellings -/

theorem spelled_iff {a : Atom} {s : String} : a.spelled s = true ↔ a.text = .ok (.text s) := by
  unfold spelled
  cases h : a.text with
  | ok d =>
    dsimp only
    constructor
    · intro hd
      cases d with
      | text t => rw [eq_of_beq hd]
      | _ => cases hd
    · intro hd
      rw [Except.ok.inj hd]
      exact beq_self_eq_true s
  | error f => simp

theorem keyed_true (a : Atom) : a.Keyed fun _ => True :=
  within_of_forall (fun _ => trivial) (fun _ => within_of_forall (fun _ => trivial) (fun _ => trivial) _) _

theorem keyed_of_text {a : Atom} {t : String} (h : a.text = .ok (.text t)) : a.Keyed F := by
  unfold Keyed
  rw [h]
  exact (trivial : Within F (fun _ => True) (.ok (Datum.text t)))

theorem IsBracket.keyed {a : Atom} (h : IsBracket a) : a.Keyed F := by
  obtain ⟨t, ht, -⟩ := h.text
  exact keyed_of_text ht

/-- A glyph with a partner is a delimiter, and the partner closes fences. -/
theorem mem_of_lookup_partners {d : Datum} {p : String} (h : d.lookup Glyph.partners = .ok (some p)) :
    p ∈ Glyph.closers ∧ ∃ t ∈ Glyph.delimiters, d = .text t := by
  obtain ⟨t, rfl, ht⟩ := Datum.mem_of_lookup h
  exact ⟨List.mem_map.mpr ⟨(t, p), ht, rfl⟩, t, List.mem_append_left _ (List.mem_map.mpr ⟨(t, p), ht, rfl⟩), rfl⟩

/-- A glyph with a partner, and the partner, are parts of no numeral and of no digraph. -/
theorem not_mem_of_partner {t p : String} (h : Glyph.partners.lookup t = some p) :
    t ∉ [",", "!", "\\nabla", "\\times", "\\cdot"] ∧ p ∉ [",", "!", "\\nabla", "\\times", "\\cdot"] := by
  have hall : ∀ e ∈ Glyph.partners, e.1 ∉ [",", "!", "\\nabla", "\\times", "\\cdot"] ∧
      e.2 ∉ [",", "!", "\\nabla", "\\times", "\\cdot"] := by decide
  obtain ⟨before, behind, heq, -⟩ := List.lookup_eq_some_iff.mp h
  exact hall (t, p) (heq ▸ List.mem_append_right _ List.mem_cons_self)

/-! ### Types that a role asks for -/

theorem type_of_isPlaceholder {a : Atom} (h : a.isPlaceholder = true) : a.type = .ordinary := by
  unfold isPlaceholder at h
  rw [Bool.and_eq_true, beq_iff_eq] at h
  exact h.1

theorem type_of_postfixFunction? {a : Atom} {name : String} (h : a.postfixFunction? = .ok (some name)) :
    a.type = .textual := by
  by_cases ht : a.type = .textual
  · exact ht
  · rw [show a.postfixFunction? = .ok none from if_neg ht] at h
    cases h

theorem type_of_sign? {a : Atom} {sign : String} (h : a.sign? c = .ok (some sign)) : a.type = .binary := by
  by_cases ht : a.type = .binary
  · exact ht
  · rw [show a.sign? c = .ok none from if_neg ht] at h
    cases h

/-! ### What opens and what closes -/

/-- What may close a fence: an atom of one of three types, and if it is a loose one, with the glyph of a partner. -/
def IsCloser (k : Closer) : Prop :=
  k.type ∈ [.closing, .textual, .sized] ∧ (k.type = .textual → ∃ g ∈ Glyph.closers, k.glyph = some g)

/-- What a fence waits for can close one. -/
theorem isCloser_of_opener? {a : Atom} {left : Datum} {closer : Closer} (h : a.opener? = .ok (some (left, closer))) :
    IsCloser closer := by
  cases opens_of_opener? h with
  | bracket => exact ⟨by simp, fun ht => by cases ht⟩
  | textual _ _ hp => exact ⟨by simp, fun _ => ⟨_, (mem_of_lookup_partners hp).1, rfl⟩⟩
  | sized => exact ⟨by simp, fun ht => by cases ht⟩

/-- An opening atom opens a fence. -/
theorem type_of_opener?_none {a : Atom} (h : a.opener? = .ok none) : a.type ≠ .opening := by
  intro ht
  unfold opener? at h
  rw [ht] at h
  obtain ⟨text, -, h⟩ := bind_eq_ok.mp h
  obtain ⟨p, -, h⟩ := bind_eq_ok.mp h
  cases h

theorem startsOperand_of_closed {a : Atom} {closers : List Closer} (h : a.closesAny closers = .ok true) :
    a.startsOperand c closers = .ok false := by
  unfold Atom.startsOperand
  rw [h]
  rfl

theorem open_of_startsOperand {a : Atom} {closers : List Closer} (h : a.startsOperand c closers = .ok true) :
    a.closesAny closers = .ok false := by
  obtain ⟨closed, hclosed, h⟩ := bind_eq_ok.mp h
  cases closed with
  | true => cases h
  | false => exact hclosed

/-! ### Atoms that are part of nothing longer -/

/-- The atom is no digit and no sign, and its spelling is part of no numeral and of no digraph. -/
structure IsSolitary (a : Atom) : Prop where
  not_ordinary : a.type ≠ .ordinary
  not_binary : a.type ≠ .binary
  text : ∃ t, a.text = .ok (.text t) ∧ t ∉ [",", "!", "\\nabla", "\\times", "\\cdot"]

namespace IsSolitary

variable {a : Atom}

theorem isDigit (h : IsSolitary a) : a.isDigit = .ok false := isDigit_of_ne_ordinary h.not_ordinary

theorem signOf? (h : IsSolitary a) : a.signOf? = .ok none := signOf?_of_ne_binary h.not_binary

/-- Such an atom ends a numeral. -/
theorem numeralStep (h : IsSolitary a) (state : NumeralState) (before : Bool) (behind : List Atom) :
    numeralStep state before a behind = .ok none := by
  obtain ⟨t, ht, hne⟩ := h.text
  have hcomma : (Datum.text t).isText "," = false := beq_eq_false_iff_ne.mpr fun heq => hne (by simp [heq])
  unfold Atom.numeralStep
  rw [ht, h.isDigit]
  simp only [bind, Except.bind, if_neg h.not_ordinary]
  cases state with
  | mantissa pointed => simp [hcomma, h.not_ordinary, pure, Except.pure]
  | sign =>
    rw [h.signOf?]
    rfl
  | exponent => rfl

theorem lookup_digraphs {t : String} (h : t ∉ [",", "!", "\\nabla", "\\times", "\\cdot"]) (s : String) :
    Glyph.digraphs.lookup (t, s) = none ∧ Glyph.digraphs.lookup (s, t) = none := by
  have hall : ∀ e ∈ Glyph.digraphs, e.1.1 ∈ [",", "!", "\\nabla", "\\times", "\\cdot"] ∧
      e.1.2 ∈ [",", "!", "\\nabla", "\\times", "\\cdot"] := by decide
  simp only [List.lookup_eq_none_iff, bne_iff_ne]
  constructor
  · intro e he heq
    have hmem := (hall e he).1
    rw [← heq] at hmem
    exact h hmem
  · intro e he heq
    have hmem := (hall e he).2
    rw [← heq] at hmem
    exact h hmem

/-- Such an atom is no first half of a digraph. -/
theorem digraph?_left (h : IsSolitary a) (b : Atom) :
    digraph? a b = (if a.hasScripts then .ok none else do
      let text ← b.text
      let _ ← text.key
      return none) := by
  obtain ⟨t, ht, hne⟩ := h.text
  unfold digraph?
  by_cases hs : a.hasScripts
  · rw [if_pos hs, if_pos hs]
    rfl
  · rw [if_neg hs, if_neg hs, ht]
    show (b.text >>= fun right => right.key >>= _) = _
    refine bind_congr fun right => bind_congr fun key => ?_
    cases key with
    | text s => exact congrArg Except.ok (lookup_digraphs hne s).1
    | _ => rfl

/-- Such an atom is no second half of a digraph. -/
theorem digraph?_right (h : IsSolitary a) (b : Atom) :
    digraph? b a = (if b.hasScripts then .ok none else do
      let text ← b.text
      let _ ← text.key
      return none) := by
  obtain ⟨t, ht, hne⟩ := h.text
  unfold digraph?
  by_cases hs : b.hasScripts
  · rw [if_pos hs, if_pos hs]
    rfl
  · rw [if_neg hs, if_neg hs, ht]
    refine bind_congr fun left => ?_
    show (left.key >>= _) = _
    refine bind_congr fun key => ?_
    cases key with
    | text s => exact congrArg Except.ok (lookup_digraphs hne s).2
    | _ => rfl

theorem none_within {b : Atom} (hb : b.Keyed F) (scripted : Bool) :
    Within F (· = none) (if scripted then .ok none else do
      let text ← b.text
      let _ ← text.key
      return (none : Option String)) :=
  .choice (fun _ => within_ok rfl) fun _ => hb.bind fun _ htext => htext.bind fun _ _ => within_ok rfl

theorem digraph?_left_within (h : IsSolitary a) {b : Atom} (hb : b.Keyed F) : (digraph? a b).Within F (· = none) := by
  rw [h.digraph?_left]
  exact none_within hb _

theorem digraph?_right_within (h : IsSolitary a) {b : Atom} (hb : b.Keyed F) : (digraph? b a).Within F (· = none) := by
  rw [h.digraph?_right]
  exact none_within hb _

theorem digraph?_left_ne (h : IsSolitary a) (b : Atom) (name : String) : digraph? a b ≠ .ok (some name) := fun heq => by
  cases (h.digraph?_left_within (keyed_true b)).of_ok heq

theorem digraph?_right_ne (h : IsSolitary a) (b : Atom) (name : String) : digraph? b a ≠ .ok (some name) := fun heq => by
  cases (h.digraph?_right_within (keyed_true b)).of_ok heq

end IsSolitary

/-! ### What a bracket is not -/

namespace IsBracket

variable {a : Atom}

theorem type_ne (h : IsBracket a) {t : AtomType} (ht : t ∉ [.opening, .closing, .fenced]) : a.type ≠ t := by
  rintro rfl
  rcases h.type with h | h | h <;> simp [h] at ht

theorem precedence (h : IsBracket a) : a.precedence c = .ok none := by
  unfold Atom.precedence
  rcases h.type with h | h | h <;> rw [h] <;> rfl

theorem isPlaceholder (h : IsBracket a) : a.isPlaceholder = false := by
  unfold Atom.isPlaceholder
  rcases h.type with h | h | h <;> rw [h] <;> rfl

theorem postfixFunction? (h : IsBracket a) : a.postfixFunction? = .ok none := if_neg (h.type_ne (by decide))

theorem isSolitary (h : IsBracket a) : IsSolitary a := ⟨h.type_ne (by decide), h.type_ne (by decide), h.text⟩

end IsBracket

/-! ### Rows that begin with a bracket -/

/-- Whatever digraphs are asked for, none begins with a bracket. -/
theorem startsWithDigraph?_bracket {a : Atom} (h : IsBracket a) {rest : List Atom} (hrest : ∀ b ∈ rest, b.Keyed F)
    (names : List String) : (startsWithDigraph? names (a :: rest)).Within F (· = none) := by
  cases rest with
  | nil => exact within_ok rfl
  | cons b rest =>
    refine (h.isSolitary.digraph?_left_within (hrest b List.mem_cons_self)).bind ?_
    rintro _ rfl
    exact within_ok rfl

end Atom

end Formula
