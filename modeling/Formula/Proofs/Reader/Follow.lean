import Formula.Proofs.Reader.Grammar
import Formula.Proofs.Reader.Worded

/-!
# What follows an operand

An operand ends where nothing goes on with it: no placeholder with scripts, no postfix mark, and no neighbour that
multiplies it.  `Quiet` and `Stops` say so of what follows, and from them the readers of scripts, marks and neighbours
give back what they were given.
-/

namespace Formula

open Atom Expr

variable {c : Catalog} {closers : List Closer}

/-! ### Digraphs and closers -/

namespace Atom

/-- Only a nabla and an exclamation mark begin a digraph. -/
theorem startsWithDigraph?_none {names : List String} {a : Atom} {rest : List Atom} {t : String}
    (hrest : ∀ b, rest.head? = some b → ∃ u, b.text = .ok (.text u)) (ht : a.text = .ok (.text t)) (hn : t ≠ "\\nabla") (he : t ≠ "!") :
    startsWithDigraph? names (a :: rest) = .ok none := by
  cases rest with
  | nil => rfl
  | cons b more =>
    obtain ⟨u, hu⟩ := hrest b rfl
    have hnone : Glyph.digraphs.lookup (t, u) = none := by
      refine List.lookup_eq_none_iff.mpr fun p hp => ?_
      simp only [Glyph.digraphs, List.mem_cons, List.not_mem_nil, or_false] at hp
      rcases hp with rfl | rfl | rfl <;> simp [hn, he]
    have hdigraph : Atom.digraph? a b = .ok none := by
      unfold Atom.digraph?
      rw [ht, hu]
      split
      · rfl
      · exact congrArg Except.ok hnone
    rw [startsWithDigraph?, hdigraph]
    rfl

/-- An atom closes no fence that waits for other types. -/
theorem closesAny_eq_false {a : Atom} : ∀ {closers : List Closer}, (∀ k ∈ closers, a.type ≠ k.type) →
    a.closesAny closers = .ok false
  | [], _ => rfl
  | k :: rest, h => by
    have hk : a.closes k = .ok false := by
      unfold Atom.closes
      rw [if_neg (h k List.mem_cons_self)]
      rfl
    rw [Atom.closesAny, hk]
    exact closesAny_eq_false fun k' hk' => h k' (List.mem_cons_of_mem _ hk')

end Atom

/-! ### Quiet rows -/

/-- Neither scripts nor marks stand in front of the row. -/
structure Quiet (rest : List Atom) : Prop where
  text : ∀ a, rest.head? = some a → ∃ t, a.text = .ok (.text t)
  placeholder : ∀ a, rest.head? = some a → (a.isPlaceholder && a.hasScripts) = false
  digraph : startsWithDigraph? Glyph.postfixDigraphs rest = .ok none
  mark : ∀ a, rest.head? = some a → a.postfixFunction? = .ok none

/-- Nothing in front of the row goes on with an operand. -/
structure Stops (c : Catalog) (closers : List Closer) (rest : List Atom) : Prop extends Quiet rest where
  operand : ∀ a, rest.head? = some a → a.startsOperand c closers = .ok false

theorem Stops.nil : Stops c closers [] where
  text _ h := by cases h
  placeholder _ h := by cases h
  digraph := rfl
  mark _ h := by cases h
  operand _ h := by cases h

namespace Grammar

theorem placeholders_quiet {e : Expr} {rest : List Atom} (h : Quiet rest) : placeholders c e rest = .ok ⟨rest, e⟩ := by
  cases rest with
  | nil => rfl
  | cons a rest =>
    rw [placeholders, if_neg]
    rw [h.placeholder a rfl]
    exact Bool.false_ne_true

theorem marks_quiet {e : Expr} {rest : List Atom} (h : Quiet rest) : marks c e rest = .ok ⟨rest, e⟩ := by
  cases rest with
  | nil => exact marks_nil c e
  | cons a rest =>
    rw [marks_cons, h.digraph, h.mark a rfl]
    rfl

theorem neighbours_stops {e : Expr} {rest : List Atom} (h : Stops c closers rest) :
    neighbours c closers e rest = .ok ⟨rest, e⟩ := by
  cases rest with
  | nil => exact neighbours_nil c closers e
  | cons a rest =>
    rw [neighbours_cons, h.operand a rfl]
    rfl

theorem scripts_plain {a : Atom} {e : Expr} {rest : List Atom} (hs : a.hasScripts = false) (h : Quiet rest) :
    scripts c (some a) e rest = .ok ⟨rest, e⟩ := by
  rw [scripts_some, hs]
  exact placeholders_quiet h

/-- An atom without scripts in front of a quiet row is its own expression. -/
theorem marked_plain {a : Atom} {e : Expr} {rest : List Atom} (ha : atom c a = .ok e) (hs : a.hasScripts = false)
    (h : Quiet rest) : marked c a rest = .ok ⟨rest, e⟩ := by
  rw [marked_eq, ha]
  show (scripts c (some a) e rest >>= _) = _
  rw [scripts_plain hs h]
  exact marks_quiet h

/-- Behind an expression whose name is read there is no call without a fence. -/
theorem application_none {e : Expr} {a : Atom} {rest : List Atom} (he : ∃ is, callName? e = .ok is)
    (hf : a.type ≠ .fenced) (ho : a.type ≠ .opening) : application c e (a :: rest) = .ok none := by
  obtain ⟨is, his⟩ := he
  rw [application_eq, his]
  cases is with
  | false => rfl
  | true =>
    show (callArguments? (a :: rest) >>= _) = _
    rw [callArguments?_none hf ho]
    rfl

/-- What is no name is not called. -/
theorem application_of_callName? {e : Expr} (h : callName? e = .ok false) (atoms : List Atom) :
    application c e atoms = .ok none := by
  rw [application_eq, h]
  rfl

end Grammar

end Formula
