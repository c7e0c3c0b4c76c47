import Formula.Proofs.Reader.Operands
import Formula.Proofs.Reader.TwinReading

/-!
# Spaces and placeholders

Two things that the reader does not see.  Spaces are left out of every row, at every depth, before it is read
(`ofAtoms_tightRow`).  Scripts may stand on an operand or on a placeholder behind it (`ofAtoms_placeholder`), unless the
operand is the second atom of a prefix digraph: then its scripts are lost with it, while the placeholder keeps them
(`ofAtoms_scripted_dot`).
-/

namespace Formula

open Atom Expr Outcome

/-- **Spaces do not matter.**  For every catalog, a row and the row with no spaces at any depth have the same outcome: the
same expression, or the same fault. -/
theorem ofAtoms_tightRow (c : Catalog) (row : List Atom) : ofAtoms c (tightRow row) = ofAtoms c row := by
  have hloose : Loose (· = .recursion) c (tightRow row) row := loose_of_tightRow (tightRow_tightRow row)
  have ends : ∀ (row : List Atom) (f : Fault), ofAtoms c row = .error f → f ≠ .recursion :=
    fun row f hf => (ofAtoms_ends c row).of_error hf
  exact (hloose.ofAtoms (F := (· = .recursion)) rfl).eq (ends _) (ends _)

namespace Atom

/-- A placeholder with scripts. -/
def bearing (sup sub : Option (List Atom)) : Atom :=
  { type := .ordinary, value := .text zeroWidth, superscript := sup, subscript := sub }

/-- The last atom of a row besides spaces makes no prefix digraph with the one behind it. -/
def NoPrefix (front : List Atom) (b : Atom) : Prop :=
  ∀ a, (unspaced front).getLast? = some a → ∀ name, startsWithDigraph? Glyph.prefixDigraphs [a, b] ≠ .ok (some name)

theorem akin_scripted (b : Atom) (sup sub : Option (List Atom)) : Akin (b.scripted sup sub) b :=
  ⟨rfl, rfl, rfl, .refl _, .refl _, .refl _, .refl _, rfl, rfl, rfl, rfl⟩

/-- What an operand is does not depend on its scripts. -/
theorem takesScripts_scripted {c : Catalog} {b : Atom} (h : TakesScripts c b) (sup sub : Option (List Atom)) :
    TakesScripts c (b.scripted sup sub) := by
  cases h with
  | construct ht => exact .construct ht
  | function ht hf => exact .function ht hf
  | symbol ht hp htext hnone => exact .symbol ht hp htext hnone

end Atom

variable {F : Fault → Prop} {c : Catalog} {b : Atom} {sup sub : Option (List Atom)}

/-- An operand with scripts and a placeholder behind it with the same ones, in front of the same row. -/
theorem split_scripted (hb : TakesScripts c b) (hkeyed : b.Keyed F) (hbare : b.hasScripts = false)
    (hsome : sup.isSome = true ∨ sub.isSome = true) : Split F c (b.scripted sup sub) b (bearing sup sub) where
  takes := takesScripts_scripted hb sup sub
  keyed := hkeyed
  akin := akin_scripted b sup sub
  scripted := (Bool.or_eq_true _ _).mpr hsome
  bare := hbare
  bearer := ⟨rfl, rfl, rfl⟩
  scripts := ⟨.refl _, .refl _⟩

/-- Twins with the same row in front of them, where its last atom is clear of them. -/
theorem Twins.front {l r : List Atom} (h : Twins F c l r) : ∀ {front : List Atom}, (∀ a ∈ front, a.type ≠ .spacing) →
    (∀ a, front.getLast? = some a → Clear a l r) → Twins F c (front ++ l) (front ++ r)
  | [], _, _ => h
  | [a], hs, hclear => .same (akin_of_tight rfl).1 (.refl a) (hs a List.mem_cons_self) (hclear a rfl) h
  | a :: b :: front, hs, hclear => by
    refine .same (akin_of_tight rfl).1 (.refl a) (hs a List.mem_cons_self) (.inl rfl) ?_
    refine @Twins.front _ _ h _ (fun x hx => hs x (List.mem_cons_of_mem a hx)) fun x hx => hclear x ?_
    rwa [List.getLast?_cons_cons]

/-- The rows with the scripts on the operand and on a placeholder behind it. -/
theorem loose_placeholder (hb : TakesScripts c b) (hkeyed : b.Keyed F) (hbare : b.hasScripts = false)
    (hsome : sup.isSome = true ∨ sub.isSome = true) {front : List Atom} (hfront : NoPrefix front b) (behind : List Atom) :
    Loose F c (front ++ b.scripted sup sub :: behind) (front ++ b :: bearing sup sub :: behind) := by
  have hspace : b.type ≠ .spacing := hb.type_ne (by decide)
  have hleft : unspaced (b.scripted sup sub :: behind) = b.scripted sup sub :: unspaced behind :=
    @unspaced_cons_of_ne (b.scripted sup sub) hspace behind
  have hright : unspaced (b :: bearing sup sub :: behind) = b :: bearing sup sub :: unspaced behind :=
    unspaced_cons_of_ne hspace _
  have hbehind : Twins F c (unspaced behind) (unspaced behind) :=
    .of_tight (fun a ha => ne_spacing_of_mem_unspaced ha) rfl
  unfold Loose
  rw [unspaced_append, unspaced_append, hleft, hright]
  refine (Twins.split (split_scripted hb hkeyed hbare hsome) hbehind).front
    (fun a ha => ne_spacing_of_mem_unspaced ha) fun a ha => .inr fun name hname => ?_
  -- A digraph is asked for with two atoms, and scripts on the second one make no difference to it.
  have hdigraph : digraph? a (b.scripted sup sub) = digraph? a b := rfl
  have hpair : startsWithDigraph? Glyph.prefixDigraphs (a :: b.scripted sup sub :: unspaced behind) =
      startsWithDigraph? Glyph.prefixDigraphs [a, b] := by
    rw [startsWithDigraph?, startsWithDigraph?, hdigraph]
  exact hfront a ha name (hpair ▸ hname)

/-- **Scripts on an operand and on a placeholder behind it are read alike.**  For every catalog, every operand that takes
scripts and all rows in front of it and behind it: unless the operand ends a prefix digraph, both forms that are read have
the same expression; and if the spelling of the operand can be looked up, as every text can, both have the same outcome. -/
theorem ofAtoms_placeholder (c : Catalog) {b : Atom} (hb : TakesScripts c b) (hbare : b.hasScripts = false)
    {sup sub : Option (List Atom)} (hsome : sup.isSome = true ∨ sub.isSome = true) {front : List Atom}
    (hfront : NoPrefix front b) (behind : List Atom) :
    (∀ e e', ofAtoms c (front ++ b.scripted sup sub :: behind) = .ok e →
      ofAtoms c (front ++ b :: bearing sup sub :: behind) = .ok e' → e = e') ∧
    ((∃ d k, b.text = .ok d ∧ d.key = .ok k) →
      ofAtoms c (front ++ b.scripted sup sub :: behind) = ofAtoms c (front ++ b :: bearing sup sub :: behind)) := by
  constructor
  · intro e e' he he'
    have hkeyed : b.Keyed fun _ => True :=
      within_of_forall (fun _ => trivial) (fun t => within_of_forall (fun _ => trivial) (fun _ => trivial) _) _
    exact ((loose_placeholder hb hkeyed hbare hsome hfront behind).ofAtoms trivial).of_ok he he'
  · rintro ⟨d, k, htext, hkey⟩
    have hkeyed : b.Keyed (· = .recursion) := by
      unfold Atom.Keyed
      rw [htext]
      exact within_ok (.of_eq_ok hkey trivial)
    have ends : ∀ (row : List Atom) (f : Fault), ofAtoms c row = .error f → f ≠ .recursion :=
      fun row f hf => (ofAtoms_ends c row).of_error hf
    exact ((loose_placeholder hb hkeyed hbare hsome hfront behind).ofAtoms (F := (· = .recursion)) rfl).eq (ends _) (ends _)

/-- The row `∇ x^n y`, with the scripts on `x` and on a placeholder. -/
theorem ofAtoms_placeholder_power : ∃ front b behind sup, TakesScripts .builtin b ∧ b.hasScripts = false ∧
    NoPrefix front b ∧ ∃ e, ofAtoms .builtin (front ++ b.scripted (some sup) none :: behind) = .ok e ∧
      ofAtoms .builtin (front ++ b :: bearing (some sup) none :: behind) = .ok e := by
  let nabla : Atom := { type := .textual, latex := .text "\\nabla" }
  let letter (s : String) : Atom := { type := .ordinary, value := .text s }
  have hcomma : (letter "x").text ≠ .ok (.text ",") := fun h => absurd (Datum.text.inj (Except.ok.inj h)) (by decide)
  have hb : TakesScripts .builtin (letter "x") := .symbol rfl rfl hcomma fun p hp => by cases hp
  have hfront : NoPrefix [nabla] (letter "x") := by
    intro a ha name hname
    cases ha
    cases hname
  refine ⟨[nabla], letter "x", [letter "y"], [letter "n"], hb, rfl, hfront, _, rfl, ?_⟩
  rw [← (ofAtoms_placeholder .builtin hb rfl (.inl rfl) hfront [letter "y"]).2 ⟨_, _, rfl, rfl⟩]
  rfl

/-- The row `∇·^n x` has no `n`: the second atom of a prefix digraph loses its scripts.  A placeholder behind it keeps
them. -/
theorem ofAtoms_scripted_dot :
    let nabla : Atom := { type := .textual, latex := .text "\\nabla" }
    let dot : Atom := { type := .text, value := .text "\\cdot" }
    let letter (s : String) : Atom := { type := .ordinary, value := .text s }
    let lost := apply "div" (ofSymbol "x" .null)
    let kept := apply "div" (between "*"
      (group (unreadable "" "sub/superscript without a base") parentheses (ofSymbol "n" .null) missing) (ofSymbol "x" .null))
    TakesScripts .builtin dot ∧ dot.hasScripts = false ∧
      ofAtoms .builtin ([nabla] ++ dot.scripted (some [letter "n"]) none :: [letter "x"]) = .ok lost ∧
      ofAtoms .builtin ([nabla] ++ dot :: bearing (some [letter "n"]) none :: [letter "x"]) = .ok kept ∧ lost ≠ kept :=
  ⟨.construct (by decide), rfl, rfl, rfl, nofun⟩

end Formula
