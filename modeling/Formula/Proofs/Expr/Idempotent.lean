import Formula.Convert
import Formula.Proofs.Expr.Steady

/-!
# Converting twice

A text in normal form within the limits is converted to itself without a warning, and a steady expression is written as
such a text.  So converting a source a second time changes nothing if its expression is steady.

It is not so for every source.  The argument of a function behind a name is a group with a fence of its own, and is written
in parentheses around that fence, so that each pass adds a pair.
-/

namespace Formula

open Text Expr

/-- The source and its atoms are within the limits, and nothing in them nests deeper than any reading goes. -/
structure Limits.Admits (l : Limits) (source : String) : Prop where
  accepted : l.checkSource source = .ok ()
  depth : ∀ read, Source.read .builtin source = .ok read → read.depth ≤ recursionLimit
  atoms : ∀ atoms, Source.atoms .builtin source = .ok atoms → l.checkAtoms atoms = .ok ()
  signs : ∀ atoms, Source.atoms .builtin source = .ok atoms → listSignRun .builtin 0 atoms ≤ recursionLimit

/-- Whether the source is within the limits, as far as it can be read. -/
def Limits.evaluates (l : Limits) (source : String) : Bool :=
  match l.checkSource source, Source.read .builtin source with
  | .ok _, .ok read => (l.checkAtoms read.value).toOption.isSome && decide (read.depth ≤ recursionLimit) &&
      decide (listSignRun .builtin 0 read.value ≤ recursionLimit)
  | _, _ => false

theorem Limits.admits_of_eval {l : Limits} {source : String} (h : l.evaluates source = true) : l.Admits source := by
  unfold evaluates at h
  split at h
  · rename_i _ read hcheck hread
    simp only [Bool.and_eq_true, decide_eq_true_eq, Option.isSome_iff_exists] at h
    obtain ⟨⟨⟨_, hatoms⟩, hdepth⟩, hsigns⟩ := h
    have hvalue : Source.atoms .builtin source = .ok read.value := by
      unfold Source.atoms
      rw [hread]
      rfl
    refine ⟨hcheck, fun read' h => ?_, fun atoms h => ?_, fun atoms h => ?_⟩
    · rwa [← Except.ok.inj (hread.symm.trans h)]
    · rw [← Except.ok.inj (hvalue.symm.trans h)]
      exact Outcome.eq_ok_of_toOption hatoms
    · rwa [← Except.ok.inj (hvalue.symm.trans h)]
  · cases h

/-- What is read without limits is read within them. -/
theorem Limits.Admits.parseLatex {l : Limits} {source : String} (h : l.Admits source) {atoms : List Atom} {e : Expr}
    (hatoms : Source.atoms .builtin source = .ok atoms) (he : ofAtoms .builtin atoms = .ok e) :
    parseLatex l .builtin (.text source) = .ok e := by
  obtain ⟨read, hread, hvalue⟩ := Outcome.bind_eq_ok.mp hatoms
  obtain rfl : read.value = atoms := Except.ok.inj (by exact hvalue)
  have hsource : readSource .builtin source = .ok read.value := by
    unfold readSource
    rw [hread]
    exact if_neg (Nat.not_lt.mpr (h.depth read hread))
  have htree : readAtoms .builtin read.value = .ok e := by
    unfold readAtoms
    rw [if_neg (Nat.not_lt.mpr (h.signs read.value hatoms)), he]
  unfold Formula.parseLatex
  dsimp only
  rw [h.accepted, hsource]
  show (l.checkAtoms read.value >>= fun _ => renamed .parseRecursion (readAtoms .builtin read.value)) = _
  rw [h.atoms read.value hatoms, htree]
  rfl

/-- **A text in normal form is converted to itself.** -/
theorem NormalWhole.convert {text : String} (h : NormalWhole text) (hlimits : ({} : Limits).Admits text) :
    convert {} .builtin (.text text) = .ok ⟨text, []⟩ := by
  obtain ⟨e, hread, hwrites⟩ := h
  obtain ⟨atoms, hatoms, he⟩ := hread.reads
  have hwarnings : e.warnings = .ok [] := by
    unfold Expr.warnings
    rw [hwrites.faultless.errors]
    rfl
  unfold Formula.convert
  show (parseLatex {} .builtin (.text text) >>= _) = _
  rw [hlimits.parseLatex hatoms he]
  show (e.warnings >>= _) = _
  rw [hwarnings]
  show (e.latex {} .builtin >>= _) = _
  rw [hwrites.latex]
  rfl

/-- **Conversion is idempotent on steady expressions.**  A source whose expression is steady is converted without a
warning, and if the result is within the limits, it is converted to itself. -/
theorem convert_idempotent {source : String} {k : TextShape} {e : Expr} {out : Conversion}
    (he : parseLatex {} .builtin (.text source) = .ok e) (hsteady : Steady k e)
    (hout : convert {} .builtin (.text source) = .ok out) (hlimits : ({} : Limits).Admits out.latex) :
    out.warnings = [] ∧ convert {} .builtin (.text out.latex) = .ok out := by
  obtain ⟨text, hnormal⟩ := hsteady.isNormal
  have hfirst : convert {} .builtin (.text source) = .ok ⟨text, []⟩ := by
    unfold Formula.convert
    show (parseLatex {} .builtin (.text source) >>= _) = _
    rw [he]
    show (do
      let warnings ← e.warnings
      let latex ← e.latex {} .builtin
      return (⟨latex, warnings⟩ : Conversion)) = _
    unfold Expr.warnings
    rw [hnormal.writes.faultless.errors, hnormal.writes.latex]
    rfl
  obtain rfl : out = ⟨text, []⟩ := Except.ok.inj (hout.symm.trans hfirst)
  exact ⟨rfl, hnormal.whole.convert hlimits⟩

/-- Parentheses around a letter are not written, and what is written then stays. -/
theorem convert_idempotent_difference : ∃ k e out,
    parseLatex {} .builtin (.text "a-(b)^\x7bc\x7d") = .ok e ∧ Steady k e ∧
      convert {} .builtin (.text "a-(b)^\x7bc\x7d") = .ok out ∧ ({} : Limits).Admits out.latex ∧ out.warnings = [] ∧
      convert {} .builtin (.text out.latex) = .ok out := by
  have ha := isBaseText_letter (by decide : 'a'.isAlpha = true)
  have hb := isBaseText_letter (by decide : 'b'.isAlpha = true)
  have hc := isBaseText_letter (by decide : 'c'.isAlpha = true)
  have hbase := (hb.isOperandText rfl).isPrimaryText.isChainText.parenthesized (.leaf _)
  have hscript := (hc.isOperandText rfl).isPrimaryText.isChainText.isWholeText (.leaf _)
  obtain ⟨start, hchain⟩ := (ha.isOperandText rfl).isPrimaryText.isChainText.append_infix .difference
    (hbase.raised rfl hscript).isPrimaryText.isChainText
  obtain ⟨atoms, hatoms, he⟩ := (hchain.isWholeText (@Arranges.node _ [] [] _ _ _ (.leaf _) (.leaf _)
    (fun _ h => by cases h) (fun _ h => by cases h))).reads
  have hparse := (Limits.admits_of_eval (by decide +kernel : Limits.evaluates {} "a-(b)^\x7bc\x7d" = true)).parseLatex hatoms he
  have hsteady := Steady.operation .difference (@Steady.letter 'a' (by decide))
    (.superscript (.simple (@Steady.letter 'b' (by decide)) rfl) rfl (@Steady.letter 'c' (by decide)))
  have hparts : (convert {} .builtin (.text "a-(b)^\x7bc\x7d")).toOption.map (·.latex) = some "a-b^\x7bc\x7d" := by
    decide +kernel
  obtain ⟨out, hout, hlatex⟩ := Option.map_eq_some_iff.mp hparts
  have hlimits : ({} : Limits).Admits out.latex := by
    rw [hlatex]
    exact Limits.admits_of_eval (by decide +kernel)
  exact ⟨_, _, out, hparse, hsteady, Outcome.eq_ok_of_toOption hout, hlimits,
    convert_idempotent hparse hsteady (Outcome.eq_ok_of_toOption hout) hlimits⟩

/-- The parentheses around the argument of a function grow. -/
theorem convert_argument_grows : ∃ out, convert {} .builtin (.text "\\sin(x+1)") = .ok out ∧ out.warnings = [] ∧
    convert {} .builtin (.text out.latex) ≠ .ok out := by
  have hfirst : (convert {} .builtin (.text "\\sin(x+1)")).toOption.map (fun out => (out.latex, out.warnings)) =
      some ("\\sin ((x+1))", []) := by decide +kernel
  have hsecond : (convert {} .builtin (.text "\\sin ((x+1))")).toOption.map (·.latex) = some "\\sin (((x+1)))" := by
    decide +kernel
  obtain ⟨out, hout, hparts⟩ := Option.map_eq_some_iff.mp hfirst
  obtain ⟨hlatex, hwarnings⟩ := Prod.mk.inj hparts
  refine ⟨out, Outcome.eq_ok_of_toOption hout, hwarnings, fun hsame => ?_⟩
  rw [hlatex] at hsame
  rw [hsame] at hsecond
  have : some out.latex = some "\\sin (((x+1)))" := hsecond
  rw [hlatex] at this
  exact absurd this (by decide)

end Formula
