import Formula.Proofs.Expr.Idempotent
import Formula.Proofs.Expr.ScriptedCalls

/-!
# Scripts of converted sources

What is written of a tree of the vocabulary is read as atoms, and no placeholder stands among them, at any depth, if and only
if every script of the tree has a place.  The trees are those that the reader builds: scripts stand on numbers, symbols,
groups and calls.
-/

namespace Formula

open Text Atom Expr

/-! ### Trees of the vocabulary -/

/-- The names of functions: those of the catalog, names between braces, and letters and digits of any script. -/
inductive IsFunctionName : String → Prop
  | command {name : String} : name ∈ Catalog.commandFunctions → IsFunctionName name
  | listed {name : String} : name ∈ Catalog.builtinFunctionTemplates.map (·.1) → IsFunctionName name
  | named {name : String} : Token.KeepsGroup name.toList → '%' ∉ name.toList → name.length ≠ 1 →
    name ∉ Catalog.builtinFunctionTemplates.map (·.1) → IsFunctionName name
  | character {d : Char} : isLetterOrDigit d = true → IsFunctionName d.toString

/-- The trees of the vocabulary. -/
inductive Known : Expr → Prop
  | missing : Known missing
  | number {value : Datum} {s t : Expr} : value.IsNumeric → Known s → Known t → Known (number value s t)
  | symbol {name variant : Datum} {s t : Expr} : IsSymbolName name variant → Known s → Known t → Known (symbol name variant s t)
  | text {content : String} : Token.KeepsGroup content.toList → Known (ofText (.text content))
  | group {e s t : Expr} {left right : String} : IsLeftGlyph left →
    IsGlyph right ∨ right = "." ∧ s = .missing ∧ t = .missing → Known e → Known s → Known t →
    Known (group e (.tuple [.text left, .text right]) s t)
  | between (o : Infix) {l r : Expr} : Known l → Known r → Known (between (.text o.name) l r)
  | division {l r : Expr} : Known l → Known r → Known (between (.text "/") l r)
  | signed (sign : Sign) {e : Expr} : Known e → Known (before (.text sign.name) e)
  | quotient {l r : Expr} : Known l → Known r → Known (quotient l r)
  | squareRoot {e : Expr} : Known e → Known (squareRoot e)
  | power {l r s t : Expr} : Known l → Known r → Known s → Known t → Known (call "pow" (tuple [l, r]) parentheses s t)
  | call {name : String} {e s t : Expr} : IsFunctionName name → Known e → Known s → Known t →
    Known (call (.text name) e parentheses s t)
  | arguments {d : Char} {items : List Expr} {s t : Expr} : isLetterOrDigit d = true → (∀ e ∈ items, Known e) → Known s →
    Known t → Known (Expr.call (.text d.toString) (tuple items) parentheses s t)

/-- **A call of a function of the vocabulary.** -/
theorem Placed.called {name text above below : String} {e s t : Expr} (hname : IsFunctionName name) (he : Placed e text)
    (hs : Placed s above) (ht : Placed t below) : ∃ text, Placed (call (.text name) e parentheses s t) text := by
  cases hname with
  | command hcommand => exact headed (hasHead_command hcommand) he hs ht
  | named hchars hplace hlong htemplate =>
    by_cases hcommand : name ∈ Catalog.commandFunctions
    · exact headed (hasHead_command hcommand) he hs ht
    · exact headed (hasHead_named hchars hplace hlong hcommand htemplate) he hs ht
  | character hd => exact lettered hd he hs ht
  | listed hlisted =>
    have hcases : ∀ name ∈ Catalog.builtinFunctionTemplates.map (·.1), name = "sqrt" ∨ (∃ p ∈ raisedMarks, p.1 = name) ∨
        (∃ m ∈ [PrefixMark.curl, .divergence], m.name = name) ∨
        (∃ m ∈ [PostfixMark.factorial, .doubleFactorial, .maltese, .dollar, .percent, .underscore], m.name = name) ∨
        ∃ f ∈ [Enclosure.abs, .norm, .floor, .ceil, .angle, .upperCorner, .lowerCorner, .group, .moustache, .brace],
          f.name = name := by decide
    rcases hcases name hlisted with rfl | ⟨p, hp, rfl⟩ | ⟨m, -, rfl⟩ | ⟨m, -, rfl⟩ | ⟨f, -, rfl⟩
    · exact surrounded surrounds_root he hs ht
    · exact raised hp he hs ht
    · exact prefixed m he hs ht
    · exact marked m he hs ht
    · exact surrounded (surrounds_enclosure f) he hs ht

/-- **Every tree of the vocabulary is written**, and attached if and only if its scripts have places. -/
theorem Known.placed {e : Expr} (h : Known e) : ∃ text, Placed e text := by
  induction h with
  | missing => exact ⟨_, .missing⟩
  | number hv _ _ ihs iht =>
    obtain ⟨_, hs⟩ := ihs
    obtain ⟨_, ht⟩ := iht
    exact Placed.number hv hs ht
  | symbol hname _ _ ihs iht =>
    obtain ⟨_, hs⟩ := ihs
    obtain ⟨_, ht⟩ := iht
    exact Placed.symbol hname hs ht
  | text hcontent => exact Placed.ofText hcontent
  | group hl hr _ _ _ ih ihs iht =>
    obtain ⟨_, he⟩ := ih
    obtain ⟨_, hs⟩ := ihs
    obtain ⟨_, ht⟩ := iht
    exact Placed.group hl hr he hs ht
  | between o _ _ ihl ihr =>
    obtain ⟨_, hl⟩ := ihl
    obtain ⟨_, hr⟩ := ihr
    exact Placed.between o hl hr
  | division _ _ ihl ihr =>
    obtain ⟨_, hl⟩ := ihl
    obtain ⟨_, hr⟩ := ihr
    exact (Placed.quotient hl hr).1
  | signed sign _ ih =>
    obtain ⟨_, he⟩ := ih
    exact Placed.signed sign he
  | quotient _ _ ihl ihr =>
    obtain ⟨_, hl⟩ := ihl
    obtain ⟨_, hr⟩ := ihr
    exact (Placed.quotient hl hr).2
  | squareRoot _ ih =>
    obtain ⟨_, he⟩ := ih
    exact Placed.squareRoot he
  | power _ _ _ _ ihl ihr ihs iht =>
    obtain ⟨_, hl⟩ := ihl
    obtain ⟨_, hr⟩ := ihr
    obtain ⟨_, hs⟩ := ihs
    obtain ⟨_, ht⟩ := iht
    exact Placed.power hl hr hs ht
  | call hname _ _ _ ih ihs iht =>
    obtain ⟨_, he⟩ := ih
    obtain ⟨_, hs⟩ := ihs
    obtain ⟨_, ht⟩ := iht
    exact Placed.called hname he hs ht
  | arguments hd _ _ _ ih ihs iht =>
    obtain ⟨_, hs⟩ := ihs
    obtain ⟨_, ht⟩ := iht
    exact Placed.arguments hd ih hs ht

/-! ### Conversion -/

/-- **The scripts of a converted source.**  A source is converted without warnings, and its tree is one of the vocabulary: what
is written is read as atoms, and there is no placeholder among them, at any depth, if and only if every script of the tree has a
place. -/
theorem converted_scripts_attached {source latex : String} {e : Expr}
    (hconvert : convert {} .builtin (.text source) = .ok ⟨latex, []⟩) (htree : parseLatex {} .builtin (.text source) = .ok e)
    (hknown : Known e) : ∃ atoms, Source.atoms .builtin latex = .ok atoms ∧
      ((∀ a, Inside atoms a → a.isPlaceholder = false) ↔ e.scriptsFit = true) := by
  obtain ⟨tree, hread, hconvert⟩ := Outcome.bind_eq_ok.mp hconvert
  obtain rfl : tree = e := Except.ok.inj ((show parseLatex {} .builtin (.text source) = .ok tree from hread).symm.trans htree)
  obtain ⟨warnings, -, hconvert⟩ := Outcome.bind_eq_ok.mp hconvert
  obtain ⟨text, hlatex, hconvert⟩ := Outcome.bind_eq_ok.mp hconvert
  obtain ⟨rfl, -⟩ := Conversion.mk.inj (Except.ok.inj hconvert)
  obtain ⟨written, hplaced⟩ := hknown.placed
  obtain rfl : text = written := Except.ok.inj ((show tree.latex {} .builtin = .ok text from hlatex).symm.trans hplaced.latex)
  exact hplaced.attached.atoms

/-- A superscript on a letter in parentheses, which are not written. -/
theorem converted_scripts_attached_difference : ∃ e latex atoms,
    convert {} .builtin (.text "a-(b)^\x7bc\x7d") = .ok ⟨latex, []⟩ ∧
      parseLatex {} .builtin (.text "a-(b)^\x7bc\x7d") = .ok e ∧ Known e ∧ Source.atoms .builtin latex = .ok atoms ∧
      ∀ a, Inside atoms a → a.isPlaceholder = false := by
  have ha := isBaseText_letter (by decide : 'a'.isAlpha = true)
  have hb := isBaseText_letter (by decide : 'b'.isAlpha = true)
  have hc := isBaseText_letter (by decide : 'c'.isAlpha = true)
  have hbase := (hb.isOperandText rfl).isPrimaryText.isChainText.parenthesized (.leaf _)
  have hscript := (hc.isOperandText rfl).isPrimaryText.isChainText.isWholeText (.leaf _)
  obtain ⟨start, hchain⟩ := (ha.isOperandText rfl).isPrimaryText.isChainText.append_infix .difference
    (hbase.raised rfl hscript).isPrimaryText.isChainText
  obtain ⟨atoms, hatoms, he⟩ := (hchain.isWholeText (@Arranges.node _ [] [] _ _ _ (.leaf _) (.leaf _)
    (fun _ h => by cases h) (fun _ h => by cases h))).reads
  have hparse := (Limits.admits_of_eval (by decide +kernel : Limits.evaluates {} "a-(b)^\x7bc\x7d" = true)).parseLatex hatoms he
  have letter : ∀ {d : Char}, d.isAlpha = true → Known (ofSymbol (.text d.toString) .null) :=
    fun hd => .symbol (.letter (.inl (isLetter_of_isAlpha hd))) .missing .missing
  have hparentheses := @isGlyph_partner ("(", ")") (by decide)
  have hknown := Known.between .difference (@letter 'a' (by decide)) (@Known.group _ _ .missing "(" ")" (.inl hparentheses.1)
    (.inl hparentheses.2) (@letter 'b' (by decide)) (@letter 'c' (by decide)) .missing)
  have hparts : (convert {} .builtin (.text "a-(b)^\x7bc\x7d")).toOption.map (fun out => (out.latex, out.warnings)) =
      some ("a-b^\x7bc\x7d", []) := by decide +kernel
  obtain ⟨⟨latex, warnings⟩, hout, hparts⟩ := Option.map_eq_some_iff.mp hparts
  obtain ⟨-, rfl⟩ := Prod.mk.inj hparts
  have hconvert := Outcome.eq_ok_of_toOption hout
  obtain ⟨atoms, hatoms, hiff⟩ := converted_scripts_attached hconvert hparse hknown
  exact ⟨_, _, atoms, hconvert, hparse, hknown, hatoms, hiff.mpr rfl⟩

/-- **A mark that is written as a superscript leaves no place for that of the call**: there are two behind one letter. -/
theorem prime_script_unattached : ∃ latex atoms, convert {} .builtin (.text "x\\prime^2") = .ok ⟨latex, []⟩ ∧
    Source.atoms .builtin latex = .ok atoms ∧ ∃ a, Inside atoms a ∧ a.isPlaceholder = true := by
  have hconvert : (convert {} .builtin (.text "x\\prime^2")).toOption.map (fun out => (out.latex, out.warnings)) =
      some ("x ^\x7b\\prime\x7d^\x7b2\x7d", []) := by decide +kernel
  have hatoms : (Source.atoms .builtin "x ^\x7b\\prime\x7d^\x7b2\x7d").toOption.any (·.any isPlaceholder) = true := by
    decide +kernel
  obtain ⟨⟨latex, warnings⟩, hout, hparts⟩ := Option.map_eq_some_iff.mp hconvert
  obtain ⟨rfl, rfl⟩ := Prod.mk.inj hparts
  obtain ⟨atoms, hread, hany⟩ := (Option.any_eq_true ..).mp hatoms
  obtain ⟨a, ha, hplaceholder⟩ := List.any_eq_true.mp hany
  exact ⟨_, atoms, Outcome.eq_ok_of_toOption hout, Outcome.eq_ok_of_toOption hread, a, .here ha, hplaceholder⟩

end Formula
