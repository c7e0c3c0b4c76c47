import Formula.Proofs.Expr.SymbolText

/-!
# Marks around operands

A factorial, a Maltese cross and the signs of currency, percent and underscore are written behind the operand to which they
belong, and stay atoms of their own in the row that is read: the last of them takes the scripts of the call.  A curl and a
divergence are written in front of their operand, as a nabla and the sign of a product.
-/

namespace Formula

open Text Atom Expr

/-! ### Marks behind operands -/

/-- The marks that are written behind an operand as they are. -/
inductive PostfixMark where
  | factorial
  | doubleFactorial
  | maltese
  | dollar
  | percent
  | underscore
deriving DecidableEq

namespace PostfixMark

/-- The name of the function. -/
def name : PostfixMark → String
  | factorial => "factorial"
  | doubleFactorial => "factorial2"
  | maltese => "maltese"
  | dollar => "$"
  | percent => "%"
  | underscore => "_"

/-- How the mark is written. -/
def sign : PostfixMark → String
  | factorial => "!"
  | doubleFactorial => "!!"
  | maltese => "\\maltese "
  | dollar => "\\$"
  | percent => "\\%"
  | underscore => "\\_"

/-- The atom of a mark that is a command. -/
def commandAtom (name : String) : Atom := { type := .textual, value := name, latex := .text ("\\" ++ name) }

/-- The atoms in front of the last one. -/
def front : PostfixMark → List Atom
  | doubleFactorial => [exclamationAtom]
  | _ => []

/-- The last atom of the mark, which takes its scripts. -/
def last : PostfixMark → Atom
  | factorial | doubleFactorial => exclamationAtom
  | m => commandAtom m.name

/-- The names of the marks that are commands. -/
def commandNames : List String := ["maltese", "$", "%", "_"]

section

variable {name : String} (h : name ∈ commandNames)
include h

theorem canonicalName_command : Catalog.builtin.canonicalName ("\\" ++ name) = .text name := by
  have hknown : ∀ s ∈ commandNames, trim ("\\" ++ s) = "\\" ++ s ∧ "\\" ++ s ∉ Catalog.builtinNames.map (·.1) ∧
      "\\" ++ s ∉ Catalog.builtinSymbols.map (·.1) ∧ Catalog.operatorName? ("\\" ++ s) = none ∧
      Catalog.builtin.functionName? ("\\" ++ s) = some s := by decide +kernel
  obtain ⟨htrim, hnameless, hsymbolless, hoperatorless, hfunction⟩ := hknown name h
  unfold Catalog.canonicalName Catalog.nameOfTrimmed
  rw [htrim, show Catalog.builtin.names = Catalog.textTable Catalog.builtinNames from rfl,
    show Catalog.builtin.symbols = Catalog.textTable Catalog.builtinSymbols from rfl,
    Catalog.find?_textTable hnameless, Catalog.find?_textTable hsymbolless, hoperatorless, hfunction]
  rfl

theorem symbolAtom_command : Source.symbolAtom .builtin ("\\" ++ name) = .ok (commandAtom name) := by
  have hknown : ∀ s ∈ commandNames, Source.charTypes.lookup ("\\" ++ s) = none ∧ "\\" ++ s ≠ "'" ∧
      Source.isMark ("\\" ++ s) = true := by decide
  obtain ⟨hchar, hunquoted, hmark⟩ := hknown name h
  unfold Source.symbolAtom
  rw [hchar]
  dsimp only
  rw [if_neg hunquoted, if_pos hmark, canonicalName_command h]
  rfl

end

variable (m : PostfixMark)

theorem functionTemplateOf_name : Catalog.builtin.functionTemplateOf (.text m.name) = .ok (.text ("%" ++ m.sign)) := by
  cases m <;> rfl

theorem fillFunction_template (argument sup sub : List Char) :
    Format.fillFunction argument sup sub false ("%" ++ m.sign).toList = argument ++ m.sign.toList := by
  rw [String.toList_append]
  cases m <;> rfl

theorem loose : looseFunctions.contains m.name = true := by cases m <;> rfl

theorem opens : Format.enclosesArgument ("%" ++ m.sign) = false := by cases m <;> rfl

/-- The mark is written behind the argument, and the superscript of the call behind the mark. -/
theorem latex {e sup : Expr} {argument t : String} (hnode : e.isNode = true)
    (hargument : argumentLatex {} (.text m.name) (.text ("%" ++ m.sign)) e parentheses (e.latex {} .builtin) = .ok argument)
    (ht : IsSuperText {} sup t) :
    (call (.text m.name) e parentheses sup missing).latex {} .builtin = .ok (argument ++ m.sign ++ t) := by
  have hplace : holdsChars ['%', '^'] ("%" ++ m.sign).toList = false := by cases m <;> rfl
  rw [latex_call hnode m.functionTemplateOf_name hplace hargument ht, m.fillFunction_template]
  refine congrArg (fun text => Except.ok (text ++ t)) ?_
  rw [← String.toList_inj, String.toList_ofList, String.toList_append]

theorem spells_sign : Source.Spells .builtin m.sign (m.front ++ [m.last]) := by
  have exclamation : Source.Spells .builtin "!" [exclamationAtom] :=
    Source.spells_char (d := '!') (by decide) (by decide) (by decide) (by decide) (by decide) rfl
  have control : ∀ {d : Char}, d.toString ∈ commandNames → isLetter d = false →
      Token.verbatimCommands.contains d.toString = false → Source.IsSymbol (.command d.toString) →
      Source.Spells .builtin ("\\" ++ d.toString) [commandAtom d.toString] := by
    intro d hname hletter hverbatim hsymbol
    refine ⟨_, ?_, Source.yields_symbol hsymbol rfl (symbolAtom_command hname)⟩
    rw [String.toList_append, Char.toString, String.toList_singleton]
    exact Token.scans_sign hletter hverbatim
  cases m with
  | factorial => exact exclamation
  | doubleFactorial => exact exclamation.append exclamation
  | maltese =>
    exact @Source.spells_command _ ['m', 'a', 'l', 't', 'e', 's', 'e'] (by decide) (by decide) (by decide) (by decide) _
      (symbolAtom_command (.head _))
  | dollar => exact @control '$' (by decide) (by decide) (by decide) (by decide)
  | percent => exact @control '%' (by decide) (by decide) (by decide) (by decide)
  | underscore => exact @control '_' (by decide) (by decide) (by decide) (by decide)

variable {m}

theorem worded_last (sup sub : Option (List Atom)) : (m.last.scripted sup sub).Worded := by
  cases m with
  | factorial | doubleFactorial => exact worded_exclamationAtom sup sub
  | _ => exact ⟨⟨_, rfl⟩, .inr ⟨_, rfl⟩, .inl rfl, .inl rfl, .inl rfl, .inl rfl⟩

/-- A mark that is a command begins no digraph, and stands for its function. -/
theorem postfixFunction?_command {name : String} (h : name ∈ commandNames) (sup sub : Option (List Atom)) :
    ∃ t, ((commandAtom name).scripted sup sub).text = .ok (.text t) ∧ (t ≠ "\\nabla" ∧ t ≠ "!") ∧
      (t ≠ "\\cdot" ∧ t ≠ "\\times") ∧ ((commandAtom name).scripted sup sub).postfixFunction? = .ok (some name) := by
  simp only [commandNames, List.mem_cons, List.not_mem_nil, or_false] at h
  rcases h with rfl | rfl | rfl | rfl <;> exact ⟨_, rfl, by decide, by decide, rfl⟩

/-- The mark makes the call of its function of the operand in front, with the scripts of its last atom. -/
theorem marks_read {e e' : Expr} {sup sub : Option (List Atom)}
    (hcarries : Carries .builtin (m.last.scripted sup sub) (apply m.name e) e') {closers : List Closer} {rest : List Atom}
    (hrest : Border .builtin closers rest) :
    Grammar.marks .builtin e (m.front ++ m.last.scripted sup sub :: rest) = .ok ⟨rest, e'⟩ := by
  have command : ∀ {name : String}, name ∈ commandNames →
      Carries .builtin ((commandAtom name).scripted sup sub) (apply name e) e' →
      Grammar.marks .builtin e ((commandAtom name).scripted sup sub :: rest) = .ok ⟨rest, e'⟩ := by
    intro name hname hcarries
    obtain ⟨t, ht, ⟨hnabla, hmark⟩, -, hfunction⟩ := postfixFunction?_command hname sup sub
    refine Grammar.marks_single hrest ?_ hfunction hcarries
    exact startsWithDigraph?_none (fun b hb => (hrest.worded b (List.mem_of_mem_head? hb)).text) ht hnabla hmark
  cases m with
  | factorial => exact Grammar.marks_single hrest (hrest.digraph_exclamation sup sub) rfl hcarries
  | doubleFactorial =>
    -- the first mark carries no scripts, so that both are a digraph
    have hdigraph : startsWithDigraph? Glyph.postfixDigraphs (exclamationAtom :: exclamationAtom.scripted sup sub :: rest) =
        .ok (some "factorial2") := rfl
    have hscripts : Grammar.scripts .builtin (some (exclamationAtom.scripted sup sub)) (apply "factorial2" e) rest =
        .ok ⟨rest, e'⟩ := Grammar.scripts_trailing hcarries hrest.toTrailing
    show Grammar.marks .builtin e (exclamationAtom :: exclamationAtom.scripted sup sub :: rest) = _
    rw [Grammar.marks_cons, hdigraph]
    show (Grammar.scripts .builtin (some (exclamationAtom.scripted sup sub)) (apply "factorial2" e) rest >>= _) = _
    rw [hscripts]
    exact Grammar.marks_quiet hrest.stops.toQuiet
  | maltese => exact command (by decide) hcarries
  | dollar => exact command (by decide) hcarries
  | percent => exact command (by decide) hcarries
  | underscore => exact command (by decide) hcarries

end PostfixMark

/-- **An addend with a mark behind it is a primary**, with the scripts of the mark. -/
theorem IsAddend.postfixed {row : List Atom} {e e' : Expr} (h : IsAddend .builtin row e) (m : PostfixMark)
    {sup sub : Option (List Atom)} (hcarries : Carries .builtin (m.last.scripted sup sub) (apply m.name e) e')
    (hnode : e'.isMissing = false) : IsPrimary .builtin (row ++ (m.front ++ [m.last.scripted sup sub])) e' := by
  refine h.marked ?_ ?_ (fun closers rest hrest => ?_) hnode
  · intro a ha
    rcases List.mem_append.mp ha with ha | ha
    · cases m with
      | doubleFactorial =>
        rw [List.mem_singleton.mp ha]
        exact worded_exclamationAtom none none
      | _ => cases ha
    · rw [List.mem_singleton.mp ha]
      exact PostfixMark.worded_last sup sub
  · have command : ∀ {name : String}, name ∈ PostfixMark.commandNames →
        ∃ a more t, [(PostfixMark.commandAtom name).scripted sup sub] = a :: more ∧ a.type = .textual ∧
          a.text = .ok (.text t) ∧ (t ≠ "\\cdot" ∧ t ≠ "\\times") := by
      intro name hname
      obtain ⟨t, ht, -, hsign, -⟩ := PostfixMark.postfixFunction?_command hname sup sub
      exact ⟨_, [], t, rfl, rfl, ht, hsign⟩
    cases m with
    | factorial | doubleFactorial => exact ⟨_, _, "!", rfl, rfl, rfl, by decide⟩
    | maltese => exact command (.head _)
    | dollar => exact command (by decide)
    | percent => exact command (by decide)
    | underscore => exact command (by decide)
  · rw [List.append_assoc, List.singleton_append]
    exact PostfixMark.marks_read hcarries hrest

/-! ### Marks in front of operands -/

/-- The pairs of marks that are written in front of an operand. -/
inductive PrefixMark where
  | curl
  | divergence
deriving DecidableEq

namespace PrefixMark

/-- The name of the function. -/
def name : PrefixMark → String
  | curl => "curl"
  | divergence => "div"

/-- How the marks are written. -/
def sign : PrefixMark → String
  | curl => "\\nabla\\times "
  | divergence => "\\nabla\\cdot "

/-- The atom of the second mark. -/
def second : PrefixMark → Atom
  | curl => { type := .binary, value := "\\times", latex := "\\times" }
  | divergence => { type := .binary, value := "\\cdot", latex := "\\cdot" }

variable (m : PrefixMark)

theorem functionTemplateOf_name : Catalog.builtin.functionTemplateOf (.text m.name) = .ok (.text (m.sign ++ "%")) := by
  cases m <;> rfl

theorem fillFunction_template (argument sup sub : List Char) :
    Format.fillFunction argument sup sub false (m.sign ++ "%").toList = m.sign.toList ++ argument := by
  have hfill : Format.fillFunction argument sup sub false (m.sign.toList ++ "%".toList) = m.sign.toList ++ (argument ++ []) := by
    cases m <;> rfl
  rwa [List.append_nil, ← String.toList_append] at hfill

theorem loose : looseFunctions.contains m.name = true := by cases m <;> rfl

theorem opens : Format.enclosesArgument (m.sign ++ "%") = false := by cases m <;> rfl

/-- The marks are written in front of the argument. -/
theorem latex {e : Expr} {argument : String} (hnode : e.isNode = true)
    (hargument : argumentLatex {} (.text m.name) (.text (m.sign ++ "%")) e parentheses (e.latex {} .builtin) = .ok argument) :
    (apply m.name e).latex {} .builtin = .ok (m.sign ++ argument) := by
  have hplace : holdsChars ['%', '^'] (m.sign ++ "%").toList = false := by cases m <;> rfl
  have hlatex := latex_call hnode m.functionTemplateOf_name hplace hargument isSuperText_missing
  rw [m.fillFunction_template, String.append_empty] at hlatex
  refine hlatex.trans (congrArg Except.ok ?_)
  rw [← String.toList_inj, String.toList_ofList, String.toList_append]

theorem spells_sign : Source.Spells .builtin m.sign [nablaAtom, m.second] := by
  cases m with
  | curl =>
    exact spellsBefore_nabla.append (@Source.spells_command _ ['t', 'i', 'm', 'e', 's'] (by decide) (by decide) (by decide)
      (by decide) _ rfl) ⟨_, _, rfl, by decide⟩
  | divergence =>
    exact spellsBefore_nabla.append (@Source.spells_command _ ['c', 'd', 'o', 't'] (by decide) (by decide) (by decide)
      (by decide) _ rfl) ⟨_, _, rfl, by decide⟩

/-- The marks make the call of their function of the primary behind. -/
theorem primary {closers : List Closer} (hclosers : InParentheses closers) {row rest : List Atom} {e : Expr}
    (hread : Grammar.primary .builtin closers row = .ok ⟨rest, e⟩) (hrest : Stops .builtin closers rest) :
    Grammar.primary .builtin closers (nablaAtom :: m.second :: row) = .ok ⟨rest, apply m.name e⟩ := by
  cases m with
  | curl => exact Grammar.primary_digraph rfl (by decide) (by decide) hclosers hread hrest
  | divergence => exact Grammar.primary_digraph rfl (by decide) (by decide) hclosers hread hrest

theorem begins {row : List Atom} (h : ∀ a ∈ row, a.Worded) : Begins (nablaAtom :: m.second :: row) where
  worded a ha := by
    rcases List.mem_cons.mp ha with rfl | ha
    · exact isAddend_nabla.worded _ (List.mem_singleton_self _)
    · rcases List.mem_cons.mp ha with rfl | ha
      · cases m <;> exact ⟨⟨_, rfl⟩, .inr ⟨_, rfl⟩, .inl rfl, .inl rfl, .inl rfl, .inl rfl⟩
      · exact h a ha
  head := ⟨nablaAtom, m.second :: row, rfl, by decide, rfl⟩

end PrefixMark

/-- **A primary with marks in front is a primary.** -/
theorem IsPrimary.prefixed {row : List Atom} {e : Expr} (h : IsPrimary .builtin row e) (m : PrefixMark) :
    IsPrimary .builtin (nablaAtom :: m.second :: row) (apply m.name e) :=
  ⟨m.begins h.worded, rfl, fun closers rest hclosers hrest => m.primary hclosers (h.read closers rest hclosers hrest) hrest.stops⟩

/-- **An addend with marks in front is an expression**, where no sign of a product follows. -/
theorem IsAddend.prefixed {row : List Atom} {e : Expr} (h : IsAddend .builtin row e) (m : PrefixMark) :
    IsInner .builtin (nablaAtom :: m.second :: row) (apply m.name e) := by
  refine ⟨m.begins h.worded, fun closers tail hclosers htail hdot hop => ?_⟩
  have hread := m.primary hclosers (h.primary hclosers htail.toBorder hdot) htail.stops
  rw [List.cons_append, List.cons_append, hread]
  exact @Repeats.expression _ Infix.sum.operator _ _ _ _ .nil hop _

end Formula
