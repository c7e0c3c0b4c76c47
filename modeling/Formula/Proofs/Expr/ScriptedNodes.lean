import Formula.Proofs.Expr.ScriptPlaces

/-!
# Nodes and the places of their scripts

For every kind of node: its text is attached if and only if all scripts in the node have a place, and where more scripts may
be put behind it, there is a place for them if the node says so.
-/

namespace Formula

open Number Text Atom Expr

open Source (SpellsAttached EndsFree)

/-- The node is written as the text, which is attached if and only if all scripts in the node have a place.  A bare argument
and a simple base, which get no parentheses, have the places behind them that the node has. -/
structure Placed (e : Expr) (text : String) : Prop where
  latex : e.latex {} .builtin = .ok text
  attached : SpellsAttached text (e.scriptsFit = true)
  operand : ∃ own, e.precedence .builtin = .ok own
  argument : ∃ bare, e.isBareArgument {} = .ok bare ∧ (bare = true → EndsFree text (e.scriptsFit = true) (e.hasPlace · = true))
  simple : ∃ simple, e.isSimple {} = .ok simple ∧ (simple = true → EndsFree text (e.scriptsFit = true) fun _ => True)
  single : ∀ items, e ≠ tuple items

namespace Placed

variable {e l r s t : Expr} {text left right above below : String}

theorem missing : Placed missing "" where
  latex := rfl
  attached := Source.spellsAttached_empty.congr (iff_of_true trivial rfl)
  operand := ⟨none, rfl⟩
  argument := ⟨false, rfl, fun h => by cases h⟩
  simple := ⟨false, rfl, fun h => by cases h⟩
  single _ h := by cases h

/-! ### Leaves -/

/-- **A number**: a power of ten at its end leaves no place for a superscript. -/
theorem number {value : Datum} (hv : value.IsNumeric) (hs : Placed s above) (ht : Placed t below) :
    ∃ text, Placed (number value s t) text := by
  obtain ⟨n, hn, hends⟩ := Source.endsFree_number hv
  have hpower : ∀ decorated, endsInPower value decorated =
      (n.toList.contains '^' && !(decorated && (beginsWith n "-" || holds n "\\"))) := by
    intro decorated
    unfold endsInPower
    rw [hn]
    rfl
  -- A power of ten without a factor has neither a sign in front nor a command in it, and gets no parentheses.
  have hbase : ∀ decorated, EndsFree (parenthesizedIf (decorated && (beginsWith n "-" || holds n "\\")) n) True
      fun kind => kind = .super → endsInPower value decorated = false := by
    intro decorated
    unfold parenthesizedIf
    rw [hpower]
    cases hfenced : decorated && (beginsWith n "-" || holds n "\\") with
    | true =>
      rw [if_pos rfl]
      exact hends.spellsAttached.parenthesized.congr Iff.rfl fun _ _ => by simp
    | false =>
      rw [if_neg Bool.false_ne_true]
      exact hends.congr Iff.rfl fun _ _ => by simp
  have hall : EndsFree (parenthesizedIf ((!s.isMissing || !t.isMissing) && (beginsWith n "-" || holds n "\\")) n ++
      (scriptText .sub t below ++ scriptText .super s above)) ((Expr.number value s t).scriptsFit = true)
        ((Expr.number value s t).hasPlace · = true) := by
    refine ((hbase _).scripts hs.attached ht.attached).congr ?_ fun kind _ => ?_
    · rw [scriptsFit]
      cases s.isMissing <;> cases t.isMissing <;> simp
    · cases kind <;> cases hmissing : s.isMissing <;> simp [hasPlace, sup, sub, hmissing]
  refine ⟨_, latex_number_scripts hn (areScriptTexts hs.latex ht.latex), hall.spellsAttached, ⟨none, rfl⟩,
    ⟨!beginsWith n "-", ?_, fun _ => hall⟩, ?_, fun _ h => by cases h⟩
  · show (do return !beginsWith (← ({} : Format).number value) "-") = _
    rw [hn]
    rfl
  · cases hdecorated : s.isMissing && t.isMissing with
    | false =>
      refine ⟨false, ?_, fun h => by cases h⟩
      show (if (s.isMissing && t.isMissing) = true then _ else _) = _
      rw [hdecorated]
      rfl
    | true =>
      obtain ⟨digits, hdigits⟩ : ∃ digits, plainDigitsOf {} n = .ok digits := ⟨_, rfl⟩
      refine ⟨Format.isPlain digits, ?_, fun hplain => hall.congr Iff.rfl fun kind _ => iff_of_true ?_ trivial⟩
      · have htext : (do return Format.isPlain (← plainDigitsOf {} (← ({} : Format).number value)) : Outcome Bool) =
            (plainDigitsOf {} n).map Format.isPlain := by
          rw [hn]
          rfl
        show (if (s.isMissing && t.isMissing) = true then _ else _) = _
        rw [hdecorated, if_pos rfl]
        exact htext.trans (by rw [hdigits]; rfl)
      · obtain ⟨hs, ht⟩ := Bool.and_eq_true _ _ ▸ hdecorated
        have hcaret := Format.caret_not_mem_of_isPlain hdigits hplain
        cases kind <;> simp [hasPlace, sup, sub, hs, ht, hpower, hcaret]

/-- **A symbol.** -/
theorem symbol {name variant : Datum} (hname : IsSymbolName name variant) (hs : Placed s above) (ht : Placed t below) :
    ∃ text, Placed (symbol name variant s t) text := by
  obtain ⟨n, hn, hends⟩ := hname.spelled
  have hall : EndsFree (n ++ (scriptText .sub t below ++ scriptText .super s above))
      ((Expr.symbol name variant s t).scriptsFit = true) ((Expr.symbol name variant s t).hasPlace · = true) := by
    refine (hends.scripts hs.attached ht.attached).congr ?_ fun kind _ => ?_
    · simp [scriptsFit]
    · cases kind <;> simp [hasPlace, sup, sub]
  refine ⟨_, ?_, hall.spellsAttached, ⟨none, rfl⟩, ⟨true, rfl, fun _ => hall⟩, ⟨_, rfl, fun hnone => ?_⟩, fun _ h => by cases h⟩
  · show guarded (do
      let text ← symbolLatex .builtin name variant
      text.append (← scriptsLatex _ _)) = _
    rw [hn, show scriptsLatex _ _ = _ from areScriptTexts hs.latex ht.latex]
    rfl
  · rw [Bool.and_eq_true] at hnone
    exact hall.congr Iff.rfl fun kind _ => iff_of_true (by cases kind <;> simp [hasPlace, sup, sub, hnone]) trivial

/-- A node that is no bare argument and no simple base. -/
theorem of_attached (hlatex : e.latex {} .builtin = .ok text) (hattached : SpellsAttached text (e.scriptsFit = true))
    (hoperand : ∃ own, e.precedence .builtin = .ok own) (hargument : e.isBareArgument {} = .ok false)
    (hsimple : e.isSimple {} = .ok false) (hsingle : ∀ items, e ≠ tuple items) : Placed e text :=
  ⟨hlatex, hattached, hoperand, ⟨false, hargument, fun h => by cases h⟩, ⟨false, hsimple, fun h => by cases h⟩, hsingle⟩

/-- A node without scripts of its own that is a bare argument, but no simple base. -/
theorem of_endsFree (hlatex : e.latex {} .builtin = .ok text) (hends : EndsFree text (e.scriptsFit = true) fun _ => True)
    (hplaces : ∀ kind, e.hasPlace kind = true) (hoperand : ∃ own, e.precedence .builtin = .ok own)
    (hargument : e.isBareArgument {} = .ok true) (hsimple : e.isSimple {} = .ok false) (hsingle : ∀ items, e ≠ tuple items) :
    Placed e text :=
  ⟨hlatex, hends.spellsAttached, hoperand,
    ⟨true, hargument, fun _ => hends.congr Iff.rfl fun kind _ => iff_of_true trivial (hplaces kind)⟩,
    ⟨false, hsimple, fun h => by cases h⟩, hsingle⟩

/-- A text that is kept as it is written. -/
theorem ofText {content : String} (h : Token.KeepsGroup content.toList) : ∃ text, Placed (ofText (.text content)) text := by
  refine ⟨_, of_attached ?_ ⟨_, (Source.spells_text h.fills).before, iff_of_true (attached_leaf rfl) rfl⟩ ⟨none, rfl⟩ rfl
    rfl fun _ h => by cases h⟩
  show Except.ok ("\\text" ++ braced content ++ "") = _
  rw [String.append_empty]
  rfl

/-! ### Fences -/

/-- **A group**: behind a delimiter that takes no scripts there is no place for them. -/
theorem group {l r : String} (hl : IsLeftGlyph l) (hr : IsGlyph r ∨ r = "." ∧ s = .missing ∧ t = .missing)
    (he : Placed e text) (hs : Placed s above) (ht : Placed t below) :
    ∃ text, Placed (group e (.tuple [.text l, .text r]) s t) text := by
  obtain ⟨simple, hsimple, hends⟩ := he.simple
  have hscripts := areScriptTexts hs.latex ht.latex
  have hinner : (e.isSimple {}).toOption.getD false = simple := by
    rw [hsimple]
    rfl
  have placed : ∀ {fenced : String}, inFence (.tuple [.text l, .text r]) text = .ok fenced →
      SpellsAttached ((if simple then text else fenced) ++ (scriptText .sub t below ++ scriptText .super s above))
        ((Expr.group e (.tuple [.text l, .text r]) s t).scriptsFit = true) →
      ∃ text, Placed (Expr.group e (.tuple [.text l, .text r]) s t) text := fun hfence hattached =>
    ⟨_, of_attached (latex_group_fence hsimple he.latex hfence hscripts) hattached ⟨none, rfl⟩ rfl rfl fun _ h => by cases h⟩
  rcases hr with hr | ⟨rfl, rfl, rfl⟩
  · obtain ⟨fenced, hfence, hclosed⟩ := inFence_closed hl hr he.attached
    refine placed hfence ?_
    -- A simple node is written without its fence, so that the right delimiter is not there to refuse scripts.
    cases simple with
    | true =>
      refine ((hends rfl).scripts hs.attached ht.attached).spellsAttached.congr ?_
      simp [scriptsFit, hinner, and_comm]
    | false =>
      refine (hclosed.scripts hs.attached ht.attached).spellsAttached.congr ?_
      rw [scriptsFit, hinner, takesScripts]
      cases s.isMissing <;> cases t.isMissing <;> simp [and_comm, and_assoc]
  · obtain ⟨fenced, hfence, hopen⟩ := inFence_unclosed hl he.attached
    refine placed hfence ?_
    have hfit : (Expr.group e (.tuple [.text l, .text "."]) .missing .missing).scriptsFit = e.scriptsFit := by
      simp [scriptsFit, isMissing]
    rw [hfit]
    show SpellsAttached ((if simple then text else fenced) ++ ("" ++ "")) _
    rw [String.append_empty, String.append_empty]
    cases simple with
    | true => exact he.attached
    | false => exact hopen

/-! ### Operations -/

/-- An operand, perhaps in parentheses. -/
theorem operandText (h : Placed e text) (own : Option Int) (around : Int) (right : Bool) (op : Datum) :
    SpellsAttached (operandLatex own around right op text) (e.scriptsFit = true) := by
  rcases operandLatex_cases own around right op text with ⟨-, heq⟩ | ⟨heq, -⟩
  · rw [heq]
    exact h.attached.parenthesized.spellsAttached
  · rw [heq]
    exact h.attached

/-- **An operation.** -/
theorem between (o : Infix) (hl : Placed l left) (hr : Placed r right) : ∃ text, Placed (between (.text o.name) l r) text := by
  obtain ⟨own, hown⟩ := hl.operand
  obtain ⟨own', hown'⟩ := hr.operand
  have hlatex := latex_infix o hl.latex hr.latex hown hown' isSuperText_missing
  rw [String.append_empty] at hlatex
  have hslash := o.isText_slash
  have hsign : Attached [o.atom] := attached_leaf (by cases o <;> rfl)
  refine ⟨_, of_attached hlatex ?_ ?_ (congrArg Except.ok hslash) rfl fun _ h => by cases h⟩
  · have hright := (hr.operandText own' o.precedence true (.text o.name)).behind o.spells_sign hsign
    refine ((hl.operandText own o.precedence false (.text o.name)).append hright (o.startsApart_sign.append _)).congr ?_
    simp [scriptsFit, Expr.between]
  · refine ⟨some ((some o.precedence).getD 0), ?_⟩
    show (if ((Datum.text o.name).isText "/" || !(true && true)) = true then _ else _) = _
    rw [hslash, o.precedenceOf_name]
    rfl

/-- **A fraction**, as an operation and as a node of its own. -/
theorem quotient (hl : Placed l left) (hr : Placed r right) :
    (∃ text, Placed (Expr.between (.text "/") l r) text) ∧ ∃ text, Placed (quotient l r) text := by
  have hslash := latex_slash hl.latex hr.latex isSuperText_missing
  have hfraction := latex_fraction hl.latex hr.latex isSuperText_missing
  rw [String.append_empty] at hslash hfraction
  have hends := hl.attached.fraction hr.attached
  refine ⟨⟨_, of_endsFree hslash (hends.congr ?_ fun _ _ => Iff.rfl) (fun kind => ?_) ⟨none, rfl⟩ rfl rfl fun _ h => by cases h⟩,
    ⟨_, of_endsFree hfraction (hends.congr ?_ fun _ _ => Iff.rfl) (fun kind => ?_) ⟨none, rfl⟩ rfl rfl fun _ h => by cases h⟩⟩
  · simp [scriptsFit, Expr.between]
  · cases kind <;> rfl
  · simp [scriptsFit, Expr.quotient]
  · cases kind <;> rfl

/-- **A square root.** -/
theorem squareRoot (he : Placed e text) : ∃ text, Placed (squareRoot e) text := by
  have hlatex := latex_root he.latex isSuperText_missing
  rw [String.append_empty] at hlatex
  refine ⟨_, of_endsFree hlatex (he.attached.radical.congr ?_ fun _ _ => Iff.rfl) (fun kind => ?_) ⟨none, rfl⟩ rfl rfl
    fun _ h => by cases h⟩
  · simp [scriptsFit, Expr.squareRoot]
  · cases kind <;> rfl

/-- **A sign.** -/
theorem signed (sign : Sign) (he : Placed e text) : ∃ text, Placed (before (.text sign.name) e) text := by
  have hsign : ∃ a, Source.Spells .builtin sign.name [a] ∧ Attached [a] := by
    cases sign with
    | plus => exact ⟨_, Infix.sum.spells_sign, attached_leaf rfl⟩
    | minus => exact ⟨_, Infix.difference.spells_sign, attached_leaf rfl⟩
  obtain ⟨a, hspells, hattached⟩ := hsign
  have hoperand : SpellsAttached (parenthesizedIf e.isPlainOperation text) (e.scriptsFit = true) := by
    unfold parenthesizedIf
    split
    · exact he.attached.parenthesized.spellsAttached
    · exact he.attached
  refine ⟨_, of_attached (latex_signed sign he.latex) ((hoperand.behind hspells hattached).congr ?_) ⟨none, rfl⟩ rfl rfl
    fun _ h => by cases h⟩
  simp [scriptsFit, before]

/-- A base as it stands in front of an exponent. -/
theorem baseText (he : Placed e text) : ∃ simple, e.isSimple {} = .ok simple ∧
    EndsFree (if simple then text else parenthesized text) (e.scriptsFit = true) fun _ => True := by
  obtain ⟨simple, hsimple, hends⟩ := he.simple
  refine ⟨simple, hsimple, ?_⟩
  cases simple with
  | true => exact hends rfl
  | false => exact he.attached.parenthesized

/-- **A power**, with scripts of its own behind parentheses. -/
theorem power (hl : Placed l left) (hr : Placed r right) (hs : Placed s above) (ht : Placed t below) :
    ∃ text, Placed (call "pow" (tuple [l, r]) parentheses s t) text := by
  obtain ⟨simple, hsimple, hbase⟩ := hl.baseText
  have hpower := hbase.script .super hr.attached
  have hlatex := latex_power_scripts hsimple hl.latex hr.latex (areScriptTexts hs.latex ht.latex) parentheses
  refine ⟨_, of_attached hlatex ?_ ⟨none, rfl⟩ rfl rfl fun _ h => by cases h⟩
  have hfit : (call "pow" (tuple [l, r]) parentheses s t).scriptsFit =
      (s.scriptsFit && t.scriptsFit && (l.scriptsFit && (r.scriptsFit && true)) && true) := by
    rw [scriptsFit, scriptsFit, scriptsFitEach, scriptsFitEach, scriptsFitEach]
    rfl
  rw [hfit]
  cases hdecorated : !s.isMissing || !t.isMissing with
  | true =>
    refine (hpower.spellsAttached.parenthesized.scripts hs.attached ht.attached).spellsAttached.congr ?_
    simp [and_comm]
  | false =>
    simp only [Bool.or_eq_false_iff, Bool.not_eq_false'] at hdecorated
    obtain ⟨rfl, rfl⟩ := hdecorated.imp eq_missing eq_missing
    refine (hpower.scripts hs.attached ht.attached).spellsAttached.congr ?_
    simp [isMissing, and_comm, and_assoc]

end Placed

end Formula
