import Formula.Proofs.Expr.Errors
import Formula.Proofs.Expr.Writing

/-!
# Texts in normal form

A text is in normal form if what it is read as is written as the same text and holds no errors.  The rules of this module
put such texts together: each says of a construct in the source that it is in normal form if its parts are.  What a part
may be read as depends on its place, as for all texts (an operand, a primary, a chain, a whole); the set `Q` of a rule keeps
what else is known of the expression.

A chain is read as the tree of its operators, whatever the tree was that it was written from.  It is written without
parentheses again, since in the tree of a chain no operator stands below one that binds tighter (`Arranges.writesAs`).
-/

namespace Formula

open Number Text Expr

/-! ### Expressions and their texts -/

/-- The expression holds no errors and is written as the text. -/
structure Expr.WritesAs (e : Expr) (text : String) : Prop where
  latex : e.latex {} .builtin = .ok text
  faultless : e.Faultless

/-- The expression is no operation, so that it needs no parentheses as an operand of one. -/
structure Expr.WritesTight (e : Expr) (text : String) : Prop extends e.WritesAs text where
  plain : e.isPlainOperation = false

/-- The expression has room for scripts, which are written behind the text. -/
structure Expr.WritesBase (e : Expr) (text : String) : Prop where
  holds : e.holdsScripts = true
  free : e.sup = missing ∧ e.sub = missing
  faultless : e.Faultless
  latex : ∀ {s s' : Expr} {scripts : String}, AreScriptTexts {} s s' scripts →
    (e.withScripts s s').latex {} .builtin = .ok (text ++ scripts)

/-- The script is written as the text, sign and braces included, or it is missing and the text empty. -/
inductive WritesScript (kind : Source.Script) : Expr → String → Prop
  | absent : WritesScript kind missing ""
  | written {e : Expr} {text : String} : e.WritesAs text → WritesScript kind e (kind.sign ++ braced text)

/-- The operators and the operands behind them are written as the text. -/
inductive WritesLinks : List Link → String → Prop
  | nil : WritesLinks [] ""
  | cons (o : Infix) {link : Link} {links : List Link} {operand text : String} : link.op = .text o.name →
    link.precedence = o.precedence → link.operand.WritesTight operand → WritesLinks links text →
    WritesLinks (link :: links) (o.sign ++ (operand ++ text))

section

variable {e : Expr} {text : String}

theorem Expr.WritesBase.withScripts_missing (h : e.WritesBase text) : e.withScripts missing missing = e := by
  obtain ⟨hsup, hsub⟩ := h.free
  have hholds := h.holds
  cases e with
  | number | symbol | group | call =>
    obtain rfl := hsup
    obtain rfl := hsub
    rfl
  | _ => cases hholds

theorem Expr.WritesBase.tight (h : e.WritesBase text) : e.WritesTight text where
  latex := by
    have := h.latex areScriptTexts_missing
    rwa [h.withScripts_missing, String.append_empty] at this
  faultless := h.faultless
  plain := by
    have hholds := h.holds
    cases e <;> first | rfl | cases hholds

theorem WritesScript.faultless {kind : Source.Script} (h : WritesScript kind e text) (hthere : e.isMissing = false) :
    e.Faultless := by
  cases h with
  | absent => cases hthere
  | written h => exact h.faultless

/-- A script is missing if its text is empty, and only then. -/
theorem WritesScript.isMissing_iff {kind : Source.Script} (h : WritesScript kind e text) : e.isMissing = true ↔ text = "" := by
  cases h with
  | absent => exact iff_of_true rfl rfl
  | @written _ inner h =>
    have hlength : (kind.sign ++ braced inner).toList ≠ [] := by
      rw [String.toList_append]
      cases kind <;> exact List.cons_ne_nil _ _
    refine iff_of_false ?_ fun heq => hlength (by rw [heq]; rfl)
    rw [h.faultless.isMissing]
    exact Bool.false_ne_true

theorem WritesScript.areScriptTexts {sup sub : Expr} {above below : String} (hsup : WritesScript .super sup above)
    (hsub : WritesScript .sub sub below) : AreScriptTexts {} sup sub (below ++ above) := by
  have written : ∀ {e : Expr} {text : String}, e.WritesAs text → present e (e.latex {} .builtin) = some (.ok text) := by
    intro e text h
    unfold present
    rw [h.faultless.isMissing, if_neg Bool.false_ne_true, h.latex]
  unfold AreScriptTexts
  cases hsup with
  | absent =>
    cases hsub with
    | absent => rfl
    | @written _ inner hsub =>
      rw [written hsub]
      rfl
  | @written _ inner hsup =>
    cases hsub with
    | absent =>
      rw [written hsup]
      rfl
    | @written _ inner' hsub =>
      rw [written hsup, written hsub]
      rfl

end

/-! ### Chains are written without parentheses -/

theorem WritesLinks.append {links links' : List Link} {s s' : String} (h : WritesLinks links s) (h' : WritesLinks links' s') :
    WritesLinks (links ++ links') (s ++ s') := by
  induction h with
  | nil => rwa [String.empty_append]
  | cons o hop hprecedence hoperand _ ih =>
    rw [String.append_assoc, String.append_assoc]
    exact .cons o hop hprecedence hoperand ih

theorem WritesLinks.split {links' : List Link} : ∀ {links : List Link} {s : String}, WritesLinks (links ++ links') s →
    ∃ left right, s = left ++ right ∧ WritesLinks links left ∧ WritesLinks links' right
  | [], s, h => ⟨"", s, (String.empty_append).symm, .nil, h⟩
  | link :: links, _, h => by
    cases h with
    | cons o hop hprecedence hoperand hrest =>
      obtain ⟨left, right, rfl, hleft, hright⟩ := hrest.split
      refine ⟨_, right, ?_, .cons o hop hprecedence hoperand hleft, hright⟩
      rw [String.append_assoc, String.append_assoc]

/-- The root of the tree of a chain is one of its operators. -/
theorem Arranges.precedence {first e : Expr} {links : List Link} (h : Arranges first links e)
    (hfirst : first.isPlainOperation = false) {s : String} (hlinks : WritesLinks links s) :
    ∃ own, e.precedence .builtin = .ok own ∧ ∀ q, own = some q → ∃ link ∈ links, link.precedence = q := by
  cases h with
  | leaf => exact ⟨none, precedence_eq_none hfirst, fun _ h => by cases h⟩
  | @node _ before after link =>
    obtain ⟨_, _, -, -, hright⟩ := hlinks.split
    cases hright with
    | cons o hop hprecedence =>
      refine ⟨some o.precedence, ?_, fun q hq => ⟨link, List.mem_append_right _ List.mem_cons_self, ?_⟩⟩
      · show (if (link.op.isText "/" || false) = true then _ else _) = _
        rw [hop, o.isText_slash, if_neg (by decide), o.precedenceOf_name]
        rfl
      · rw [hprecedence, Option.some.inj hq]

/-- **The tree of a chain is written as the chain.**  What stands to the left of an operator binds at least as tight as it
does, and what stands to the right tighter. -/
theorem Arranges.writesAs {first e : Expr} {links : List Link} (h : Arranges first links e) {t s : String}
    (hfirst : first.WritesTight t) (hlinks : WritesLinks links s) : e.WritesAs (t ++ s) := by
  induction h generalizing t s with
  | leaf e =>
    cases hlinks with
    | nil => rw [String.append_empty]; exact hfirst.toWritesAs
  | @node first before after link left right hl hr hbefore hafter ihl ihr =>
    obtain ⟨s, s', rfl, hs, hs'⟩ := hlinks.split
    cases hs' with
    | @cons o _ _ operand s' hop hprecedence hoperand hs' =>
      have hleft := ihl hfirst hs
      have hright := ihr hoperand hs'
      obtain ⟨own, hown, hroot⟩ := hl.precedence hfirst.plain hs
      obtain ⟨own', hown', hroot'⟩ := hr.precedence hoperand.plain hs'
      have hlatex := latex_infix o hleft.latex hright.latex hown hown' isSuperText_missing
      rw [operandLatex_of_le (fun q hq => ?_), operandLatex_of_le (fun q hq => ?_), String.append_empty] at hlatex
      · rw [← String.append_assoc, hop]
        exact ⟨hlatex, hleft.faultless.between hright.faultless _⟩
      · obtain ⟨k, hk, rfl⟩ := hroot' q hq
        rw [← hprecedence]
        exact ⟨Int.le_of_lt (hafter k hk), fun _ => hafter k hk⟩
      · obtain ⟨k, hk, rfl⟩ := hroot q hq
        rw [← hprecedence]
        exact ⟨hbefore k hk, fun h => by cases h⟩

/-! ### Kinds of texts in normal form -/

/-- The text is an operand in normal form, and what it is read as is in `Q`. -/
def NormalOperand (Q : Expr → Prop) (text : String) : Prop := ∃ e, IsOperandText text e ∧ e.WritesTight text ∧ Q e

/-- The text is a primary in normal form. -/
def NormalPrimary (Q : Expr → Prop) (text : String) : Prop := ∃ e, IsPrimaryText text e ∧ e.WritesTight text ∧ Q e

/-- The text is an operand in normal form, and stays so with scripts behind it. -/
def NormalBase (Q : Expr → Prop) (text : String) : Prop := ∃ e, IsScriptableText text e ∧ e.WritesBase text ∧ Q e

/-- The text is a script in normal form, or empty. -/
def NormalScript (kind : Source.Script) (text : String) : Prop := ∃ e, IsScriptText kind e text ∧ WritesScript kind e text

/-- The text is a chain whose operators are as `P` says, and all of it in normal form.  A chain without operators is read
as an expression in `Q`. -/
def NormalChain (P : Int → Prop) (Q : Expr → Prop) (text : String) : Prop :=
  ∃ first links t s, IsChainText text first links ∧ first.WritesTight t ∧ WritesLinks links s ∧ text = t ++ s ∧
    (∀ link ∈ links, P link.precedence) ∧ (links = [] → Q first)

/-- The text as a whole is in normal form. -/
def NormalWhole (text : String) : Prop := ∃ e, IsWholeText text e ∧ e.WritesAs text

section

variable {P P' : Int → Prop} {Q Q' : Expr → Prop} {text text' : String}

/-! ### From one kind to the next -/

theorem NormalBase.operand (h : NormalBase Q text) : NormalOperand Q text := by
  obtain ⟨e, he, hwrites, hQ⟩ := h
  exact ⟨e, he.isBaseText.isOperandText hwrites.faultless.isMissing, hwrites.tight, hQ⟩

theorem NormalOperand.primary (h : NormalOperand Q text) : NormalPrimary Q text := by
  obtain ⟨e, he, hwrites⟩ := h
  exact ⟨e, he.isPrimaryText, hwrites⟩

theorem NormalOperand.mono (h : NormalOperand Q text) (himp : ∀ e, Q e → Q' e) : NormalOperand Q' text := by
  obtain ⟨e, he, hwrites, hQ⟩ := h
  exact ⟨e, he, hwrites, himp e hQ⟩

theorem NormalPrimary.mono (h : NormalPrimary Q text) (himp : ∀ e, Q e → Q' e) : NormalPrimary Q' text := by
  obtain ⟨e, he, hwrites, hQ⟩ := h
  exact ⟨e, he, hwrites, himp e hQ⟩

theorem NormalBase.mono (h : NormalBase Q text) (himp : ∀ e, Q e → Q' e) : NormalBase Q' text := by
  obtain ⟨e, he, hwrites, hQ⟩ := h
  exact ⟨e, he, hwrites, himp e hQ⟩

theorem NormalChain.mono (h : NormalChain P Q text) (himp : ∀ p, P p → P' p) : NormalChain P' Q text := by
  obtain ⟨first, links, t, s, he, hfirst, hlinks, heq, hP, hQ⟩ := h
  exact ⟨first, links, t, s, he, hfirst, hlinks, heq, fun link hl => himp _ (hP link hl), hQ⟩

/-- A primary is a chain without operators. -/
theorem NormalPrimary.chain (h : NormalPrimary Q text) (P : Int → Prop) : NormalChain P Q text := by
  obtain ⟨e, he, hwrites, hQ⟩ := h
  exact ⟨e, [], text, "", he.isChainText, hwrites, .nil, (String.append_empty).symm, fun _ h => (by cases h), fun _ => hQ⟩

/-- A chain that may have no operators is a primary. -/
theorem NormalChain.primary (h : NormalChain P Q text) (hnone : ∀ p, ¬P p) : NormalPrimary Q text := by
  obtain ⟨first, links, t, s, he, hfirst, hlinks, rfl, hP, hQ⟩ := h
  obtain rfl : links = [] := List.eq_nil_iff_forall_not_mem.mpr fun link hl => hnone _ (hP link hl)
  cases hlinks with
  | nil =>
    rw [String.append_empty] at he ⊢
    exact ⟨first, he.isPrimaryText, hfirst, hQ rfl⟩

/-- **A chain is read as the tree of its operators, and that is written as the chain.** -/
theorem NormalChain.arranged (h : NormalChain P Q text) : ∃ first links e, IsChainText text first links ∧
    Arranges first links e ∧ e.WritesAs text ∧ (Q e ∨ e.isSimple {} = .ok false ∧ ∃ op l r, e = between op l r) := by
  obtain ⟨first, links, t, s, he, hfirst, hlinks, rfl, -, hQ⟩ := h
  obtain ⟨e, harranged, -⟩ := he.arranged
  refine ⟨first, links, e, he, harranged, harranged.writesAs hfirst hlinks, ?_⟩
  cases harranged with
  | leaf => exact .inl (hQ rfl)
  | node => exact .inr ⟨rfl, _, _, _, rfl⟩

theorem NormalChain.whole (h : NormalChain P Q text) : NormalWhole text := by
  obtain ⟨first, links, e, he, harranged, hwrites, -⟩ := h.arranged
  exact ⟨e, he.isWholeText harranged, hwrites⟩

/-- What is not simple takes scripts in parentheses. -/
theorem NormalChain.parenthesized (h : NormalChain P Q text) (hQ : ∀ e, Q e → e.isSimple {} = .ok false) :
    NormalBase (fun g => ∃ e, g = fenced e parentheses) (parenthesized text) := by
  obtain ⟨first, links, e, he, harranged, hwrites, hsimple⟩ := h.arranged
  have hsimple : e.isSimple {} = .ok false := by
    rcases hsimple with hsimple | ⟨hsimple, -⟩
    · exact hQ e hsimple
    · exact hsimple
  refine ⟨fenced e parentheses, he.scriptable harranged, ⟨rfl, ⟨rfl, rfl⟩, hwrites.faultless.fenced, fun hs => ?_⟩, e, rfl⟩
  exact latex_group_scripts hsimple hwrites.latex hs

/-- A simple operand in parentheses is read as a group, and the group is written as the operand. -/
theorem NormalPrimary.parenthesized (h : NormalPrimary Q text) :
    ∃ e, IsOperandText (parenthesized text) (fenced e parentheses) ∧ e.WritesAs text ∧ Q e := by
  obtain ⟨e, he, hwrites, hQ⟩ := h
  have hbase := he.isChainText.scriptable (.leaf e)
  exact ⟨e, hbase.isBaseText.isOperandText rfl, hwrites.toWritesAs, hQ⟩

theorem NormalWhole.script (h : NormalWhole text) (kind : Source.Script) :
    NormalScript kind (kind.sign ++ braced text) := by
  obtain ⟨e, he, hwrites⟩ := h
  exact ⟨e, .written he, .written hwrites⟩

theorem NormalScript.empty (kind : Source.Script) : NormalScript kind "" := ⟨missing, .absent, .absent⟩

/-! ### Scripts -/

/-- The expression is a node in `Q` with scripts, of which one at least is there. -/
def IsScripted (Q : Expr → Prop) (e : Expr) : Prop :=
  ∃ b s s', Q b ∧ b.holdsScripts = true ∧ e = b.withScripts s s' ∧ (s.isMissing && s'.isMissing) = false

/-- **A text in normal form that takes scripts stays so with scripts behind it.** -/
theorem NormalBase.scripted {above below : String} (h : NormalBase Q text) (hsup : NormalScript .super above)
    (hsub : NormalScript .sub below) (hthere : above ≠ "" ∨ below ≠ "") :
    NormalOperand (IsScripted Q) (text ++ (below ++ above)) := by
  obtain ⟨e, he, hwrites, hQ⟩ := h
  obtain ⟨s, hs, hsup⟩ := hsup
  obtain ⟨s', hs', hsub⟩ := hsub
  have hscripts : (s.isMissing && s'.isMissing) = false := by
    rw [Bool.and_eq_false_iff, Bool.eq_false_iff, Bool.eq_false_iff, ne_eq, ne_eq, hsup.isMissing_iff, hsub.isMissing_iff]
    exact hthere
  have hattach : e.attach s s' = e.withScripts s s' := by
    obtain ⟨hnone, hnone'⟩ := hwrites.free
    have hgiven : ∀ s : Expr, (if s.isMissing = true then missing else s) = s := by
      intro s
      split
      · rename_i hmissing
        exact (eq_missing hmissing).symm
      · rfl
    unfold attach
    rw [if_neg (by rw [hscripts]; exact Bool.false_ne_true), hwrites.holds, hnone, hnone', hgiven, hgiven]
    exact if_pos (by rw [show missing.isMissing = true from rfl, Bool.or_true, Bool.or_true]; rfl)
  refine ⟨e.withScripts s s', hattach ▸ he.scripted hwrites.faultless.isMissing hs' hs, ⟨⟨?_, ?_⟩, ?_⟩, e, s, s', hQ,
    hwrites.holds, rfl, hscripts⟩
  · exact hwrites.latex (hsup.areScriptTexts hsub)
  · exact hwrites.faultless.withScripts hsup.faultless hsub.faultless
  · have hholds := hwrites.holds
    cases e <;> first | rfl | cases hholds

/-! ### Constructs around whole texts -/

theorem NormalWhole.fraction (h : NormalWhole text) (h' : NormalWhole text') :
    NormalOperand (fun e => ∃ l r, e = quotient l r) ("\\frac" ++ braced text ++ braced text') := by
  obtain ⟨n, hn, hwrites⟩ := h
  obtain ⟨d, hd, hwrites'⟩ := h'
  have hlatex := latex_fraction hwrites.latex hwrites'.latex isSuperText_missing
  rw [String.append_empty] at hlatex
  exact ⟨quotient n d, hn.fraction hd, ⟨⟨hlatex, hwrites.faultless.quotient hwrites'.faultless⟩, rfl⟩, n, d, rfl⟩

theorem NormalWhole.root (h : NormalWhole text) :
    NormalOperand (fun e => ∃ r, e = squareRoot r) ("\\sqrt" ++ braced text) := by
  obtain ⟨e, he, hwrites⟩ := h
  have hlatex := latex_root hwrites.latex isSuperText_missing
  rw [String.append_empty] at hlatex
  exact ⟨squareRoot e, he.root.isOperandText rfl, ⟨⟨hlatex, hwrites.faultless.squareRoot⟩, rfl⟩, e, rfl⟩

theorem NormalWhole.enclosed (h : NormalWhole text) (f : Enclosure) :
    NormalOperand (fun e => ∃ argument, e = apply f.name argument) (f.around text) := by
  obtain ⟨e, he, hwrites⟩ := h
  exact ⟨apply f.name e, he.enclosed f,
    ⟨⟨latex_enclosure f hwrites.faultless.isNode hwrites.latex, hwrites.faultless.apply _⟩, rfl⟩, e, rfl⟩

/-! ### Signs, marks and names -/

/-- A sign in front of what is no number stays a sign. -/
theorem NormalPrimary.signed (h : NormalPrimary Q text) (s : Sign) (hQ : ∀ e, Q e → foldSign? s.name e = none) :
    NormalPrimary (fun e => ∃ operand, e = before (.text s.name) operand) (s.name ++ text) := by
  obtain ⟨e, he, hwrites, hfold⟩ := h
  have hread := he.signed s
  rw [withSign, hQ e hfold, Option.getD_none] at hread
  have hlatex := latex_signed s hwrites.latex
  rw [hwrites.plain] at hlatex
  exact ⟨_, hread, ⟨⟨hlatex, hwrites.faultless.before _⟩, rfl⟩, e, rfl⟩

/-- The text is an argument in normal form: what it is read as is written as the text in the place of an argument, where it
may be without parentheses if the function is a loose one. -/
def NormalArgument (loose : Bool) (text : String) : Prop := ∃ e t bare, IsOperandText text e ∧ e.WritesAs t ∧
  e.isBareArgument {} = .ok bare ∧ text = if loose && bare then t else parenthesized t

theorem NormalOperand.argument (h : NormalOperand Q text) (hQ : ∀ e, Q e → e.isBareArgument {} = .ok true) :
    NormalArgument true text := by
  obtain ⟨e, he, hwrites, hbare⟩ := h
  exact ⟨e, text, true, he, hwrites.toWritesAs, hQ e hbare, rfl⟩

/-- What is simple is an argument in parentheses, since a group around it is written without any. -/
theorem NormalPrimary.argument (h : NormalPrimary Q text) (hQ : ∀ e, Q e → e.isSimple {} = .ok true) (loose : Bool) :
    NormalArgument loose (Expr.parenthesized text) := by
  obtain ⟨e, he, hwrites, hsimple⟩ := h.parenthesized
  have hlatex := latex_group (hQ e hsimple) hwrites.latex isSuperText_missing
  rw [String.append_empty] at hlatex
  exact ⟨fenced e parentheses, text, false, he, ⟨hlatex, hwrites.faultless.fenced⟩, rfl, by rw [Bool.and_false]; rfl⟩

theorem NormalArgument.applied {name : String} (h : NormalArgument (looseFunctions.contains name) text)
    (hname : name ∈ Catalog.commandFunctions) :
    NormalPrimary (fun e => ∃ argument, e = apply name argument) ("\\" ++ name ++ " " ++ text) := by
  obtain ⟨e, t, bare, he, hwrites, hbare, rfl⟩ := h
  exact ⟨_, he.isPrimaryText.applied hname, ⟨⟨latex_command hname hwrites.faultless.isNode hbare hwrites.latex,
    hwrites.faultless.apply _⟩, rfl⟩, e, rfl⟩

theorem NormalArgument.factorial (h : NormalArgument true text) :
    NormalPrimary (fun e => ∃ argument, e = apply "factorial" argument) (text ++ "!") := by
  obtain ⟨e, t, bare, he, hwrites, hbare, rfl⟩ := h
  rw [Bool.true_and] at he ⊢
  exact ⟨_, he.factorial, ⟨⟨latex_factorial hwrites.faultless.isNode hbare hwrites.latex, hwrites.faultless.apply _⟩, rfl⟩,
    e, rfl⟩

/-! ### Operations -/

/-- Two chains with an operator between them are one chain. -/
theorem NormalChain.append {P' : Int → Prop} (h : NormalChain P Q text) (o : Infix) (h' : NormalChain P' Q' text')
    (hP : ∀ p, P p → o.precedence ≤ p) (hP' : ∀ p, P' p → o.precedence ≤ p) (R : Expr → Prop) :
    NormalChain (fun p => o.precedence ≤ p) R (text ++ (o.sign ++ text')) := by
  obtain ⟨first, links, t, s, he, hfirst, hlinks, rfl, hprecedence, -⟩ := h
  obtain ⟨first', links', t', s', he', hfirst', hlinks', rfl, hprecedence', -⟩ := h'
  obtain ⟨start, hchain⟩ := he.append_infix o he'
  refine ⟨first, _, t, s ++ (o.sign ++ (t' ++ s')), hchain, hfirst, ?_, (String.append_assoc ..), ?_, fun hnil => ?_⟩
  · exact hlinks.append (.cons o rfl rfl hfirst' hlinks')
  · refine List.forall_mem_append.mpr ⟨fun link hl => hP _ (hprecedence link hl), List.forall_mem_cons.mpr ⟨Int.le_refl _, ?_⟩⟩
    exact fun link hl => hP' _ (hprecedence' link hl)
  · exact absurd hnil (List.append_ne_nil_of_right_ne_nil _ (List.cons_ne_nil _ _))

end

end Formula
