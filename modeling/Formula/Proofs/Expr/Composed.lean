import Formula.Expr.Latex
import Formula.Proofs.Expr.Labels
import Formula.Proofs.Format.Composed

/-!
# Expressions as texts that are put together

The writer puts fixed texts, numbers and the labels of nodes together: names, texts, delimiters, the templates of functions
and operators, and what error nodes stand for.  So if a property of texts is kept in writing, and what is written of each
label has it, then what is written of the whole tree has it.  This is proved once, along the writer, for every property.
-/

namespace Formula.Expr

open Outcome Format Text

/-! ### What is written of labels -/

/-- A template of a function with texts in its places. -/
def FillsFunction (P : String → Prop) (template : String) : Prop :=
  ∀ argument sup sub : String, P argument → P sup → P sub →
    P (String.ofList (fillFunction argument.toList sup.toList sub.toList false template.toList))

/-- A template of an operator with texts in its places. -/
def FillsOperator (P : String → Prop) (template : String) : Prop :=
  ∀ left right : String, P left → P right → P (String.ofList (fillOperator left.toList right.toList template.toList))

/-- The pieces of a template of a function between its places, the first of them behind `piece`. -/
def functionPieces (piece : List Char) : Bool → List Char → List (List Char)
  | _, [] => [piece]
  | false, '%' :: '^' :: rest | false, '%' :: '_' :: rest | false, '%' :: rest => piece :: functionPieces [] false rest
  | _, c :: rest => functionPieces (piece ++ [c]) (c = '\\') rest

/-- The pieces of a template of an operator between its places, the first of them behind `piece`. -/
def operatorPieces (piece : List Char) : List Char → List (List Char)
  | [] => [piece]
  | '%' :: '0' :: rest | '%' :: '1' :: rest => piece :: operatorPieces [] rest
  | c :: rest => operatorPieces (piece ++ [c]) rest

/-- What is written of the label has the property. -/
def Label.IsWritten (P : String → Prop) : Label → Prop
  | content d => P ("\\text" ++ braced d.shown)
  | fence d => (fenceDelimiters d).Within (fun _ => True) fun ends =>
    Yields P (delimiterLatex ends.1) ∧ Yields P (delimiterLatex ends.2)
  | symbol d => (resolvedName d >>= Catalog.builtin.spelling).Within (fun _ => True) fun latex => P latex.shown
  | function d => (Catalog.builtin.functionTemplateOf d).Within (fun _ => True) fun template =>
    ∀ t ∈ template.text?, FillsFunction P t
  | operator d => (Catalog.builtin.operatorTemplateOf d).Within (fun _ => True) fun template =>
    ∀ t ∈ template.text?, FillsOperator P t
  | sign d => ∀ s ∈ d.text?, P ((signCommands.lookup s).getD s)
  | placeholder d => P (d.orElse "?").shown

/-! ### Pieces of what is written -/

section Pieces

variable {P : String → Prop} (hP : KeptInWriting P)

include hP in
/-- A text in a place behind a piece. -/
theorem kept_place {piece rest : List Char} {text : String} (hpiece : P (String.ofList piece)) (htext : P text)
    (hrest : P (String.ofList ([] ++ rest))) : P (String.ofList (piece ++ (text.toList ++ rest))) := by
  rw [String.ofList_append, String.ofList_append, String.ofList_toList]
  exact hP.append hpiece (hP.append htext hrest)

include hP in
/-- Texts between the pieces of a template of a function. -/
theorem kept_fillFunction {argument sup sub : String} (ha : P argument) (hs : P sup) (ht : P sub) (piece : List Char)
    (escaped : Bool) (template : List Char) (h : ∀ q ∈ functionPieces piece escaped template, P (String.ofList q)) :
    P (String.ofList (piece ++ fillFunction argument.toList sup.toList sub.toList escaped template)) := by
  fun_induction functionPieces piece escaped template with
  | case1 piece =>
    rw [fillFunction, List.append_nil]
    exact h _ List.mem_cons_self
  | case2 piece rest ih =>
    obtain ⟨hpiece, hrest⟩ := List.forall_mem_cons.mp h
    exact kept_place hP hpiece hs (ih hrest)
  | case3 piece rest ih =>
    obtain ⟨hpiece, hrest⟩ := List.forall_mem_cons.mp h
    exact kept_place hP hpiece ht (ih hrest)
  | case4 piece rest hsup hsub ih =>
    obtain ⟨hpiece, hrest⟩ := List.forall_mem_cons.mp h
    rw [fillFunction.eq_4 _ _ _ _ hsup hsub]
    exact kept_place hP hpiece ha (ih hrest)
  | case5 piece escaped c rest hsup hsub hplace ih =>
    rw [fillFunction.eq_5 _ _ _ _ _ _ hsup hsub hplace, List.append_cons]
    exact ih h

include hP in
/-- Texts between the pieces of a template of an operator. -/
theorem kept_fillOperator {left right : String} (hl : P left) (hr : P right) (piece template : List Char)
    (h : ∀ q ∈ operatorPieces piece template, P (String.ofList q)) :
    P (String.ofList (piece ++ fillOperator left.toList right.toList template)) := by
  fun_induction operatorPieces piece template with
  | case1 piece =>
    rw [fillOperator, List.append_nil]
    exact h _ List.mem_cons_self
  | case2 piece rest ih =>
    obtain ⟨hpiece, hrest⟩ := List.forall_mem_cons.mp h
    exact kept_place hP hpiece hl (ih hrest)
  | case3 piece rest ih =>
    obtain ⟨hpiece, hrest⟩ := List.forall_mem_cons.mp h
    exact kept_place hP hpiece hr (ih hrest)
  | case4 piece c rest hleft hright ih =>
    rw [fillOperator.eq_3 _ _ _ _ hleft hright, List.append_cons]
    exact ih h

/-- What has no condition is no matter of an outcome. -/
theorem yields_bind {α : Type} {x : Outcome α} {g : α → Outcome String} (h : ∀ v, Yields P (g v)) : Yields P (x >>= g) := by
  cases x with
  | ok v => exact h v
  | error fault => exact trivial

include hP

theorem yields_guarded {r : Outcome String} (h : Yields P r) : Yields P (guarded r) := by
  unfold guarded
  cases r with
  | ok s => exact h
  | error fault =>
    dsimp only
    split
    all_goals first | exact within_ok hP.empty | exact trivial

theorem kept_parenthesized {s : String} (h : P s) : P (parenthesized s) :=
  hP.append (hP.append (hP.fixed "(" (by decide)) h) (hP.fixed ")" (by decide))

theorem kept_parenthesizedIf {s : String} (h : P s) (decorated : Bool) : P (parenthesizedIf decorated s) := by
  cases decorated with
  | true => exact kept_parenthesized hP h
  | false => exact h

theorem yields_inFence {fence : Datum} (hfence : Label.IsWritten P (.fence fence)) {body : String} (h : P body) :
    Yields P (inFence fence body) := by
  refine Within.bind hfence fun ends hends => ?_
  obtain ⟨left, right⟩ := ends
  obtain ⟨hl, hr⟩ := hends
  refine Within.bind (P := P) hl fun left hleft => Within.bind (P := P) hr fun right hright => ?_
  refine within_ok (hP.join fun s hs => ?_)
  simp only [List.mem_cons, List.not_mem_nil, or_false] at hs
  rcases hs with rfl | rfl | rfl
  · exact hleft
  · exact h
  · exact hright

theorem kept_operandLatex {text : String} (h : P text) (own : Option Int) (around : Int) (right : Bool) (op : Datum) :
    P (operandLatex own around right op text) := by
  unfold operandLatex
  split
  · exact h
  · exact kept_parenthesizedIf hP h _

section Nodes

variable {text scripts : Outcome String}

/-- A text with what is written behind it. -/
theorem yields_behind (hscripts : Yields P scripts) {text : String} (h : P text) :
    Yields P (do return text ++ (← scripts)) :=
  Within.bind (P := P) hscripts fun _ hbehind => within_ok (hP.append h hbehind)

theorem yields_scripts {sup sub : Option (Outcome String)} (hs : ∀ w ∈ sup, Yields P w) (ht : ∀ w ∈ sub, Yields P w) :
    Yields P (scriptsLatex sup sub) := by
  have script : ∀ {sign written : String}, sign ∈ fixedTexts → P written → P (sign ++ braced written) :=
    fun hsign hwritten => hP.append (hP.fixed _ hsign) (hP.braced hwritten)
  cases sub with
  | none =>
    cases sup with
    | none => exact within_ok hP.empty
    | some above =>
      show Yields P (above >>= fun t => pure ("" ++ ("^" ++ braced t)))
      exact Within.bind (P := P) (hs above rfl) fun t ht => within_ok (hP.append hP.empty (script (by decide) ht))
  | some below =>
    refine Within.bind (P := P) (ht below rfl) fun b hb => ?_
    cases sup with
    | none => exact within_ok (hP.append (script (by decide) hb) hP.empty)
    | some above =>
      show Yields P (above >>= fun t => pure ("_" ++ braced b ++ ("^" ++ braced t)))
      exact Within.bind (P := P) (hs above rfl) fun t ht =>
        within_ok (hP.append (script (by decide) hb) (script (by decide) ht))

omit hP in
theorem yields_present {e : Expr} (h : Yields P text) : ∀ w ∈ present e text, Yields P w := by
  intro w hw
  unfold present at hw
  split at hw
  · cases hw
  · cases hw
    exact h

theorem yields_numberLatex (value : Datum) (decorated : Bool) : Yields P (numberLatex {} value decorated) :=
  (hP.number value).bind fun _ hs => within_ok (kept_parenthesizedIf hP hs _)

/-- A symbol in a variant is written with a command and braces around it. -/
theorem within_symbolLatex {name : Datum} (h : Label.IsWritten P (.symbol name)) (variant : Datum) :
    (symbolLatex .builtin name variant).Within (fun _ => True) fun latex => P latex.shown := by
  unfold symbolLatex
  rw [← bind_assoc]
  refine Within.bind h fun latex hlatex => ?_
  cases hlookup : (variant.orElse "").lookup variantCommands with
  | error fault => exact trivial
  | ok found =>
    cases found with
    | none => exact within_ok hlatex
    | some command =>
      obtain ⟨key, -, hmem⟩ := Datum.mem_of_lookup hlookup
      have hcommands : ∀ e ∈ variantCommands, e.2 ∈ fixedTexts := by decide
      exact within_ok (hP.append (hP.fixed _ (hcommands _ hmem)) (hP.braced hlatex))

theorem yields_append {latex : Datum} (h : P latex.shown) {s : String} (hs : P s) : Yields P (latex.append s) := by
  cases latex with
  | text t => exact within_ok (hP.append h hs)
  | _ => exact trivial

theorem yields_groupLatex {fence : Datum} (hfence : Label.IsWritten P (.fence fence)) (h : Yields P text)
    (hscripts : Yields P scripts) (e : Expr) : Yields P (groupLatex {} e fence text scripts) := by
  refine Within.bind (P := P) h fun t ht => yields_bind fun simple => ?_
  cases simple with
  | true => exact yields_behind hP hscripts ht
  | false => exact Within.bind (P := P) (yields_inFence hP hfence ht) fun _ hbody => yields_behind hP hscripts hbody

theorem yields_unaryLatex {op : Datum} (hop : Label.IsWritten P (.sign op)) (h : Yields P text) (hscripts : Yields P scripts)
    (e : Expr) (decorated : Bool) : Yields P (unaryLatex op e decorated text scripts) := by
  refine Within.bind (P := P) h fun t ht => ?_
  have htext := kept_parenthesizedIf hP ht e.isPlainOperation
  cases hkey : op.key with
  | error fault => exact trivial
  | ok d =>
    obtain rfl := Datum.eq_of_key hkey
    cases d with
    | text s =>
      refine Within.bind (P := P) hscripts fun behind hbehind => within_ok (hP.append (kept_parenthesizedIf hP ?_ decorated) hbehind)
      refine hP.join fun piece hpiece => ?_
      simp only [List.mem_cons, List.not_mem_nil, or_false] at hpiece
      rcases hpiece with rfl | rfl
      · exact hop s rfl
      · exact htext
    | _ => exact trivial

theorem yields_fractionLatex {left right : Outcome String} (hscripts : Yields P scripts) (hl : Yields P left)
    (hr : Yields P right) (decorated : Bool) : Yields P (fractionLatex decorated left right scripts) := by
  refine Within.bind (P := P) hl fun n hn => Within.bind (P := P) hr fun d hd =>
    Within.bind (P := P) hscripts fun behind hbehind => within_ok ?_
  refine hP.append (kept_parenthesizedIf hP ?_ decorated) hbehind
  exact hP.append (hP.append (hP.fixed "\\frac" (by decide)) (hP.braced hn)) (hP.braced hd)

theorem yields_rootLatex {index : Option (Outcome String)} (hscripts : Yields P scripts) (h : Yields P text)
    (hindex : ∀ w ∈ index, Yields P w) : Yields P (rootLatex text index scripts) := by
  refine Within.bind (P := P) h fun t ht => ?_
  have hroot : ∀ {index : String}, P index → P ("\\sqrt" ++ index ++ braced t) := fun hindex =>
    hP.append (hP.append (hP.fixed "\\sqrt" (by decide)) hindex) (hP.braced ht)
  cases index with
  | none => exact yields_behind hP hscripts (hroot hP.empty)
  | some w =>
    exact Within.bind (P := P) (hindex w rfl) fun i hi => yields_behind hP hscripts
      (hroot (hP.append (hP.append (hP.fixed "[" (by decide)) hi) (hP.fixed "]" (by decide))))

/-- Operands in the places of an operator. -/
theorem yields_operationLatex {op : Datum} (hop : Label.IsWritten P (.operator op)) {left right : String} (hl : P left)
    (hr : P right) : Yields P (operationLatex {} .builtin op left right) := by
  unfold operationLatex
  split
  · have hsign : Yields P (productSign {} left right) :=
      within_ok (by split <;> exact hP.fixed "\\cdot " (by decide))
    refine Within.bind (P := P) hsign fun sign hsign => within_ok (hP.join fun s hs => ?_)
    simp only [List.mem_cons, List.not_mem_nil, or_false] at hs
    rcases hs with rfl | rfl | rfl
    · exact hl
    · exact hsign
    · exact hr
  · refine Within.bind hop fun template htemplate => ?_
    cases template with
    | text t => exact within_ok (htemplate t rfl left right hl hr)
    | _ => exact trivial

theorem yields_binaryLatex {op : Datum} (hop : Label.IsWritten P (.operator op)) (hscripts : Yields P scripts)
    {left right : Outcome String} (hl : Yields P left) (hr : Yields P right) (l r : Expr) (decorated : Bool) :
    Yields P (binaryLatex {} .builtin op l r decorated left right scripts) := by
  refine .choice (fun _ => yields_fractionLatex hP hscripts hl hr decorated) fun _ => yields_bind fun around => ?_
  refine Within.bind (P := P) hl fun lt hlt => yields_bind fun lp => ?_
  refine Within.bind (P := P) hr fun rt hrt => yields_bind fun rp => ?_
  refine Within.bind (P := P) (yields_operationLatex hP hop (kept_operandLatex hP hlt _ _ _ _)
    (kept_operandLatex hP hrt _ _ _ _)) fun text htext => ?_
  exact yields_behind hP hscripts (kept_parenthesizedIf hP htext decorated)

theorem yields_powerLatex {base exponent : Outcome String} (hscripts : Yields P scripts) (hb : Yields P base)
    (he : Yields P exponent) (e : Expr) (decorated : Bool) :
    Yields P (powerLatex {} e decorated base exponent scripts) := by
  refine Within.bind (P := P) hb fun b hb => yields_bind fun simple => ?_
  have hbase : P (if simple then b else parenthesized b) := by
    split
    · exact hb
    · exact kept_parenthesized hP hb
  refine Within.bind (P := P) he fun x hx => yields_behind hP hscripts (kept_parenthesizedIf hP ?_ decorated)
  exact hP.append (hP.append hbase (hP.fixed "^" (by decide))) (hP.braced hx)

theorem yields_argumentLatex {name fence template : Datum} (hfence : Label.IsWritten P (.fence fence)) (h : Yields P text)
    (e : Expr) : Yields P (argumentLatex {} name template e fence text) := by
  refine Within.bind (P := P) h fun t ht => ?_
  have hfenced := yields_inFence hP hfence ht
  have hbare : Yields P (do if ← isBareArgument {} e then return t else inFence fence t) :=
    yields_bind fun bare => by
      cases bare with
      | true => exact ht
      | false => exact hfenced
  cases template with
  | text s =>
    dsimp only
    cases Format.enclosesArgument s with
    | true => exact ht
    | false =>
      cases name with
      | text name =>
        have hloose : Yields P (if looseFunctions.contains name then do
            if ← isBareArgument {} e then return t else inFence fence t
          else inFence fence t) := .choice (fun _ => hbare) fun _ => hfenced
        exact hloose
      | _ => exact trivial
  | _ => exact trivial

theorem yields_argumentsLatex {fence : Datum} (hfence : Label.IsWritten P (.fence fence)) {texts : List (Outcome String)}
    (h : ∀ w ∈ texts, Yields P w) : Yields P (argumentsLatex fence texts) :=
  (Within.mapM (g := id) h).bind fun parts hparts =>
    yields_inFence hP hfence (hP.intercalate (hP.fixed ", " (by decide)) hparts)

theorem yields_callLatex {template : Datum} (htemplate : ∀ t ∈ template.text?, FillsFunction P t) (h : Yields P text)
    {sup sub : Option (Outcome String)} (hs : ∀ w ∈ sup, Yields P w) (ht : ∀ w ∈ sub, Yields P w) :
    Yields P (callLatex template text sup sub) := by
  have hnone : ∀ w ∈ (none : Option (Outcome String)), Yields P w := fun w hw => by cases hw
  refine Within.bind (P := P) h fun argument hargument => ?_
  refine Within.bind (P := P) (yields_scripts hP hs hnone) fun above habove => ?_
  refine Within.bind (P := P) (yields_scripts hP hnone ht) fun below hbelow => ?_
  have hempty : ∀ {s : String} (b : Bool), P s → P (if b then "" else s) := by
    intro s b hs
    cases b with
    | true => exact hP.empty
    | false => exact hs
  cases template with
  | text t =>
    have hfilled := htemplate t rfl argument above below hargument habove hbelow
    exact within_ok (hP.append (hP.append hfilled (hempty _ hbelow)) (hempty _ habove))
  | _ => exact trivial

end Nodes

section

variable {e s t : Expr}

/-- The scripts of a node. -/
theorem yields_scriptsOf (hs : Yields P (s.latex {} .builtin)) (ht : Yields P (t.latex {} .builtin)) :
    Yields P (scriptsLatex (present s (s.latex {} .builtin)) (present t (t.latex {} .builtin))) :=
  yields_scripts hP (yields_present hs) (yields_present ht)

end

omit hP in
theorem mem_of_powerParts? {name : Datum} {argument base : Expr} {texts : List (Outcome String)} {b x : Outcome String}
    (h : powerParts? name argument texts = some (base, b, x)) : b ∈ texts ∧ x ∈ texts := by
  unfold powerParts? at h
  split at h
  · split at h
    · cases h
      simp
    · cases h
  · cases h

theorem within_imaginaryLatex (im : Datum) :
    (imaginaryLatex {} im).Within (fun _ => True) fun latex => ∃ s, latex = .text s ∧ P s := by
  have hunit : P "\\mathrm\x7bi\x7d" := hP.fixed _ (by decide)
  refine .choice (fun _ => within_ok ⟨"", rfl, hP.empty⟩) fun _ => ?_
  cases isTiny (plus im (-1)) with
  | error fault => exact trivial
  | ok one =>
    refine .choice (fun _ => within_ok ⟨_, rfl, hunit⟩) fun _ => ?_
    cases isTiny (plus im 1) with
    | error fault => exact trivial
    | ok minusOne =>
      refine .choice (fun _ => within_ok ⟨_, rfl, hP.append (hP.fixed "-" (by decide)) hunit⟩) fun _ => ?_
      exact Within.bind (P := P) (hP.number im) fun text htext => within_ok ⟨_, rfl, hP.append htext hunit⟩

theorem yields_complexLatex (re im : Datum) (raised : Bool) {scripts : Outcome String} (hscripts : Yields P scripts) :
    Yields P (complexLatex {} re im raised scripts) := by
  refine yields_bind fun re => yields_bind fun im => ?_
  have hreal : ∀ {behind : String → Outcome String}, (∀ real, P real → Yields P (behind real)) →
      Yields P (if re.isVoid then pure "" >>= behind else ({} : Format).number re >>= behind) := fun hbehind =>
    .choice (fun _ => hbehind "" hP.empty) fun _ => Within.bind (P := P) (hP.number re) hbehind
  refine hreal fun real hreal => Within.bind (within_imaginaryLatex hP im) fun imaginary himaginary => ?_
  obtain ⟨s, rfl, hs⟩ := himaginary
  refine .choice (fun _ => ?_) fun _ => .choice (fun _ => yields_behind hP hscripts hreal) fun _ => ?_
  · have hsum : P (if beginsWith s "-" then real ++ s else real ++ "+" ++ s) := by
      split
      · exact hP.append hreal hs
      · exact hP.append (hP.append hreal (hP.fixed "+" (by decide))) hs
    exact yields_behind hP hscripts (kept_parenthesizedIf hP hsum raised)
  · refine Within.bind (P := P) hscripts fun behind hbehind => yields_append hP ?_ hbehind
    unfold Datum.orElse
    split
    · exact hP.digits ['0'] (List.forall_mem_singleton.mpr rfl)
    · exact hs

end Pieces

/-! ### Trees -/

section

variable {P : String → Prop}

mutual

/-- **A tree is written with a property that is kept in writing**, if its labels are. -/
theorem yields_latex (hP : KeptInWriting P) : ∀ e : Expr, e.Labelled (Label.IsWritten P) → Yields P (e.latex {} .builtin)
  | missing, _ | foreign _, _ | tuple _, _ => within_ok hP.empty
  | number value s t, h => by
    obtain ⟨hs, ht⟩ := List.forall_mem_append.mp h
    refine yields_guarded hP (Within.bind (P := P) (yields_numberLatex hP _ _) fun _ htext => ?_)
    exact yields_behind hP (yields_scriptsOf hP (yields_latex hP s hs) (yields_latex hP t ht)) htext
  | symbol name variant s t, h => by
    obtain ⟨hname, h⟩ := List.forall_mem_cons.mp h
    obtain ⟨hs, ht⟩ := List.forall_mem_append.mp h
    refine yields_guarded hP ((within_symbolLatex hP hname _).bind fun latex hlatex => ?_)
    exact Within.bind (P := P) (yields_scriptsOf hP (yields_latex hP s hs) (yields_latex hP t ht)) fun _ hbehind =>
      yields_append hP hlatex hbehind
  | text content s t, h => by
    obtain ⟨hcontent, h⟩ := List.forall_mem_cons.mp h
    obtain ⟨hs, ht⟩ := List.forall_mem_append.mp h
    exact yields_guarded hP (yields_behind hP (yields_scriptsOf hP (yields_latex hP s hs) (yields_latex hP t ht)) hcontent)
  | group e fence s t, h => by
    obtain ⟨hfence, h⟩ := List.forall_mem_cons.mp h
    obtain ⟨he, h⟩ := List.forall_mem_append.mp h
    obtain ⟨hs, ht⟩ := List.forall_mem_append.mp h
    exact yields_guarded hP (yields_groupLatex hP hfence (yields_latex hP e he)
      (yields_scriptsOf hP (yields_latex hP s hs) (yields_latex hP t ht)) _)
  | binary op l r s t, h => by
    obtain ⟨hop, h⟩ := List.forall_mem_cons.mp h
    obtain ⟨hlr, h⟩ := List.forall_mem_append.mp h
    obtain ⟨hl, hr⟩ := List.forall_mem_append.mp hlr
    obtain ⟨hs, ht⟩ := List.forall_mem_append.mp h
    exact yields_guarded hP (yields_binaryLatex hP hop (yields_scriptsOf hP (yields_latex hP s hs) (yields_latex hP t ht))
      (yields_latex hP l hl) (yields_latex hP r hr) _ _ _)
  | unary op e s t, h => by
    obtain ⟨hop, h⟩ := List.forall_mem_cons.mp h
    obtain ⟨he, h⟩ := List.forall_mem_append.mp h
    obtain ⟨hs, ht⟩ := List.forall_mem_append.mp h
    exact yields_guarded hP (yields_unaryLatex hP hop (yields_latex hP e he)
      (yields_scriptsOf hP (yields_latex hP s hs) (yields_latex hP t ht)) _ _)
  | call name argument fence s t, h => by
    obtain ⟨hname, h⟩ := List.forall_mem_cons.mp h
    obtain ⟨hfence, h⟩ := List.forall_mem_cons.mp h
    obtain ⟨hargument, h⟩ := List.forall_mem_append.mp h
    obtain ⟨hs, ht⟩ := List.forall_mem_append.mp h
    have hsup := yields_latex hP s hs
    have hsub := yields_latex hP t ht
    have hcall : ∀ {written : Datum → Outcome String}, (∀ template, Yields P (written template)) →
        Yields P (do
          let template ← Catalog.builtin.functionTemplateOf name
          callLatex template (written template) (present s (s.latex {} .builtin)) (present t (t.latex {} .builtin))) :=
      fun hwritten => Within.bind hname fun template htemplate =>
        yields_callLatex hP htemplate (hwritten template) (yields_present hsup) (yields_present hsub)
    -- Several arguments are written each on their own, and those of a power are its base and its exponent.
    cases argument with
    | tuple items =>
      have htexts := yields_latexEach hP items hargument
      refine yields_guarded hP ?_
      dsimp only
      split
      · rename_i base baseText exponentText hparts
        obtain ⟨hbase, hexponent⟩ := mem_of_powerParts? hparts
        exact yields_powerLatex hP (yields_scriptsOf hP hsup hsub) (htexts _ hbase) (htexts _ hexponent) _ _
      · exact hcall fun _ => yields_argumentsLatex hP hfence htexts
    | _ => exact yields_guarded hP (hcall fun _ => yields_argumentLatex hP hfence (yields_latex hP _ hargument) _)
  | fraction l r s t, h => by
    obtain ⟨hlr, h⟩ := List.forall_mem_append.mp h
    obtain ⟨hl, hr⟩ := List.forall_mem_append.mp hlr
    obtain ⟨hs, ht⟩ := List.forall_mem_append.mp h
    exact yields_guarded hP (yields_fractionLatex hP (yields_scriptsOf hP (yields_latex hP s hs) (yields_latex hP t ht))
      (yields_latex hP l hl) (yields_latex hP r hr) _)
  | root l r s t, h => by
    obtain ⟨hlr, h⟩ := List.forall_mem_append.mp h
    obtain ⟨hl, hr⟩ := List.forall_mem_append.mp hlr
    obtain ⟨hs, ht⟩ := List.forall_mem_append.mp h
    exact yields_guarded hP (yields_rootLatex hP (yields_scriptsOf hP (yields_latex hP s hs) (yields_latex hP t ht))
      (yields_latex hP l hl) (yields_present (yields_latex hP r hr)))
  | complex re im s t, h => by
    obtain ⟨hs, ht⟩ := List.forall_mem_append.mp h
    exact yields_guarded hP (yields_complexLatex hP re im _ (yields_scriptsOf hP (yields_latex hP s hs) (yields_latex hP t ht)))
  | error placeholder message s t, h => by
    obtain ⟨hplaceholder, h⟩ := List.forall_mem_cons.mp h
    obtain ⟨hs, ht⟩ := List.forall_mem_append.mp h
    exact yields_guarded hP (yields_behind hP (yields_scriptsOf hP (yields_latex hP s hs) (yields_latex hP t ht))
      (hP.append (hP.fixed "\\bbox[#F56165]" (by decide)) (hP.braced hplaceholder)))

theorem yields_latexEach (hP : KeptInWriting P) : ∀ items : List Expr, (∀ l ∈ labelsIn items, l.IsWritten P) →
    ∀ w ∈ latexEach {} .builtin items, Yields P w
  | [], _ => nofun
  | e :: rest, h => by
    obtain ⟨he, hrest⟩ := List.forall_mem_append.mp h
    exact List.forall_mem_cons.mpr ⟨yields_latex hP e he, yields_latexEach hP rest hrest⟩

end

end

end Formula.Expr
