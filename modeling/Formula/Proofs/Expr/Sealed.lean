import Formula.Proofs.Expr.Composed
import Formula.Proofs.Format.Braces
import Formula.Proofs.Reader.Worded

/-!
# Trees that are written with balanced braces

Every branch of the writer puts what it writes of the children between braces, parentheses or the places of a template.  So
a tree is written as a sealed text if its labels are: the texts of `Text` nodes, the delimiters of groups, the names of
functions, and what error nodes stand for.  `Tidy` says that of all labels but the names of symbols, which the writer
resolves first; they are the names in `symbolNames`.  The operators of a tidy tree are those of the usual vocabulary.
-/

namespace Formula

open Outcome Format

/-- The value is a sealed text. -/
def Datum.IsSealed (d : Datum) : Prop := ∃ s, d = .text s ∧ Format.IsSealed s

instance (d : Datum) : Decidable d.IsSealed :=
  decidable_of_iff (d.text?.any (fun s => decide (Format.IsSealed s)) = true) (by
    cases d with
    | text s => simp [Datum.IsSealed, Datum.text?]
    | _ => simp [Datum.IsSealed, Datum.text?])

namespace Expr

/-! ### Labels -/

/-- The delimiter is written as a sealed text. -/
def IsSealedDelimiter (d : Datum) : Prop := YieldsSealed (delimiterLatex d)

instance (d : Datum) : Decidable (IsSealedDelimiter d) := inferInstanceAs (Decidable (YieldsSealed _))

/-- The name of a symbol is a sealed text once its references to characters are resolved. -/
def IsSealedName (name : Datum) : Prop := (resolvedName name).Within (fun _ => True) Datum.IsSealed

instance (name : Datum) : Decidable (IsSealedName name) := inferInstanceAs (Decidable (Within _ _ _))

mutual

/-- The names of the symbols of an expression. -/
def symbolNames : Expr → List Datum
  | missing | foreign _ => []
  | tuple items => symbolNamesIn items
  | number _ s t | text _ s t | complex _ _ s t | error _ _ s t => s.symbolNames ++ t.symbolNames
  | symbol name _ s t => name :: (s.symbolNames ++ t.symbolNames)
  | group e _ s t | unary _ e s t | call _ e _ s t => e.symbolNames ++ (s.symbolNames ++ t.symbolNames)
  | binary _ l r s t | fraction l r s t | root l r s t =>
    l.symbolNames ++ r.symbolNames ++ (s.symbolNames ++ t.symbolNames)

/-- The names of the symbols of several expressions. -/
def symbolNamesIn : List Expr → List Datum
  | [] => []
  | e :: rest => e.symbolNames ++ symbolNamesIn rest

end

/-- The name of the symbol. -/
def Label.symbolName? : Label → Option Datum
  | symbol name => some name
  | _ => none

mutual

theorem symbolNames_eq : ∀ e : Expr, e.symbolNames = e.labels.filterMap Label.symbolName?
  | missing | foreign _ => rfl
  | tuple items => symbolNamesIn_eq items
  | number _ s t | complex _ _ s t => by
    rw [symbolNames, labels, List.filterMap_append, symbolNames_eq s, symbolNames_eq t]
  | symbol _ _ s t | text _ s t | error _ _ s t => by
    simp only [symbolNames, labels, List.filterMap_append, List.filterMap_cons, Label.symbolName?, symbolNames_eq s,
      symbolNames_eq t]
  | group e _ s t | unary _ e s t | call _ e _ s t => by
    simp only [symbolNames, labels, List.filterMap_append, List.filterMap_cons, Label.symbolName?, symbolNames_eq e,
      symbolNames_eq s, symbolNames_eq t]
  | binary _ l r s t | fraction l r s t | root l r s t => by
    simp only [symbolNames, labels, List.filterMap_append, List.filterMap_cons, Label.symbolName?, symbolNames_eq l,
      symbolNames_eq r, symbolNames_eq s, symbolNames_eq t]

theorem symbolNamesIn_eq : ∀ items : List Expr, symbolNamesIn items = (labelsIn items).filterMap Label.symbolName?
  | [] => rfl
  | e :: rest => by rw [symbolNamesIn, labelsIn, List.filterMap_append, symbolNames_eq e, symbolNamesIn_eq rest]

end

/-- The names of the built-in operators. -/
def operatorNames : List String := Catalog.builtinPrecedences.map (·.1)

/-- The label is written as a sealed text.  The names of symbols are left out. -/
def Label.IsTidy : Label → Prop
  | symbol _ => True
  | l => l.IsWritten IsSealed

/-- A tree whose labels, the names of symbols apart, are written as sealed texts. -/
def Tidy (e : Expr) : Prop := e.Labelled Label.IsTidy

/-! ### What the catalog adds -/

theorem isSealed_builtinSymbols : ∀ e ∈ Catalog.builtinSymbols, IsSealed e.1 := by decide +kernel

theorem isSealed_builtinFunctionTemplates : ∀ e ∈ Catalog.builtinFunctionTemplates, IsSealed e.2 := by decide +kernel

theorem isSealed_commandFunctions : ∀ name ∈ Catalog.commandFunctions, IsSealed ("\\" ++ name ++ "%^%_ %") := by
  decide

/-- A symbol is spelled by its command or as it is. -/
theorem within_spelling {s : String} (h : IsSealed s) :
    (Catalog.builtin.spelling (.text s)).Within (fun _ => True) Datum.IsSealed := by
  have hspelling : Catalog.builtin.spelling (.text s) =
      .ok ((Catalog.builtin.latexForSymbol (.text s)).orElse (.text s)) := rfl
  rw [hspelling]
  refine within_ok ?_
  unfold Datum.orElse Catalog.latexForSymbol
  split
  · exact ⟨s, rfl, h⟩
  · cases hfind : List.find? (fun e => e.2.same (.text s)) Catalog.builtin.symbols with
    | none => rename_i hvoid; exact absurd rfl (by rwa [hfind] at hvoid)
    | some e =>
      have hmem : e ∈ Catalog.textTable Catalog.builtinSymbols := List.mem_of_find?_eq_some hfind
      simp only [Catalog.textTable, Table.ofTexts, List.map_map, List.mem_map, Function.comp_apply] at hmem
      obtain ⟨p, hp, rfl⟩ := hmem
      exact ⟨p.1, rfl, isSealed_builtinSymbols p hp⟩

theorem yieldsSealed_plainTemplate {name : String} (h : IsSealed name) :
    YieldsSealed (Catalog.plainFunctionTemplate (.text name)) := by
  refine .choice (fun hcommand => ?_) fun _ => ?_
  · exact isSealed_commandFunctions name (List.contains_iff_mem.mp hcommand)
  · split
    · exact trivial
    · exact h.append (by decide)
    · have hbraced := (IsSealed.append (s := "\\operatorname") (by decide) h.braced).append
        (show IsSealed "%^%_ %" by decide)
      have hhead : Catalog.operatorNameHead = "\\operatorname" ++ "\x7b" := rfl
      have htail : "\x7d%^%_ %" = "\x7d" ++ "%^%_ %" := rfl
      show IsSealed (Catalog.operatorNameHead ++ name ++ "\x7d%^%_ %")
      rw [hhead, htail]
      simpa only [String.append_assoc] using hbraced

/-- A function with a sealed name has a sealed template. -/
theorem within_functionTemplate {name : String} (h : IsSealed name) :
    (Catalog.builtin.functionTemplateOf (.text name)).Within (fun _ => True) Datum.IsSealed := by
  have hkey : (Datum.text name).key = .ok (.text name) := rfl
  unfold Catalog.functionTemplateOf
  simp only [bind, Except.bind, hkey]
  cases hfind : Catalog.builtin.functionTemplates.find? (.text name) with
  | some template =>
    obtain ⟨e, he, rfl⟩ := Option.map_eq_some_iff.mp hfind
    have hmem : e ∈ Catalog.textTable Catalog.builtinFunctionTemplates := List.mem_of_find?_eq_some he
    simp only [Catalog.textTable, Table.ofTexts, List.map_map, List.mem_map, Function.comp_apply] at hmem
    obtain ⟨p, hp, rfl⟩ := hmem
    exact within_ok ⟨p.2, rfl, isSealed_builtinFunctionTemplates p hp⟩
  | none =>
    exact Within.bind (P := IsSealed) (yieldsSealed_plainTemplate h) fun template ht => within_ok ⟨template, rfl, ht⟩

/-- A built-in operator has a sealed template. -/
theorem operatorTemplate_eq {op : String} (h : op ∈ operatorNames) : ∃ template,
    Catalog.builtin.operatorTemplateOf (.text op) = .ok (.text template) ∧ IsSealed template ∧
      hasOpenPlaces false template.toList = true := by
  have hall : operatorNames.all (fun op => ((Catalog.builtin.operatorTemplateOf (.text op)).toOption.bind Datum.text?).any
      fun template => decide (IsSealed template) && hasOpenPlaces false template.toList) = true := by decide
  obtain ⟨template, htemplate, hsealed⟩ := (Option.any_eq_true _ _).mp (List.all_eq_true.mp hall op h)
  obtain ⟨d, hd, htext⟩ := Option.bind_eq_some_iff.mp htemplate
  obtain ⟨hsealed, hplaces⟩ := Bool.and_eq_true_iff.mp hsealed
  cases d with
  | text t =>
    obtain rfl := Option.some.inj htext
    exact ⟨t, eq_ok_of_toOption hd, of_decide_eq_true hsealed, hplaces⟩
  | _ => cases htext

/-! ### Trees -/

/-- A sealed name is written as a sealed text. -/
theorem isWritten_symbol {name : Datum} (h : IsSealedName name) : Label.IsWritten IsSealed (.symbol name) :=
  Within.bind h fun resolved hresolved => by
    obtain ⟨s, rfl, hs⟩ := hresolved
    refine (within_spelling hs).imp (fun _ => id) ?_
    rintro _ ⟨t, rfl, ht⟩
    exact ht

theorem isTidy_fence {left right : Datum} (hl : IsSealedDelimiter left) (hr : IsSealedDelimiter right) :
    Label.IsTidy (.fence (.tuple [left, right])) :=
  show YieldsSealed (delimiterLatex left) ∧ YieldsSealed (delimiterLatex right) from ⟨hl, hr⟩

theorem isTidy_parentheses : Label.IsTidy (.fence parentheses) := isTidy_fence (by decide) (by decide)

theorem isTidy_function {name : String} (h : IsSealed name) : Label.IsTidy (.function (.text name)) := by
  refine (within_functionTemplate h).imp (fun _ => id) ?_
  rintro _ ⟨template, rfl, htemplate⟩ _ ⟨⟩ argument sup sub ha hs ht
  exact isSealed_fillFunction ha hs ht htemplate

theorem isTidy_operator {op : String} (h : op ∈ operatorNames) : Label.IsTidy (.operator (.text op)) := by
  obtain ⟨template, heq, hsealed, hplaces⟩ := operatorTemplate_eq h
  refine .of_eq_ok heq ?_
  rintro _ ⟨⟩ left right hl hr
  exact isSealed_fillOperator hl hr hsealed hplaces

theorem isTidy_sign {op : String} (h : IsSealed op) : Label.IsTidy (.sign (.text op)) := by
  rintro _ ⟨⟩
  cases hlookup : signCommands.lookup op with
  | none => exact h
  | some command =>
    obtain ⟨before, behind, heq, -⟩ := List.lookup_eq_some_iff.mp hlookup
    have hcommands : ∀ e ∈ signCommands, IsSealed e.2 := by decide
    exact hcommands (op, command) (heq ▸ List.mem_append_right _ List.mem_cons_self)

theorem isTidy_content {content : String} (h : IsSealed content) : Label.IsTidy (.content (.text content)) :=
  IsSealed.append (s := "\\text") (by decide) h.braced

theorem isTidy_placeholder {placeholder : String} (h : IsSealed placeholder) :
    Label.IsTidy (.placeholder (.text placeholder)) := by
  show IsSealed ((Datum.text placeholder).orElse "?").shown
  unfold Datum.orElse
  split
  · decide
  · exact h

/-- The labels of a tidy tree are written as sealed texts, if the names of its symbols are. -/
theorem Tidy.isWritten {e : Expr} (h : Tidy e) (hnames : ∀ name ∈ e.symbolNames, IsSealedName name) :
    e.Labelled (Label.IsWritten IsSealed) := by
  intro l hl
  cases l with
  | symbol name =>
    refine isWritten_symbol (hnames name ?_)
    rw [symbolNames_eq]
    exact List.mem_filterMap.mpr ⟨_, hl, rfl⟩
  | _ => exact h _ hl

/-- **A tree with sealed labels is written as a sealed text**, if it is written at all. -/
theorem Tidy.yieldsSealed {e : Expr} (h : Tidy e) (hnames : ∀ name ∈ e.symbolNames, IsSealedName name) :
    YieldsSealed (e.latex {} .builtin) :=
  yields_latex keptInWriting_isSealed e (h.isWritten hnames)

end Expr

end Formula
