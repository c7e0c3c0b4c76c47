import Formula.Proofs.Preview.Openings
import Formula.Proofs.Reader.SealedReading

/-!
# Previews of converted sources

Being ready to be rewritten is kept in writing, so a tree is written as a ready text if its labels are.  The operators and
the signs of what is read are those of the usual vocabulary, whatever the source was, and they are ready.  What remains are
the labels that a source brings along: names, texts, delimiters, and what error nodes stand for.  They are written as they
are, and where one of them is not ready (`Label.IsReady`), a command that cannot be drawn may stay in the preview.
-/

namespace Formula

open Atom Expr Outcome Format

/-! ### Operators and signs of what is read -/

/-- The label is no operator and no sign, or one of the usual vocabulary. -/
def Expr.Label.IsUsual : Label → Prop
  | operator op => ∃ name ∈ operatorNames, op = .text name
  | sign op => op = .text "+" ∨ op = .text "-"
  | _ => True

theorem Expr.isUsual_operator {op : String} (h : op ∈ operatorNames) : Label.IsUsual (.operator (.text op)) := ⟨op, h, rfl⟩

/-- Everything is read with operators and signs of the usual vocabulary. -/
theorem Discipline.usual : Discipline .builtin (fun _ => True) (fun _ => True) (Labelled Label.IsUsual) where
  part _ _ := trivial
  unspaced _ := trivial
  nested _ _ := trivial
  precedence _ := .of_values fun _ _ => trivial
  operation _ hp := (within_operation hp).imp (fun _ hf => hf) fun name hname l r hl hr => by
    obtain ⟨op, rfl, hop⟩ := hname
    exact hl.between (isUsual_operator hop) hr
  sign _ := .of_values fun found h sign hsign e he =>
    he.withSign ((eq_of_sign? h hsign).imp (congrArg Datum.text) (congrArg Datum.text))
  product hl hr := hl.between (isUsual_operator (by decide)) hr
  sum hl hr := hl.between (isUsual_operator (by decide)) hr
  juxtapose hl hr := hl.juxtapose (isUsual_operator (by decide)) hr
  missing := .missing
  startsOperand _ := .of_values fun _ _ => trivial
  placeholder _ _ := .unreadable trivial _
  symbol _ _ := .of_values fun e h => by
    obtain ⟨name, v, rfl⟩ := symbol_eq_ok h
    exact .ofSymbol trivial v
  inFont _ _ := .of_values fun e h => by
    obtain ⟨content, rfl | ⟨v, rfl⟩⟩ := inFont_eq_ok h
    · exact .ofText trivial
    · exact .ofSymbol trivial v
  asText _ _ := .of_values fun e h => by
    obtain ⟨content, rfl⟩ := asText_eq_ok h
    exact .ofText trivial
  quotient hl hr := hl.quotient hr
  squareRoot he := he.squareRoot
  power he hi := he.power trivial trivial hi
  attach he hs ht := he.attach trivial hs ht
  unexpected _ := .of_values fun e h => by
    obtain ⟨placeholder, message, -, rfl⟩ := unexpected_eq_ok h
    exact .unreadable trivial _
  startsNumber _ := .of_values fun _ _ => trivial
  numeral _ _ := .of_values fun _ _ => trivial
  literal _ _ _ _ _ := .of_values fun e h => by
    obtain ⟨x, rfl⟩ := literalOf_eq_ok h
    exact .number _ .missing .missing
  mixed _ _ := .of_values fun _ _ => trivial
  digraph _ := .of_values fun _ _ _ _ _ he => he.apply trivial trivial
  postfix? _ := .of_values fun _ _ _ _ _ he => he.apply trivial trivial
  isFunction _ _ := .of_values fun _ _ => trivial
  functionName _ _ := .of_values fun _ _ => Labelled.missing.apply trivial trivial
  argument h he' := .of_values fun _ heq => h.applyInverse (fun _ _ => trivial) he' heq
  closesAny _ := .of_values fun _ _ => trivial
  closes _ := .of_values fun _ _ => trivial
  opener _ := .of_values fun _ _ => trivial
  fenced _ _ he := .of_values fun _ heq => he.delimited (fun _ _ => trivial) trivial trivial heq
  unclosed _ _ he := .of_values fun _ heq => he.delimited (fun _ _ => trivial) trivial trivial heq
  closed _ _ _ _ he := .of_values fun _ _ => .of_values fun _ heq => he.delimited (fun _ _ => trivial) trivial trivial heq
  callName _ := .of_values fun _ _ => trivial
  arguments _ := .of_values fun _ _ => trivial
  commas _ := .of_values fun _ _ => trivial
  callOf h _ hitems := .callOf trivial trivial hitems h.sup h.sub

/-- The operators and the signs of a tree that was read are those of the usual vocabulary. -/
theorem usual_of_ofAtoms {row : List Atom} {e : Expr} (h : ofAtoms .builtin row = .ok e) : e.Labelled Label.IsUsual := by
  rw [ofAtoms_eq] at h
  exact (Call.settled .usual (.whole row) trivial).within.of_ok h

/-! ### Ready labels -/

namespace Preview

/-- Being ready is kept in writing. -/
theorem keptInWriting_isReady : KeptInWriting IsReady where
  append := IsReady.append
  braced h := ((show IsReady "\x7b" by decide).append h).append (by decide)
  digits _ h := by
    refine behindSlashes_of_notMem fun hslash => ?_
    rw [String.toList_ofList] at hslash
    exact absurd (h _ hslash) (by decide)
  fixed := by decide

end Preview

namespace Expr

open Preview

/-- The label is written as a ready text; for a function this holds of the pieces of its template. -/
def Label.IsReady : Label → Prop
  | content d => Preview.IsReady ("\\text" ++ braced d.shown)
  | fence d => (fenceDelimiters d).Within (fun _ => True) fun ends =>
    Yields Preview.IsReady (delimiterLatex ends.1) ∧ Yields Preview.IsReady (delimiterLatex ends.2)
  | symbol d => (resolvedName d >>= Catalog.builtin.spelling).Within (fun _ => True) fun latex => Preview.IsReady latex.shown
  | function d => (Catalog.builtin.functionTemplateOf d).Within (fun _ => True) fun template =>
    ∀ t ∈ template.text?, ∀ piece ∈ functionPieces [] false t.toList, Preview.IsReady (String.ofList piece)
  | operator _ | sign _ => True
  | placeholder d => Preview.IsReady (d.orElse "?").shown

instance : DecidablePred Label.IsReady
  | .content _ | .placeholder _ => inferInstanceAs (Decidable (Preview.IsReady _))
  | .fence _ => inferInstanceAs (Decidable (Within _ (fun _ : Datum × Datum => _ ∧ _) _))
  | .symbol _ => inferInstanceAs (Decidable (Within _ (fun _ : Datum => Preview.IsReady _) _))
  | .function _ => inferInstanceAs (Decidable (Within _ (fun template : Datum => ∀ t ∈ template.text?, ∀ piece ∈ _, _) _))
  | .operator _ | .sign _ => isTrue trivial

/-- The pieces of the templates of the usual operators are ready. -/
theorem fillsOperator_operatorNames : ∀ op ∈ operatorNames, Label.IsWritten Preview.IsReady (.operator (.text op)) := by
  have hall : ∀ op ∈ operatorNames, (Catalog.builtin.operatorTemplateOf (.text op)).Within (fun _ => True) fun template =>
      ∀ t ∈ template.text?, ∀ piece ∈ operatorPieces [] t.toList, Preview.IsReady (String.ofList piece) := by decide
  intro op hop
  refine (hall op hop).imp (fun _ => id) fun template htemplate t ht left right hl hr => ?_
  exact kept_fillOperator keptInWriting_isReady hl hr [] t.toList (htemplate t ht)

/-- A ready label is written as a ready text, and so is every operator and every sign of the usual vocabulary. -/
theorem Label.IsReady.isWritten {l : Label} (h : l.IsReady) (hl : l.IsUsual) : l.IsWritten Preview.IsReady := by
  cases l with
  | content | fence | symbol | placeholder => exact h
  | function name =>
    refine Within.imp h (fun _ => id) fun template htemplate t ht argument sup sub ha hs hb => ?_
    exact kept_fillFunction keptInWriting_isReady ha hs hb [] false t.toList (htemplate t ht)
  | operator op =>
    obtain ⟨name, hname, rfl⟩ := hl
    exact fillsOperator_operatorNames name hname
  | sign op =>
    rcases hl with rfl | rfl
    · rintro _ ⟨⟩
      exact show Preview.IsReady "+" by decide
    · rintro _ ⟨⟩
      exact show Preview.IsReady "-" by decide

/-- A tree that was read is written as a ready text if its labels are ready. -/
theorem isReady_latex {row : List Atom} {e : Expr} (hread : ofAtoms .builtin row = .ok e) (h : e.Labelled Label.IsReady) :
    Yields Preview.IsReady (e.latex {} .builtin) :=
  yields_latex keptInWriting_isReady e fun l hl => (h l hl).isWritten (usual_of_ofAtoms hread l hl)

end Expr

/-! ### Previews -/

open Preview

end Formula
