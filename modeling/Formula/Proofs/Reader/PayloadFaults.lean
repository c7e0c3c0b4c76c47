import Formula.Convert
import Formula.Proofs.Reader.Questions
import Formula.Proofs.Reader.Total

/-!
# Faults of payloads

A payload is taken as it comes: what is not checked while the atoms are built may trip a question of the reader later on.
Nearly all questions then say that a value is of the wrong kind, or not acceptable.  The exceptions are two.  A spelling that
is no text has none of the operations of texts, and a symbol whose command is not known is shown by the first part of its
value, which a mapping has only under zero.  `parseAtoms_faults` says that nothing else can happen, for every payload.
-/

namespace Formula

open Text Atom Expr Outcome

/-! ### Atoms at fault -/

/-- The value is neither a text nor left out. -/
def Datum.IsWordless (d : Datum) : Prop := d.isVoid = false ∧ ¬d.IsText

namespace Atom

/-- The atom is spelled by its value. -/
def SpelledByValue (a : Atom) : Prop := a.latex.isVoid = true ∨ ∃ s, a.latex = .text s ∧ allBlank s = true

/-- The spelling is asked for what only texts have. -/
inductive Misspelled (a : Atom) : Prop
  /-- The LaTeX spelling is no text. -/
  | latex : a.latex.IsWordless → Misspelled a
  /-- The atom may be an operator, and is spelled by a value that is no text. -/
  | value : a.SpelledByValue → operatorTypes.contains a.type = true → a.value.IsWordless → Misspelled a
  /-- The atom names a function, and is spelled by a value that is no text, if only by null. -/
  | command : a.SpelledByValue → a.type = .operator → ¬a.value.IsText → Misspelled a

/-- The symbol is shown by the first part of a mapping that has none. -/
structure Headless (c : Catalog) (a : Atom) : Prop where
  type : a.type = .ordinary ∨ a.type = .textual
  name : ∃ s, a.name c = .ok (.text s) ∧ beginsWith s "\\" = true
  value : ∃ entries, a.value = .map entries ∧ entries ≠ [] ∧ entries.find? (fun e => e.1.same (.int 0)) = none

/-- The fault is that of an atom which is read somewhere in the formula. -/
def Blamed (c : Catalog) (atoms : List Atom) (f : Fault) : Prop :=
  ∃ a, Part atoms [a] ∧ (f = .noOperation ∧ a.Misspelled ∨ f = .noEntry ∧ a.Headless c)

/-- A fault of the payload, or of an atom in it. -/
def PayloadFault (c : Catalog) (atoms : List Atom) (f : Fault) : Prop :=
  f.kind = .value ∨ f.kind = .type ∨ Blamed c atoms f

variable {c : Catalog} {atoms : List Atom} {a : Atom}

theorem Part.of_mem {row : List Atom} (h : Part atoms row) (ha : a ∈ row) : Part atoms [a] := by
  obtain ⟨s, t, rfl⟩ := List.append_of_mem ha
  exact h.run ⟨s, t, by simp⟩

theorem holdsPayloadFaults (c : Catalog) (atoms : List Atom) : HoldsPayloadFaults (PayloadFault c atoms) :=
  fun _ h => h.elim .inl fun h => .inr (.inl h)

theorem payloadFault_misspelled (h : Part atoms [a]) (ha : a.Misspelled) : PayloadFault c atoms .noOperation :=
  .inr (.inr ⟨a, h, .inl ⟨rfl, ha⟩⟩)

/-- The spelling is the value, a text, or at fault. -/
theorem text_cases (a : Atom) : (a.SpelledByValue ∧ a.text = .ok a.value) ∨ (∃ s, a.text = .ok (.text s)) ∨
    (a.latex.IsWordless ∧ a.text = .error .noOperation) := by
  unfold Atom.text
  split
  · rename_i hvoid
    exact .inl ⟨.inl hvoid, rfl⟩
  · rename_i hvoid
    split
    · rename_i s hs
      split
      · rename_i hblank
        exact .inl ⟨.inr ⟨s, hs, hblank⟩, rfl⟩
      · exact .inr (.inl ⟨_, rfl⟩)
    · rename_i hs
      refine .inr (.inr ⟨⟨Bool.eq_false_iff.mpr hvoid, ?_⟩, rfl⟩)
      rintro ⟨s, h⟩
      exact hs s h

theorem faults_text (h : Part atoms [a]) : a.text.Faults (PayloadFault c atoms) := by
  obtain ⟨-, ht⟩ | ⟨s, ht⟩ | ⟨hlatex, ht⟩ := text_cases a
  · exact .of_eq_ok ht trivial
  · exact .of_eq_ok ht trivial
  · exact .of_eq_error ht (payloadFault_misspelled h (.latex hlatex))

/-- A name is asked of atoms that may be operators alone, and is a text in a catalog of texts. -/
theorem name_within (hc : c.Worded) (h : Part atoms [a]) (htype : operatorTypes.contains a.type = true) :
    (a.name c).Within (PayloadFault c atoms) Datum.IsText := by
  have trimmed : ∀ s : String, (c.canonicalNameOf (.text s)).Within (PayloadFault c atoms) Datum.IsText := by
    intro s
    unfold Catalog.canonicalNameOf
    split
    · exact within_ok (hc.nameOfTrimmed "")
    · exact within_ok (hc.nameOfTrimmed (trim s))
  unfold Atom.name
  obtain ⟨hspelled, ht⟩ | ⟨s, ht⟩ | ⟨hlatex, ht⟩ := text_cases a
  · rw [ht]
    show (c.canonicalNameOf a.value).Within _ _
    by_cases hvoid : a.value.isVoid = true
    · unfold Catalog.canonicalNameOf
      rw [if_pos hvoid]
      exact within_ok (hc.nameOfTrimmed "")
    · cases hv : a.value with
      | text s => exact trimmed s
      | _ =>
        have hwordless : a.value.IsWordless := by
          refine ⟨Bool.eq_false_iff.mpr hvoid, ?_⟩
          rintro ⟨s, hs⟩
          rw [hv] at hs
          cases hs
        unfold Catalog.canonicalNameOf
        rw [← hv, if_neg hvoid, hv]
        exact payloadFault_misspelled h (.value hspelled htype hwordless)
  · rw [ht]
    exact trimmed s
  · rw [ht]
    exact payloadFault_misspelled h (.latex hlatex)

theorem faults_symbol (hc : c.Worded) (h : Part atoms [a]) (htype : a.type = .ordinary ∨ a.type = .textual) :
    (a.symbol c).Faults (PayloadFault c atoms) := by
  have hoperator : operatorTypes.contains a.type = true := by
    rcases htype with h | h
    all_goals
      rw [h]
      decide
  have hF := holdsPayloadFaults c atoms
  have variant : ∀ name : Datum, Faults (PayloadFault c atoms) (do return Expr.ofSymbol name (← a.variant)) :=
    fun _ => (faults_variant hF a).bind fun _ => faults_ok _
  refine ((name_within hc h hoperator).and_ok fun _ hname => hname).bind ?_
  rintro _ ⟨⟨s, rfl⟩, hname⟩
  show Faults _ (if (beginsWith s "\\" && !a.value.isVoid) = true then _ else _)
  split
  · rename_i hcommand
    obtain ⟨hbegins, hvoid⟩ := Bool.and_eq_true_iff.mp hcommand
    refine Faults.bind ((Datum.faults_first hF a.value).imp ?_) variant
    rintro f (hf | ⟨rfl, hempty | ⟨entries, hentries, hnone⟩⟩)
    · exact hf
    · rw [hempty] at hvoid
      cases hvoid
    · refine .inr (.inr ⟨a, h, .inr ⟨rfl, htype, ⟨s, hname, hbegins⟩, entries, hentries, ?_, hnone⟩⟩)
      rintro rfl
      rw [hentries] at hvoid
      cases hvoid
  · exact variant _

/-- What the questions about the spelling of an atom fail of is a fault of the payload, or of the atom. -/
theorem Part.permits (hc : c.Worded) (h : Part atoms [a]) : a.Permits c (PayloadFault c atoms) where
  payload := holdsPayloadFaults c atoms
  text := faults_text h
  name htype := (name_within hc h htype).imp (fun _ hf => hf) fun _ _ => trivial
  command htype hnone := by
    obtain ⟨hspelled, ht⟩ | ⟨s, ht⟩ | ⟨hlatex, -⟩ := text_cases a
    · refine payloadFault_misspelled h (.command hspelled htype ?_)
      rintro ⟨s, hs⟩
      exact hnone s (by rw [ht, hs])
    · exact absurd ht (hnone s)
    · exact payloadFault_misspelled h (.latex hlatex)
  symbol htype := faults_symbol hc h htype

end Atom

/-! ### Readings of payloads -/

variable {c : Catalog}

/-- The exponent of a name is compared with minus one if it is a number, and numbers are legible. -/
theorem Expr.applyInverse_within {F : Fault → Prop} (hF : HoldsPayloadFaults F) {name fence : Datum} {e e' s t : Expr}
    (h : (call name e fence s t).IsTame fun _ => True) :
    (applyInverse (call name e' fence s t)).Within F (IsTame fun _ => True) := by
  obtain ⟨is, his⟩ := isMinusOne_ok h.2
  have hname : (inverseName? name s).Faults F := by
    refine (Datum.faults_lookup hF inverses name).bind fun found => ?_
    cases found with
    | none => exact faults_ok _
    | some inverse =>
      rw [his]
      exact faults_ok _
  refine Within.bind hname fun found _ => ?_
  cases found with
  | none => exact ⟨trivial, h.2⟩
  | some inverse => exact ⟨trivial, fun _ _ _ h => by cases h⟩

theorem Expr.delimited_within {F : Fault → Prop} (hF : HoldsPayloadFaults F) (left right : Datum) (e : Expr) :
    (delimited left right e).Within F (IsTame fun _ => True) := by
  refine Within.bind (Atom.faults_delimiterFunction? hF left right) fun found _ => ?_
  cases found with
  | none => exact trivial
  | some name => exact ⟨trivial, fun _ _ _ h => by cases h⟩

theorem Expr.isTame_ofSymbol (name variant : Datum) : (ofSymbol name variant).IsTame fun _ => True :=
  ⟨trivial, fun _ _ _ h => by cases h⟩

theorem Atom.isTame_symbol {a : Atom} {e : Expr} (h : a.symbol c = .ok e) : e.IsTame fun _ => True := by
  obtain ⟨name, v, rfl⟩ := symbol_eq_ok h
  exact isTame_ofSymbol name v

theorem Atom.isTame_inFont {a : Atom} {e : Expr} (h : a.inFont = .ok e) : e.IsTame fun _ => True := by
  obtain ⟨content, rfl | ⟨v, rfl⟩⟩ := inFont_eq_ok h
  · exact trivial
  · exact isTame_ofSymbol _ v

theorem Atom.isTame_asText {a : Atom} {e : Expr} (h : a.asText = .ok e) : e.IsTame fun _ => True := by
  obtain ⟨content, rfl⟩ := asText_eq_ok h
  exact trivial

theorem Expr.isTame_literalOf {chars : List Char} {e : Expr} (h : literalOf chars = .ok e) : e.IsTame fun _ => True := by
  obtain ⟨x, rfl⟩ := literalOf_eq_ok h
  exact .inl ⟨x, rfl⟩

namespace Atom.Part

variable {atoms row : List Atom} {a : Atom}

theorem permits_row (hc : c.Worded) (h : Part atoms row) : ∀ a ∈ row, a.Permits c (PayloadFault c atoms) :=
  fun _ ha => (h.of_mem ha).permits hc

theorem permits_body (hc : c.Worded) (h : Part atoms [a]) :
    ∀ b ∈ unspaced (a.body.getD []), b.Permits c (PayloadFault c atoms) := by
  have hbody : a.body ∈ a.fields := by simp [fields]
  exact (h.nested (List.mem_singleton.mpr rfl) hbody).permits_row hc

end Atom.Part

/-- A formula is read without a fault but those of the payload. -/
theorem Discipline.payload (hc : c.Worded) (atoms : List Atom) :
    Discipline c (PayloadFault c atoms) (Part atoms) (IsTame fun _ => True) where
  part h hs := h.run hs
  unspaced h := by
    rw [h.unspaced_eq]
    exact h
  nested h hfield := h.nested (List.mem_singleton.mpr rfl) hfield
  precedence h := (h.permits hc).precedence
  operation h hp := by
    refine ((h.permits hc).name ?_).within fun _ _ _ _ _ _ => trivial
    refine Decidable.byContradiction fun hother => ?_
    unfold Atom.precedence at hp
    rw [if_neg hother] at hp
    cases hp
  sign h := (h.permits hc).sign?.within fun _ _ _ _ _ he => isTame_withSign he
  product _ _ := trivial
  sum _ _ := trivial
  juxtapose := isTame_juxtapose
  missing := trivial
  startsOperand h := (h.permits hc).startsOperand _
  placeholder _ _ := trivial
  symbol h htype := ((h.permits hc).symbol htype).within fun _ => isTame_symbol
  inFont h _ := (faults_inFont (holdsPayloadFaults c atoms) (h.permits_body hc)).within fun _ => isTame_inFont
  asText h _ := (faults_asText (holdsPayloadFaults c atoms) (h.permits_body hc)).within fun _ => isTame_asText
  quotient _ _ := trivial
  squareRoot _ := trivial
  power _ _ := isTame_apply trivial _
  attach he hs _ := isTame_attach he hs
  unexpected h := Within.bind (h.permits hc).text fun _ _ => trivial
  startsNumber h := faults_startsNumber (h.permits_row hc)
  numeral h _ := faults_scanNumeralFrom _ _ _ (h.permits_row hc)
  literal _ _ _ _ _ := (faults_literalOf (holdsPayloadFaults c atoms) _).within fun _ => isTame_literalOf
  mixed hliteral _ := by
    obtain ⟨x, hx⟩ := literalOf_eq_ok hliteral
    obtain ⟨found, hfound⟩ := mixedNumber_ok x _
    rw [hx]
    exact .of_eq_ok hfound trivial
  digraph h := (faults_startsWithDigraph? _ (h.permits_row hc)).within fun _ _ _ _ _ _ => isTame_apply trivial _
  postfix? h := (h.permits hc).postfixFunction?.within fun _ _ _ _ _ _ => isTame_apply trivial _
  isFunction h htype := (h.permits hc).isFunction htype
  functionName _ h := by
    obtain ⟨name, hname, -⟩ := bind_eq_ok.mp h
    exact .of_eq_ok hname (isTame_apply trivial _)
  argument h _ := applyInverse_within (holdsPayloadFaults c atoms) h
  closesAny h := (h.permits hc).closesAny _
  closes h := (h.permits hc).closes _
  opener h := (h.permits hc).opener?
  fenced _ _ _ := delimited_within (holdsPayloadFaults c atoms) _ _ _
  unclosed _ _ _ := delimited_within (holdsPayloadFaults c atoms) _ _ _
  closed _ _ h _ _ := (h.permits hc).glyph.within fun _ _ => delimited_within (holdsPayloadFaults c atoms) _ _ _
  callName _ := faults_callName? (holdsPayloadFaults c atoms) _
  arguments h := faults_callArguments? (h.permits_row hc)
  commas h := faults_splitAtCommas _ _ (h.permits_row hc)
  callOf h _ _ := h

/-! ### Building and counting -/

namespace Atom

variable {F : Fault → Prop}

theorem faults_readType (hF : HoldsPayloadFaults F) (d : Datum) : (readType d).Faults F := by
  refine (Datum.faults_key hF d).bind fun type => ?_
  split
  · exact faults_ok _
  · exact faults_error (hF _ (.inl rfl))

theorem faults_unknownFields (hF : HoldsPayloadFaults F) (entries : List (Datum × Datum)) :
    (unknownFields entries).Faults F := by
  unfold unknownFields
  dsimp only
  split
  · exact faults_ok _
  · split
    · exact faults_error (hF _ (.inr rfl))
    · exact faults_error (hF _ (.inr rfl))

theorem faults_readNested {entries : List (Datum × Datum)} {sequences : Sequences}
    (h : ∀ e ∈ sequences, e.2.Faults F) (name : String) : (readNested entries sequences name).Faults F := by
  unfold readNested
  split
  · exact faults_ok _
  · split
    · rename_i sequence hfound
      obtain ⟨e, he, rfl⟩ := Option.map_eq_some_iff.mp hfound
      exact (h e (List.mem_of_find?_eq_some he)).map _
    · exact faults_ok _

theorem faults_ofEntries (hF : HoldsPayloadFaults F) (entries : List (Datum × Datum)) {sequences : Sequences}
    (h : ∀ e ∈ sequences, e.2.Faults F) : (ofEntries entries sequences).Faults F := by
  refine (faults_readType hF _).bind fun type => (faults_unknownFields hF entries).bind fun unknown => ?_
  have nested := @faults_readNested F entries sequences h
  have fields := (nested "superscript").bind fun superscript => (nested "subscript").bind fun subscript =>
    (nested "body").bind fun body => (nested "numer").bind fun numerator => (nested "denom").bind fun denominator =>
    (nested "index").bind fun index => @faults_ok _ F ({
      type, superscript, subscript, body, numerator, denominator, index
      value := (Datum.field? entries "value").getD (.text "")
      latex := Datum.field entries "latex"
      delim := Datum.field entries "delim"
      leftDelim := Datum.field entries "left_delim"
      rightDelim := Datum.field entries "right_delim"
      font := Datum.field entries "font" } : Atom)
  cases unknown with
  | nil => exact fields
  | cons name names => exact faults_error (hF _ (.inl rfl))

mutual

theorem faults_ofItem (hF : HoldsPayloadFaults F) : ∀ d : Datum, (ofItem d).Faults F
  | .map entries => faults_ofEntries hF entries (faults_sequencesOf hF entries)
  | .null | .bool _ | .int _ | .float _ | .text _ | .list _ | .tuple _ | .set _ | .record .. | .other .. =>
    faults_error (hF _ (.inr rfl))

theorem faults_ofSequence (hF : HoldsPayloadFaults F) : ∀ d : Datum, (ofSequence d).Faults F
  | .list items | .tuple items => faults_ofItems hF items
  | .null | .bool _ | .int _ | .float _ | .text _ | .map _ | .set _ | .record .. | .other .. =>
    faults_error (hF _ (.inr rfl))

theorem faults_ofItems (hF : HoldsPayloadFaults F) : ∀ items : List Datum, (ofItems items).Faults F
  | [] => faults_ok _
  | d :: rest => (faults_ofItem hF d).bind fun _ => (faults_ofItems hF rest).bind fun _ => faults_ok _

theorem faults_sequencesOf (hF : HoldsPayloadFaults F) : ∀ (entries : List (Datum × Datum)),
    ∀ e ∈ sequencesOf entries, e.2.Faults F
  | [], _, he => by cases he
  | (k, v) :: rest, e, he => by
    rcases List.mem_cons.mp he with rfl | he
    · exact faults_ofSequence hF v
    · exact faults_sequencesOf hF rest e he

end

end Atom

theorem Datum.faults_isBelow {F : Fault → Prop} (hF : HoldsPayloadFaults F) (d : Datum) (n : Nat) :
    (d.isBelow n).Faults F := by
  unfold isBelow
  split
  · exact faults_ok _
  · exact faults_ok _
  · split
    · exact faults_ok _
    · exact faults_ok _
    · exact faults_ok _
  · exact faults_error (hF _ (.inr rfl))

theorem Limits.faults_checkAtoms {F : Fault → Prop} (hF : HoldsPayloadFaults F) (l : Limits) (atoms : List Atom) :
    (l.checkAtoms atoms).Faults F := by
  unfold Limits.checkAtoms
  refine (Datum.faults_isBelow hF _ _).bind fun _ => .ite (faults_error (hF _ (.inl rfl))) ?_
  exact (Datum.faults_isBelow hF _ _).bind fun _ => .ite (faults_error (hF _ (.inl rfl))) (faults_ok _)

/-- In place of the general fault of too deep recursion there is another. -/
theorem within_renamed {α : Type} {F : Fault → Prop} {P : α → Prop} {fault : Fault} {r : Outcome α}
    (h : r.Within (fun f => F f ∨ f = .recursion) P) (hfault : F fault) : (renamed fault r).Within F P := by
  unfold renamed
  split
  · exact hfault
  · rename_i hne
    cases r with
    | ok v => exact h
    | error f =>
      rcases h with h | rfl
      · exact h
      · exact (hne rfl).elim

/-- A payload with one ordinary atom of the given value and LaTeX spelling. -/
def ordinaryPayload (value latex : Datum) : Datum :=
  .list [.map [(.text "type", .text "mord"), (.text "value", value), (.text "latex", latex)]]

/-- The atom of such a payload. -/
def ordinaryAtom (value latex : Datum) : Atom := { type := .ordinary, value, latex }

theorem parseAtoms_ordinary (value latex : Datum) :
    parseAtoms {} .builtin (ordinaryPayload value latex) =
      renamed .parseRecursion (readAtoms .builtin [ordinaryAtom value latex]) := by
  have hbuilt : Atom.ofSequence (ordinaryPayload value latex) = .ok [ordinaryAtom value latex] := by
    have hunknown : unknownFields [(.text "type", .text "mord"), (.text "value", value), (.text "latex", latex)] = .ok [] := by
      simp [unknownFields, fieldNames, Datum.text?]
    unfold ordinaryPayload Atom.ofSequence ofItems ofItem ofEntries
    rw [hunknown]
    rfl
  have hcount : count [ordinaryAtom value latex] = 1 := by
    simp [count, countFrom, nestedIn, Atom.nested, ordinaryAtom]
  have hdepth : nestingDepth [ordinaryAtom value latex] = 1 := by
    simp [nestingDepth, depthFrom, flatDepth, fencesAfter, nestedLevels, Atom.nested, ordinaryAtom]
  have hcheck : ({} : Limits).checkAtoms [ordinaryAtom value latex] = .ok () := by
    unfold Limits.checkAtoms
    rw [hcount, hdepth]
    rfl
  unfold parseAtoms
  rw [hbuilt]
  show (({} : Limits).checkAtoms [ordinaryAtom value latex] >>= fun _ => _) = _
  rw [hcheck]
  rfl

end Formula
