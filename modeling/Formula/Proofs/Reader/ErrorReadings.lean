import Formula.Proofs.Reader.ErrorAtoms
import Formula.Proofs.Reader.Progress

/-!
# Readings that add errors in order

The errors of a row are those of its first atom, then those of the next, and so on (`InRowOrder`).  A reading adds the errors
of the atoms that it reads behind those of the expression that it goes on with (`AddsInOrder`), unless it puts scripts in
front: scripts with errors of a placeholder come before those that stand at the base already, and those of the name of a
function before its argument.  A row without such scripts is `Atom.KeepsOrder` in all its atoms.

Scripts, marks, numbers and what closes a fence add their errors in order, whatever is read around them.
-/

namespace Formula

open Atom Expr Outcome

/-! ### Rows and their errors -/

/-- The errors are made from the atoms of the row, one atom after the other. -/
inductive InRowOrder : List Atom → List Expr → Prop
  | nil : InRowOrder [] []
  | cons {a : Atom} {row : List Atom} {own es : List Expr} : (∀ x ∈ own, a.MakesError x) → InRowOrder row es →
    InRowOrder (a :: row) (own ++ es)

namespace InRowOrder

variable {a : Atom} {row row' : List Atom} {es es' : List Expr}

theorem skip (h : InRowOrder row es) : InRowOrder (a :: row) es := .cons (fun _ h => absurd h List.not_mem_nil) h

theorem silent (row : List Atom) : InRowOrder row [] := by
  induction row with
  | nil => exact .nil
  | cons _ _ ih => exact ih.skip

theorem append (h : InRowOrder row es) (h' : InRowOrder row' es') : InRowOrder (row ++ row') (es ++ es') := by
  induction h with
  | nil => exact h'
  | cons hown _ ih =>
    rw [List.append_assoc]
    exact ih.cons hown

/-- Where all errors are made from one atom there is nothing to order. -/
theorem of_mem (ha : a ∈ row) (h : ∀ x ∈ es, a.MakesError x) : InRowOrder row es := by
  obtain ⟨before, behind, rfl⟩ := List.append_of_mem ha
  have := (silent before).append ((silent behind).cons h)
  rwa [List.nil_append, List.append_nil] at this

theorem single (h : ∀ x ∈ es, a.MakesError x) : InRowOrder [a] es := of_mem (List.mem_singleton.mpr rfl) h

theorem of_unspaced : ∀ {row : List Atom} {es : List Expr}, InRowOrder (unspaced row) es → InRowOrder row es
  | [], _, h => h
  | a :: row, es, h => by
    by_cases hs : a.type = .spacing
    · rw [unspaced_cons_of_spacing hs] at h
      exact (of_unspaced h).skip
    · rw [unspaced_cons_of_ne hs] at h
      cases h with
      | cons hown h => exact (of_unspaced h).cons hown

/-- The rows between commas in their order. -/
theorem of_splitAtCommas : ∀ {row part : List Atom} {depth : Int} {parts : List (List Atom)} {ess : List (List Expr)},
    splitAtCommas depth part row = .ok parts → List.Forall₂ InRowOrder parts ess → InRowOrder (part.reverse ++ row) ess.flatten
  | [], part, depth, parts, ess, h, hparts => by
    rw [splitAtCommas] at h
    cases h
    cases hparts with
    | cons hpart hnone =>
      cases hnone
      rw [List.append_nil, List.flatten_cons, List.flatten_nil, List.append_nil]
      exact hpart
  | a :: row, part, depth, parts, ess, h, hparts => by
    obtain ⟨next, ⟨-, more, hmore, rfl⟩ | h⟩ := splitAtCommas_cons h
    · cases hparts with
      | cons hpart hparts =>
        have hbehind := of_splitAtCommas hmore hparts
        rw [List.flatten_cons]
        exact hpart.append hbehind.skip
    · have := of_splitAtCommas h hparts
      rwa [List.reverse_cons, List.append_assoc] at this

/-- The errors, part by part. -/
theorem parts (h : InRowOrder row es) :
    ∃ parts, es = parts.flatten ∧ List.Forall₂ (fun a part => ∀ x ∈ part, Atom.MakesError a x) row parts := by
  induction h with
  | nil => exact ⟨[], rfl, .nil⟩
  | @cons a row own es hown _ ih =>
    obtain ⟨parts, rfl, hparts⟩ := ih
    exact ⟨own :: parts, rfl, .cons hown hparts⟩

end InRowOrder

/-! ### Atoms whose scripts are put in front -/

/-- The atom is a placeholder, the name of a function, or a symbol that is read as one in front of parentheses. -/
def Atom.LeadsScripts (c : Catalog) (a : Atom) : Prop :=
  a.isPlaceholder = true ∨ a.isFunction c = .ok true ∨ ∃ e, ofSingle c a = .ok e ∧ callName? e = .ok true

/-- No errors are in the scripts of the atom, if those are put in front. -/
def Atom.KeepsOrder (c : Catalog) (a : Atom) : Prop := a.LeadsScripts c → a.ScriptsRead c

variable {c : Catalog} {fuel : Nat} {closers : List Closer} {a : Atom} {rest atoms row : List Atom} {own : Option Atom}
  {e e' : Expr} {read read' : Reading} {before es : List Expr}

namespace Expr

/-- A symbol that is read as the name of a function holds no errors. -/
def NameHasNone (e : Expr) : Prop := callName? e = .ok true → errorsIn e = []

theorem NameHasNone.of_callName? (h : callName? e = .ok false) : e.NameHasNone := fun hname => by
  cases h.symm.trans hname

theorem NameHasNone.juxtapose (h : e.NameHasNone) (h' : e'.NameHasNone) : (juxtapose e e').NameHasNone := by
  unfold Expr.juxtapose
  split
  · exact h'
  · split
    · exact h
    · exact .of_callName? rfl

theorem NameHasNone.of_takesSign {sign : Datum} (h : TakesSign sign e e') : e'.NameHasNone := by
  cases h with
  | number _ => exact .of_callName? rfl
  | product _ _ => exact .of_callName? rfl

theorem NameHasNone.withSign (sign : Datum) (e : Expr) : (withSign sign e).NameHasNone := by
  obtain h | h := withSign_cases sign e
  · exact .of_takesSign h
  · rw [h]
    exact .of_callName? rfl

end Expr

/-! ### Readings that add errors in order -/

/-- The errors of the atoms that were read are behind those from before. -/
structure AddsInOrder (before : List Expr) (atoms : List Atom) (read : Reading) : Prop where
  added : ∃ row es, atoms = row ++ read.rest ∧ InRowOrder row es ∧ errorsIn read.expr = before ++ es
  name : read.expr.NameHasNone

namespace AddsInOrder

theorem refl (atoms : List Atom) (he : e.NameHasNone) : AddsInOrder (errorsIn e) atoms ⟨atoms, e⟩ :=
  ⟨⟨[], [], rfl, .nil, (List.append_nil _).symm⟩, he⟩

/-- Atoms in front, with their errors. -/
theorem behind (h : AddsInOrder (before ++ es) rest read) (hrow : InRowOrder row es) :
    AddsInOrder before (row ++ rest) read := by
  obtain ⟨⟨row', es', rfl, hrow', herrors⟩, hname⟩ := h
  exact ⟨⟨row ++ row', es ++ es', (List.append_assoc ..).symm, hrow.append hrow', by rw [herrors, List.append_assoc]⟩, hname⟩

theorem cons (h : AddsInOrder (before ++ es) rest read) (hown : ∀ x ∈ es, a.MakesError x) :
    AddsInOrder before (a :: rest) read := h.behind (.single hown)

/-- Atoms at the front, with their errors. -/
theorem front (h : AddsInOrder es rest read) (hrow : InRowOrder row es) : AddsInOrder [] (row ++ rest) read :=
  behind (by rwa [List.nil_append]) hrow

theorem first (h : AddsInOrder es rest read) (hown : ∀ x ∈ es, a.MakesError x) : AddsInOrder [] (a :: rest) read :=
  h.front (.single hown)

/-- Atoms in front that make no errors. -/
theorem pass (row : List Atom) (h : AddsInOrder before rest read) : AddsInOrder before (row ++ rest) read :=
  behind (by rwa [List.append_nil]) (.silent row)

theorem skip (h : AddsInOrder before rest read) : AddsInOrder before (a :: rest) read := h.pass [a]

theorem trans (h : AddsInOrder before atoms read) (h' : AddsInOrder (errorsIn read.expr) read.rest read') :
    AddsInOrder before atoms read' := by
  obtain ⟨⟨row, es, rfl, hrow, herrors⟩, -⟩ := h
  rw [herrors] at h'
  exact h'.behind hrow

/-- An expression around the one that was read, with errors in front of it. -/
theorem wrap (h : AddsInOrder [] atoms read) (he : errorsIn e = before ++ errorsIn read.expr) (hname : e.NameHasNone) :
    AddsInOrder before atoms ⟨read.rest, e⟩ := by
  obtain ⟨⟨row, es, hatoms, hrow, herrors⟩, -⟩ := h
  exact ⟨⟨row, es, hatoms, hrow, by rw [he, herrors, List.nil_append]⟩, hname⟩

theorem keepsOrder (h : AddsInOrder before atoms read) (hq : ∀ a ∈ atoms, a.KeepsOrder c) : ∀ a ∈ read.rest, a.KeepsOrder c := by
  obtain ⟨⟨row, es, rfl, -, -⟩, -⟩ := h
  exact fun a ha => hq a (List.mem_append_right _ ha)

/-- The whole row is read. -/
theorem whole (h : AddsInOrder [] atoms read) (hend : read.rest = []) : InRowOrder atoms (errorsIn read.expr) := by
  obtain ⟨⟨row, es, rfl, hrow, herrors⟩, -⟩ := h
  rwa [herrors, hend, List.append_nil, List.nil_append]

end AddsInOrder

/-! ### Scripts and marks -/

/-- Scripts with errors come behind a node without any in its own. -/
theorem errorsIn_attachScripts (h : attachScripts c fuel a e = .ok e') (ha : a.ScriptsRead c ∨ e.BareOfErrors) :
    ∃ es, errorsIn e' = errorsIn e ++ es ∧ (∀ x ∈ es, a.MakesError x) ∧ (a.ScriptsRead c → es = []) := by
  cases fuel with
  | zero => cases h
  | succ fuel =>
    obtain ⟨sup, sub, hsup, hsub, rfl⟩ := of_attachScripts h
    have quiet : a.ScriptsRead c → errorsIn sup = [] ∧ errorsIn sub = [] := fun ha =>
      ⟨errorsIn_of_scriptsRead ha (.inl rfl) hsup, errorsIn_of_scriptsRead ha (.inr rfl) hsub⟩
    rcases ha with ha | hbare
    · obtain ⟨hs, ht⟩ := quiet ha
      exact ⟨[], by rw [errorsIn_attach_of_none hs ht, List.append_nil], fun _ h => absurd h List.not_mem_nil, fun _ => rfl⟩
    · refine ⟨errorsIn sup ++ errorsIn sub, errorsIn_attach hbare, fun x hx => ?_, fun ha => ?_⟩
      · rcases List.mem_append.mp hx with hx | hx
        · obtain ⟨b, hb, hx⟩ := (traced_nested hsup).made x hx
          exact .inside (by simp [Atom.fields]) hb hx
        · obtain ⟨b, hb, hx⟩ := (traced_nested hsub).made x hx
          exact .inside (by simp [Atom.fields]) hb hx
      · rw [(quiet ha).1, (quiet ha).2, List.append_nil]

theorem callName?_of_attachScripts (h : attachScripts c fuel a e = .ok e') (hname : callName? e' = .ok true) :
    callName? e = .ok true := by
  cases fuel with
  | zero => cases h
  | succ fuel =>
    obtain ⟨sup, sub, -, -, rfl⟩ := of_attachScripts h
    exact callName?_attach hname

theorem callName?_of_readScripts : ∀ {fuel : Nat} {own : Option Atom} {e : Expr} {atoms : List Atom} {read : Reading},
    readScripts c fuel own e atoms = .ok read → callName? read.expr = .ok true → callName? e = .ok true
  | 0, _, _, _, _, h, _ => by cases h
  | fuel + 1, own, e, atoms, read, h, hname => by
    obtain ⟨e', hown, hread⟩ := of_readScripts h
    have he' : callName? e' = .ok true := by
      rcases hread with rfl | ⟨a, rest, -, -, h⟩
      · exact hname
      · exact callName?_of_readScripts h hname
    rcases hown with ⟨rfl, -⟩ | ⟨a, -, he⟩
    · exact he'
    · exact callName?_of_attachScripts he he'

/-- The scripts of an atom add its errors, and placeholders behind it none. -/
theorem errorsIn_readScripts : ∀ {fuel : Nat} {own : Option Atom} {e : Expr} {atoms : List Atom} {read : Reading},
    readScripts c fuel own e atoms = .ok read → (∀ a ∈ own, a.ScriptsRead c ∨ e.BareOfErrors) → (∀ a ∈ atoms, a.KeepsOrder c) →
    ∃ row es, atoms = row ++ read.rest ∧ errorsIn read.expr = errorsIn e ++ es ∧
      (∀ x ∈ es, ∃ a ∈ own, a.MakesError x) ∧ ((∀ a ∈ own, a.ScriptsRead c) → es = [])
  | 0, _, _, _, _, h, _, _ => by cases h
  | fuel + 1, own, e, atoms, read, h, hown, hq => by
    obtain ⟨e', hscripts, hread⟩ := of_readScripts h
    have he' : ∃ es, errorsIn e' = errorsIn e ++ es ∧ (∀ x ∈ es, ∃ a ∈ own, a.MakesError x) ∧
        ((∀ a ∈ own, a.ScriptsRead c) → es = []) := by
      rcases hscripts with ⟨rfl, -⟩ | ⟨a, rfl, he'⟩
      · exact ⟨[], (List.append_nil _).symm, fun _ h => absurd h List.not_mem_nil, fun _ => rfl⟩
      · obtain ⟨es, herrors, hmade, hnone⟩ := errorsIn_attachScripts he' (hown a rfl)
        exact ⟨es, herrors, fun x hx => ⟨a, rfl, hmade x hx⟩, fun ha => hnone (ha a rfl)⟩
    obtain ⟨es, herrors, hmade, hnone⟩ := he'
    rcases hread with rfl | ⟨a, rest, rfl, hplaceholder, h⟩
    · exact ⟨[], es, rfl, herrors, hmade, hnone⟩
    · -- The scripts of the placeholder hold no errors.
      have ha : a.ScriptsRead c := hq a List.mem_cons_self (.inl hplaceholder)
      obtain ⟨row, es', rfl, herrors', -, hnone'⟩ := errorsIn_readScripts h (fun _ h => by cases h; exact .inl ha)
        fun b hb => hq b (List.mem_cons_of_mem _ hb)
      have hes' : es' = [] := hnone' fun _ h => by cases h; exact ha
      exact ⟨a :: row, es, rfl, by rw [herrors', hes', List.append_nil, herrors], hmade, hnone⟩

/-- The scripts of an atom behind a node: the name of a function has none with errors. -/
theorem ordered_own (h : readScripts c fuel (some a) e atoms = .ok read) (ha : a.ScriptsRead c ∨ e.BareOfErrors)
    (hq : ∀ a ∈ atoms, a.KeepsOrder c) (hname : callName? e = .ok true → errorsIn e = [] ∧ a.ScriptsRead c) :
    ∃ es, (∀ x ∈ es, a.MakesError x) ∧ AddsInOrder (errorsIn e ++ es) atoms read := by
  obtain ⟨row, es, hatoms, herrors, hmade, hnone⟩ := errorsIn_readScripts h (fun _ h => by cases h; exact ha) hq
  refine ⟨es, fun x hx => ?_, ⟨row, [], hatoms, .silent row, by rw [herrors, List.append_nil]⟩, fun hread => ?_⟩
  · obtain ⟨_, ⟨⟩, hx⟩ := hmade x hx
    exact hx
  · obtain ⟨he, hquiet⟩ := hname (callName?_of_readScripts h hread)
    rw [herrors, he, hnone (fun _ h => by cases h; exact hquiet), List.append_nil]

theorem ordered_placeholders (h : readScripts c fuel none e atoms = .ok read) (hq : ∀ a ∈ atoms, a.KeepsOrder c)
    (hname : e.NameHasNone) : AddsInOrder (errorsIn e) atoms read := by
  obtain ⟨row, es, hatoms, herrors, -, hnone⟩ := errorsIn_readScripts h (fun _ h => absurd h (Option.not_mem_none _)) hq
  rw [hnone fun _ h => absurd h (Option.not_mem_none _), List.append_nil] at herrors
  exact ⟨⟨row, [], hatoms, .silent row, by rw [herrors, List.append_nil]⟩,
    fun hread => by rw [herrors, hname (callName?_of_readScripts h hread)]⟩

theorem ordered_marks : ∀ {fuel : Nat} {e : Expr} {atoms : List Atom} {read : Reading},
    readPostfix c fuel e atoms = .ok read → (∀ a ∈ atoms, a.KeepsOrder c) → e.NameHasNone →
      AddsInOrder (errorsIn e) atoms read
  | 0, _, _, _, h, _, _ => by cases h
  | fuel + 1, e, atoms, read, h, hq, hname => by
    -- A mark makes a call without scripts, and those of the mark come behind it.
    have mark : ∀ {name : String} {b : Atom} {behind : List Atom}, (∀ a ∈ behind, a.KeepsOrder c) →
        ReadsBehind c fuel (some b) (apply name e) behind read → AddsInOrder (errorsIn e) (b :: behind) read := by
      rintro name b behind hq ⟨scripted, hscripted, hmarks⟩
      obtain ⟨es, hes, hscripts⟩ := ordered_own hscripted (.inr (bareOfErrors_of_missing rfl rfl)) hq fun h => by cases h
      rw [errorsIn_apply] at hscripts
      exact (hscripts.trans (ordered_marks hmarks (hscripts.keepsOrder hq) hscripts.name)).cons hes
    cases marksStep_of_readPostfix h with
    | none => exact .refl _ hname
    | digraph _ h => exact (mark (fun b hb => hq b (by simp [hb])) h).skip
    | mark _ h => exact mark (fun b hb => hq b (List.mem_cons_of_mem _ hb)) h

theorem ordered_behind (h : ReadsBehind c fuel (some a) e atoms read) (ha : a.ScriptsRead c ∨ e.BareOfErrors)
    (hq : ∀ a ∈ atoms, a.KeepsOrder c) (hname : callName? e = .ok true → errorsIn e = [] ∧ a.ScriptsRead c) :
    ∃ es, (∀ x ∈ es, a.MakesError x) ∧ AddsInOrder (errorsIn e ++ es) atoms read := by
  obtain ⟨scripted, hscripted, hmarks⟩ := h
  obtain ⟨es, hes, hscripts⟩ := ordered_own hscripted ha hq hname
  exact ⟨es, hes, hscripts.trans (ordered_marks hmarks (hscripts.keepsOrder hq) hscripts.name)⟩

/-! ### Operands of one atom, and numbers -/

/-- An atom on its own has no scripts, and if it is the name of a function it is so with any fuel. -/
theorem of_ofAtom (h : ofAtom c fuel a = .ok e) :
    e.sup = missing ∧ e.sub = missing ∧ (callName? e = .ok true → errorsIn e = [] ∧ ofSingle c a = .ok e) := by
  have single : ∀ {r : Outcome Expr}, (∀ n, ofAtom c (n + 1) a = r) → r = .ok e → ofSingle c a = .ok e :=
    fun hall hr => (hall _).trans hr
  cases fuel with
  | zero => cases h
  | succ fuel =>
    cases atomStep_of_ofAtom h with
    | fraction _ _ _ => exact ⟨rfl, rfl, fun h => by cases h⟩
    | squareRoot _ _ _ _ => exact ⟨rfl, rfl, fun h => by cases h⟩
    | root _ _ _ _ => exact ⟨rfl, rfl, fun h => by cases h⟩
    | font ht h =>
      have hsingle := single (fun n => by simp only [ofAtom, ht]) h
      obtain ⟨content, rfl | ⟨v, rfl⟩⟩ := inFont_eq_ok h
      · exact ⟨rfl, rfl, fun h => by cases h⟩
      · exact ⟨rfl, rfl, fun _ => ⟨errorsIn_ofSymbol _ _, hsingle⟩⟩
    | text _ h =>
      obtain ⟨content, rfl⟩ := asText_eq_ok h
      exact ⟨rfl, rfl, fun h => by cases h⟩
    | symbol ht h =>
      simp only [List.mem_cons, List.not_mem_nil, or_false] at ht
      have hsingle := single (fun n => by rcases ht with ht | ht <;> simp only [ofAtom, ht]) h
      obtain ⟨name, v, rfl⟩ := symbol_eq_ok h
      exact ⟨rfl, rfl, fun _ => ⟨errorsIn_ofSymbol _ _, hsingle⟩⟩
    | other _ => exact ⟨rfl, rfl, fun h => by cases h⟩

/-- The errors of an atom that is an operand, and behind them those of its scripts. -/
theorem ordered_atom (he : ofAtom c fuel a = .ok e) (h : ReadsBehind c fuel (some a) e rest read)
    (hq : ∀ b ∈ a :: rest, b.KeepsOrder c) : AddsInOrder [] (a :: rest) read := by
  obtain ⟨hs, ht, hname⟩ := of_ofAtom he
  obtain ⟨es, hes, hread⟩ := ordered_behind h (.inr (bareOfErrors_of_missing hs ht))
    (fun b hb => hq b (List.mem_cons_of_mem _ hb)) fun hcall =>
      ⟨(hname hcall).1, hq a List.mem_cons_self (.inr (.inr ⟨e, (hname hcall).2, hcall⟩))⟩
  refine hread.first fun x hx => ?_
  rcases List.mem_append.mp hx with hx | hx
  · exact (traced_atom he).made x hx
  · exact hes x hx

theorem ordered_marked (h : readMarked c fuel a rest = .ok read) (hq : ∀ b ∈ a :: rest, b.KeepsOrder c) :
    AddsInOrder [] (a :: rest) read := by
  cases fuel with
  | zero => cases h
  | succ fuel =>
    obtain ⟨e, he, h⟩ := of_readMarked h
    exact ordered_atom he h hq

/-- A symbol, or the error of an atom that starts no operand. -/
theorem ordered_symbol (h : readSymbol c fuel a rest = .ok read) (hq : ∀ b ∈ a :: rest, b.KeepsOrder c) :
    AddsInOrder [] (a :: rest) read := by
  cases fuel with
  | zero => cases h
  | succ fuel =>
    cases symbolStep_of_readSymbol h with
    | operator _ => simpa using AddsInOrder.refl (e := missing) (a :: rest) (.of_callName? rfl)
    | symbol _ _ h => exact ordered_marked h hq
    | unexpected _ _ hu =>
      obtain ⟨placeholder, message, -, rfl⟩ := unexpected_eq_ok hu
      refine (AddsInOrder.refl (e := unreadable placeholder message) rest (.of_callName? rfl)).first fun x hx => ?_
      rw [errorsIn_unreadable, List.mem_singleton] at hx
      exact hx ▸ .unexpected hu

/-- Behind a literal a fraction is read with its scripts. -/
theorem ordered_mixed {literal : Expr} {numeral : NumeralReading} (h : readMixed c fuel literal numeral = .ok (some read))
    (hliteral : errorsIn literal = []) (hq : ∀ b ∈ numeral.rest, b.KeepsOrder c) : AddsInOrder [] numeral.rest read := by
  cases fuel with
  | zero => cases h
  | succ fuel =>
    obtain ⟨following, rest, fraction, behind, hrest, -, -, hfraction, hbehind, rfl⟩ := of_readMixed h
    rw [hrest] at hq ⊢
    exact (ordered_atom hfraction hbehind hq).wrap (by rw [errorsIn_between, hliteral]) (.of_callName? rfl)

theorem ordered_number (h : readNumber c fuel a rest = .ok read) (hq : ∀ b ∈ a :: rest, b.KeepsOrder c) :
    AddsInOrder [] (a :: rest) read := by
  cases fuel with
  | zero => cases h
  | succ fuel =>
    cases numberStep_of_readNumber h with
    | symbol h => exact ordered_marked h hq
    | mixed _ _ hsuffix hliteral h =>
      obtain ⟨x, rfl⟩ := literalOf_eq_ok hliteral
      obtain ⟨before, hrow⟩ := hsuffix
      rw [← hrow]
      exact (ordered_mixed h (errorsIn_ofNumber _) fun b hb => hq b (hrow ▸ by simp [hb])).skip.pass _
    | plain _ _ hsuffix hliteral h =>
      obtain ⟨x, rfl⟩ := literalOf_eq_ok hliteral
      obtain ⟨before, hrow⟩ := hsuffix
      rw [← hrow]
      obtain ⟨es, hes, hread⟩ := ordered_behind h (.inr (bareOfErrors_of_missing rfl rfl))
        (fun b hb => hq b (hrow ▸ by simp [hb])) fun h => by cases h
      rw [errorsIn_ofNumber] at hread
      exact (hread.first hes).pass _

/-! ### Fences -/

/-- A fence is a group or a call without scripts. -/
theorem of_delimited {left right : Datum} (h : delimited left right e = .ok e') :
    errorsIn e' = errorsIn e ∧ e'.BareOfErrors ∧ callName? e' = .ok false := by
  obtain ⟨name, -, rfl⟩ | rfl := delimited_eq_ok h
  · exact ⟨errorsIn_apply _ _, bareOfErrors_of_missing rfl rfl, rfl⟩
  · exact ⟨errorsIn_fenced _ _, bareOfErrors_of_missing rfl rfl, rfl⟩

theorem ordered_closing {left : Datum} {closer : Closer} {inner : Expr}
    (h : readClosing c fuel left closer inner atoms = .ok read) (hq : ∀ a ∈ atoms, a.KeepsOrder c) :
    AddsInOrder (errorsIn inner) atoms read := by
  cases fuel with
  | zero => cases h
  | succ fuel =>
    cases closingStep_of_readClosing h with
    | unclosed he h _ =>
      obtain ⟨herrors, -, hname⟩ := of_delimited he
      exact herrors ▸ ordered_placeholders h hq (.of_callName? hname)
    | closed _ he h =>
      obtain ⟨herrors, hbare, hname⟩ := of_delimited he
      obtain ⟨es, hes, hread⟩ := ordered_own h (.inr hbare) (fun b hb => hq b (List.mem_cons_of_mem _ hb)) fun h => by
        cases hname.symm.trans h
      rw [herrors] at hread
      exact hread.cons hes

end Formula
