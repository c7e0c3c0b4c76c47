import Formula.Convert
import Formula.Proofs.Reader.ErrorReadings

/-!
# Errors in the order of the row

Every function of the reader adds the errors of the atoms that it reads in their order, if no errors are in scripts that it puts
in front.  `OrderKept` holds of a reader that has run out of fuel, and one more unit of fuel keeps it: there is one lemma for
every function, by cases on its steps.
-/

namespace Formula

open Atom Expr Outcome

variable {c : Catalog} {fuel : Nat} {closers : List Closer} {a : Atom} {rest atoms row : List Atom} {e : Expr}
  {read : Reading}

/-! ### The functions that call each other -/

/-- The errors that are kept in order by the functions of the reader with the fuel. -/
structure OrderKept (c : Catalog) (fuel : Nat) : Prop where
  whole : ∀ {row e}, Expr.ofSequence c fuel row = .ok e → (∀ a ∈ row, a.KeepsOrder c) → InRowOrder row (errorsIn e)
  nested : ∀ {row e}, ofNested c fuel (some row) = .ok e → (∀ a ∈ row, a.KeepsOrder c) → InRowOrder row (errorsIn e)
  parts : ∀ {rows items}, ofParts c fuel rows = .ok items → (∀ row ∈ rows, ∀ a ∈ row, a.KeepsOrder c) →
    List.Forall₂ InRowOrder rows (items.map errorsIn)
  function : ∀ {closers a rest read}, readFunction c fuel closers a rest = .ok read → a.isFunction c = .ok true →
    (∀ b ∈ a :: rest, b.KeepsOrder c) → AddsInOrder [] (a :: rest) read
  fence : ∀ {closers a rest read}, readFence c fuel closers a rest = .ok read → (∀ b ∈ a :: rest, b.KeepsOrder c) →
    AddsInOrder [] (a :: rest) read
  operand : ∀ {closers a rest read}, readOperand c fuel closers a rest = .ok read → (∀ b ∈ a :: rest, b.KeepsOrder c) →
    AddsInOrder [] (a :: rest) read
  application : ∀ {e atoms read}, readCall c fuel e atoms = .ok (some read) → e.NameHasNone → (∀ a ∈ atoms, a.KeepsOrder c) →
    AddsInOrder (errorsIn e) atoms read
  neighbours : ∀ {closers e atoms read}, readNeighbours c fuel closers e atoms = .ok read → e.NameHasNone →
    (∀ a ∈ atoms, a.KeepsOrder c) → AddsInOrder (errorsIn e) atoms read
  primary : ∀ {closers atoms read}, readPrimary c fuel closers atoms = .ok read → (∀ a ∈ atoms, a.KeepsOrder c) →
    AddsInOrder [] atoms read
  expression : ∀ {closers least left atoms read}, readExpression c fuel closers least left atoms = .ok read →
    left.NameHasNone → (∀ a ∈ atoms, a.KeepsOrder c) → AddsInOrder (errorsIn left) atoms read
  tighter : ∀ {closers precedence right atoms read}, readTighter c fuel closers precedence right atoms = .ok read →
    right.NameHasNone → (∀ a ∈ atoms, a.KeepsOrder c) → AddsInOrder (errorsIn right) atoms read
  stray : ∀ {closers e atoms read}, readStray c fuel closers e atoms = .ok read → e.NameHasNone →
    (∀ a ∈ atoms, a.KeepsOrder c) → AddsInOrder (errorsIn e) atoms read
  sequence : ∀ {closers atoms read}, readSequence c fuel closers atoms = .ok read → (∀ a ∈ atoms, a.KeepsOrder c) →
    AddsInOrder [] atoms read

section

variable (ih : OrderKept c fuel)
include ih

theorem ordered_whole (h : Expr.ofSequence c (fuel + 1) row = .ok e) (hq : ∀ a ∈ row, a.KeepsOrder c) :
    InRowOrder row (errorsIn e) := by
  obtain ⟨read, hread, rfl⟩ := of_ofSequence h
  have hend : read.rest = [] := ((Forward.all c fuel).sequence hread).2.nil_of_no_closers
  exact .of_unspaced ((ih.sequence hread fun a ha => hq a (List.mem_of_mem_filter ha)).whole hend)

theorem ordered_nested (h : ofNested c (fuel + 1) (some row) = .ok e) (hq : ∀ a ∈ row, a.KeepsOrder c) :
    InRowOrder row (errorsIn e) := by
  cases nestedStep_of_ofNested h with
  | nil =>
    rw [errorsIn_missing]
    exact .nil
  | whole h => exact ih.whole h hq

theorem ordered_parts {rows : List (List Atom)} {items : List Expr} (h : ofParts c (fuel + 1) rows = .ok items)
    (hq : ∀ row ∈ rows, ∀ a ∈ row, a.KeepsOrder c) : List.Forall₂ InRowOrder rows (items.map errorsIn) := by
  cases partsStep_of_ofParts h with
  | nil => exact .nil
  | cons he hmore =>
    exact .cons (ih.nested he (hq _ List.mem_cons_self)) (ih.parts hmore fun r hr => hq r (List.mem_cons_of_mem _ hr))

/-- The scripts of the name, which come behind the argument, hold no errors. -/
theorem ordered_function (h : readFunction c (fuel + 1) closers a rest = .ok read) (hf : a.isFunction c = .ok true)
    (hq : ∀ b ∈ a :: rest, b.KeepsOrder c) : AddsInOrder [] (a :: rest) read := by
  have ha : a.ScriptsRead c := hq a List.mem_cons_self (.inr (.inl hf))
  have scripted : ∀ {name : Datum} {head : Reading}, readScripts c fuel (some a) (apply name missing) rest = .ok head →
      ∃ row, rest = row ++ head.rest ∧ errorsIn head.expr = [] ∧ head.expr.NameHasNone := by
    intro name head hhead
    obtain ⟨row, es, hrest, herrors, -, hes⟩ := errorsIn_readScripts hhead (fun _ h => by cases h; exact .inl ha) fun b hb =>
      hq b (List.mem_cons_of_mem _ hb)
    rw [errorsIn_apply, errorsIn_missing, List.nil_append, hes fun _ h => by cases h; exact ha] at herrors
    exact ⟨row, hrest, herrors, fun _ => herrors⟩
  cases functionStep_of_readFunction h with
  | call _ hhead hargument heq he =>
    obtain ⟨row, hrest, hnone, -⟩ := scripted hhead
    have hread := ih.primary hargument fun b hb => hq b (by rw [hrest]; simp [hb])
    rw [hrest]
    refine AddsInOrder.pass (a :: row) (hread.wrap ?_ ?_)
    · rw [heq, errorsIn] at hnone
      rw [errorsIn_applyInverse he, errorsIn, (List.append_eq_nil_iff.mp hnone).2, List.append_nil, List.nil_append]
    · cases invertsTo_of_applyInverse he with
      | unchanged _ => exact .of_callName? rfl
      | inverse _ _ => exact .of_callName? rfl
  | product _ hhead hargument =>
    obtain ⟨row, hrest, hnone, hname⟩ := scripted hhead
    have hread := ih.primary hargument fun b hb => hq b (by rw [hrest]; simp [hb])
    rw [hrest]
    exact AddsInOrder.pass (a :: row) (hread.wrap (by rw [errorsIn_juxtapose, hnone]) (hname.juxtapose hread.name))

theorem ordered_fence (h : readFence c (fuel + 1) closers a rest = .ok read) (hq : ∀ b ∈ a :: rest, b.KeepsOrder c) :
    AddsInOrder [] (a :: rest) read := by
  have hrest : ∀ b ∈ rest, b.KeepsOrder c := fun b hb => hq b (List.mem_cons_of_mem _ hb)
  cases fenceStep_of_readFence h with
  | fenced _ hinner he h =>
    obtain ⟨herrors, hbare, hname⟩ := of_delimited he
    obtain ⟨es, hes, hread⟩ := ordered_behind h (.inr hbare) hrest fun h => by cases hname.symm.trans h
    refine hread.first fun x hx => ?_
    rcases List.mem_append.mp hx with hx | hx
    · obtain ⟨b, hb, hx⟩ := (traced_nested hinner).made x (herrors ▸ hx)
      exact .inside (by simp [Atom.fields]) hb hx
    · exact hes x hx
  | symbol _ _ h => exact ordered_symbol h hq
  | opened _ hinner hclosed h =>
    have hinside := ih.sequence hinner hrest
    have hfence := hinside.trans (ordered_closing hclosed (hinside.keepsOrder hrest))
    exact (hfence.trans (ordered_marks h (hfence.keepsOrder hrest) hfence.name)).skip

theorem ordered_operand (h : readOperand c (fuel + 1) closers a rest = .ok read) (hq : ∀ b ∈ a :: rest, b.KeepsOrder c) :
    AddsInOrder [] (a :: rest) read := by
  have hrest : ∀ b ∈ rest, b.KeepsOrder c := fun b hb => hq b (List.mem_cons_of_mem _ hb)
  cases operandStep_of_readOperand h with
  | @digraph b behind name read _ hread =>
    have hread := ih.primary hread fun b hb => hrest b (List.mem_cons_of_mem _ hb)
    exact (hread.wrap (e := apply name read.expr) (errorsIn_apply _ _) (.of_callName? rfl)).skip.skip
  | sign _ hread => exact ((ih.primary hread hrest).wrap (errorsIn_withSign _ _) (.withSign _ _)).skip
  | placeholder hplaceholder h =>
    obtain ⟨es, hes, hread⟩ := ordered_own h (.inl (hq a List.mem_cons_self (.inl hplaceholder))) hrest fun h => by cases h
    refine hread.first fun x hx => ?_
    rcases List.mem_append.mp hx with hx | hx
    · rw [errorsIn_unreadable, List.mem_singleton] at hx
      exact hx ▸ .placeholder hplaceholder
    · exact hes x hx
  | number _ h => exact ordered_number h hq
  | marked _ h => exact ordered_marked h hq
  | fence _ h => exact ih.fence h hq
  | function _ hf h => exact ih.function h hf hq
  | symbol _ _ _ h => exact ordered_symbol h hq

/-- The scripts of the symbol, which come behind the arguments, hold no errors. -/
theorem ordered_application (h : readCall c (fuel + 1) e atoms = .ok (some read)) (hname : e.NameHasNone)
    (hq : ∀ a ∈ atoms, a.KeepsOrder c) : AddsInOrder (errorsIn e) atoms read := by
  obtain ⟨name, variant, s, t, inner, last, rest, rows, items, rfl, hcall, hfound, hrows, hitems, hbehind⟩ :=
    of_readCall h
  have hnone := hname hcall
  rw [hnone]
  rw [errorsIn] at hnone
  obtain ⟨hs, ht⟩ := List.append_eq_nil_iff.mp hnone
  have herrors : errorsIn (Expr.call name (argumentsOf items) parentheses s t) = items.flatMap errorsIn := by
    rw [errorsIn, hs, ht, errorsIn_argumentsOf, List.append_nil, List.append_nil]
  have hmember : ∀ r ∈ rows, ∀ b ∈ r, b ∈ inner := fun r hr b hb => by
    have := ((splitAtCommas_parts hrows).1 r hr).subset hb
    simpa using this
  have behind : (∀ b ∈ rest, b.KeepsOrder c) → ∃ es, (∀ x ∈ es, last.MakesError x) ∧
      AddsInOrder (items.flatMap errorsIn ++ es) rest read := fun hrest =>
    herrors ▸ ordered_behind hbehind (.inr ⟨hs, ht⟩) hrest fun h => by cases h
  rcases callArguments?_eq hfound with ⟨rfl, rfl⟩ | ⟨opening, rfl⟩
  · -- The arguments are inside of the one atom.
    obtain ⟨es, hes, hread⟩ := behind fun b hb => hq b (List.mem_cons_of_mem _ hb)
    refine hread.first fun x hx => ?_
    rcases List.mem_append.mp hx with hx | hx
    · obtain ⟨item, hitem, hx⟩ := List.mem_flatMap.mp hx
      obtain ⟨r, hr, b, hb, hx⟩ := (traced_parts hitems item hitem).made x hx
      exact .inside (by simp [Atom.fields]) (hmember r hr b hb) hx
    · exact hes x hx
  · obtain ⟨es, hes, hread⟩ := behind fun b hb => hq b (by simp [hb])
    have hrow : InRowOrder inner (items.flatMap errorsIn) :=
      .of_splitAtCommas hrows (ih.parts hitems fun r hr b hb => hq b (by simp [hmember r hr b hb]))
    exact ((hread.cons hes).front hrow).skip

theorem ordered_neighbours (h : readNeighbours c (fuel + 1) closers e atoms = .ok read) (hname : e.NameHasNone)
    (hq : ∀ a ∈ atoms, a.KeepsOrder c) : AddsInOrder (errorsIn e) atoms read := by
  cases neighboursStep_of_readNeighbours h with
  | none => exact .refl _ hname
  | call _ hcall h =>
    have hcall := ih.application hcall hname hq
    exact hcall.trans (ih.neighbours h hcall.name (hcall.keepsOrder hq))
  | stopped _ hoperand hstopped =>
    obtain rfl := ((Forward.all c fuel).operand hoperand).eq_of_stopped hstopped
    exact .refl _ hname
  | @product a rest operand _ _ hoperand _ h =>
    have hproduct := (ih.operand hoperand hq).wrap (e := between "*" e operand.expr) (errorsIn_between _ _ _) (.of_callName? rfl)
    exact hproduct.trans (ih.neighbours h hproduct.name (hproduct.keepsOrder hq))

theorem ordered_primary (h : readPrimary c (fuel + 1) closers atoms = .ok read) (hq : ∀ a ∈ atoms, a.KeepsOrder c) :
    AddsInOrder [] atoms read := by
  have none : ∀ row, AddsInOrder [] row ⟨row, missing⟩ := fun row => errorsIn_missing ▸ .refl row (.of_callName? rfl)
  cases primaryStep_of_readPrimary h with
  | nil => exact none _
  | closed _ => exact none _
  | none _ hoperand _ => exact ih.operand hoperand hq
  | operand _ hoperand _ h =>
    have hread := ih.operand hoperand hq
    exact hread.trans (ih.neighbours h hread.name (hread.keepsOrder hq))

theorem ordered_expression {least : Int} {left : Expr} (h : readExpression c (fuel + 1) closers least left atoms = .ok read)
    (hname : left.NameHasNone) (hq : ∀ a ∈ atoms, a.KeepsOrder c) : AddsInOrder (errorsIn left) atoms read := by
  cases expressionStep_of_readExpression h with
  | none => exact .refl _ hname
  | @operator a rest _ op _ right _ _ _ _ hfirst hright h =>
    have hrest : ∀ b ∈ rest, b.KeepsOrder c := fun b hb => hq b (List.mem_cons_of_mem _ hb)
    have hprimary := ih.primary hfirst hrest
    have hoperand := hprimary.trans (ih.tighter hright hprimary.name (hprimary.keepsOrder hrest))
    have hterm := (hoperand.skip (a := a)).wrap (e := between op left right.expr) (errorsIn_between _ _ _) (.of_callName? rfl)
    exact hterm.trans (ih.expression h hterm.name (hterm.keepsOrder hq))

theorem ordered_tighter {precedence : Int} {right : Expr}
    (h : readTighter c (fuel + 1) closers precedence right atoms = .ok read) (hname : right.NameHasNone)
    (hq : ∀ a ∈ atoms, a.KeepsOrder c) : AddsInOrder (errorsIn right) atoms read := by
  cases tighterStep_of_readTighter h with
  | none => exact .refl _ hname
  | tighter _ _ hoperand h =>
    have hread := ih.expression hoperand hname hq
    exact hread.trans (ih.tighter h hread.name (hread.keepsOrder hq))

/-- The error of a round of the loop is made from the atom in front. -/
theorem ordered_round (h : strayStep c fuel closers a rest = .ok read) (hq : ∀ b ∈ a :: rest, b.KeepsOrder c) :
    AddsInOrder [] (a :: rest) read := by
  cases roundStep_of_strayStep h with
  | primary hprimary _ h =>
    have hread := ih.primary hprimary hq
    exact hread.trans (ih.expression h hread.name (hread.keepsOrder hq))
  | unexpected _ _ hu h =>
    obtain ⟨placeholder, message, -, rfl⟩ := unexpected_eq_ok hu
    refine (ih.expression h (.of_callName? rfl) fun b hb => hq b (List.mem_cons_of_mem _ hb)).first fun x hx => ?_
    rw [errorsIn_unreadable, List.mem_singleton] at hx
    exact hx ▸ .unexpected hu

theorem ordered_stray (h : readStray c (fuel + 1) closers e atoms = .ok read) (hname : e.NameHasNone)
    (hq : ∀ a ∈ atoms, a.KeepsOrder c) : AddsInOrder (errorsIn e) atoms read := by
  cases loopStep_of_readStray h with
  | nil => exact .refl _ hname
  | closed _ => exact .refl _ hname
  | @round _ _ round _ _ hround h =>
    have hread := ordered_round ih hround hq
    have hboth := hread.wrap (e := juxtapose e round.expr) (errorsIn_juxtapose _ _) (hname.juxtapose hread.name)
    exact hboth.trans (ih.stray h hboth.name (hboth.keepsOrder hq))

theorem ordered_sequence (h : readSequence c (fuel + 1) closers atoms = .ok read) (hq : ∀ a ∈ atoms, a.KeepsOrder c) :
    AddsInOrder [] atoms read := by
  obtain ⟨first, behind, hfirst, hbehind, h⟩ := of_readSequence h
  have hprimary := ih.primary hfirst hq
  have hexpression := hprimary.trans (ih.expression hbehind hprimary.name (hprimary.keepsOrder hq))
  exact hexpression.trans (ih.stray h hexpression.name (hexpression.keepsOrder hq))

end

/-- One more unit of fuel keeps the errors in order. -/
theorem OrderKept.succ (ih : OrderKept c fuel) : OrderKept c (fuel + 1) where
  whole := ordered_whole ih
  nested := ordered_nested ih
  parts := ordered_parts ih
  function := ordered_function ih
  fence := ordered_fence ih
  operand := ordered_operand ih
  application := ordered_application ih
  neighbours := ordered_neighbours ih
  primary := ordered_primary ih
  expression := ordered_expression ih
  tighter := ordered_tighter ih
  stray := ordered_stray ih
  sequence := ordered_sequence ih

/-- Without fuel nothing is read. -/
theorem OrderKept.zero (c : Catalog) : OrderKept c 0 := by
  constructor <;> nofun

theorem OrderKept.all (c : Catalog) : ∀ fuel, OrderKept c fuel
  | 0 => .zero c
  | fuel + 1 => (OrderKept.all c fuel).succ

/-! ### Errors of a formula -/

/-- **Errors come in the order of the row**: those made from the first atom, or inside of it, then those of the next, and so
do the warnings.  What is asked for is that no errors are in the scripts of placeholders, of names of functions and of
symbols that are read as such. -/
theorem errors_in_row_order {row : List Atom} {e : Expr} (hq : ∀ a ∈ row, a.KeepsOrder c) (h : ofAtoms c row = .ok e) :
    ∃ parts : List (List Expr), e.errors = .ok parts.flatten ∧ e.warnings = .ok (parts.flatten.map warningOf) ∧
      List.Forall₂ (fun a part => ∀ x ∈ part, Atom.MakesError a x) row parts := by
  obtain ⟨parts, herrors, hparts⟩ := ((OrderKept.all c _).whole h hq).parts
  have hwalk : e.errors = .ok parts.flatten := by rw [errors_eq (traced_ofAtoms h).walkable, herrors]
  refine ⟨parts, hwalk, ?_, hparts⟩
  rw [warnings, hwalk]
  rfl

/-- In `sin x^, ;` the comma, which is inside of the second atom, comes before the semicolon. -/
theorem errors_in_row_order_sine :
    let mark (s : String) : Atom := { type := .punctuation, value := .text s }
    let row : List Atom := [{ type := .operator, value := .text "\\sin" },
      { type := .ordinary, value := .text "x", superscript := some [mark ","] }, mark ";"]
    ∃ e, ofAtoms .builtin row = .ok e ∧ (∀ a ∈ row, a.KeepsOrder .builtin) ∧
      errorsIn e = [unreadable "," "unexpected token mpunct/,", unreadable ";" "unexpected token mpunct/;"] ∧
      ∃ parts : List (List Expr), e.errors = .ok parts.flatten ∧ e.warnings = .ok (parts.flatten.map warningOf) ∧
        List.Forall₂ (fun a part => ∀ x ∈ part, Atom.MakesError a x) row parts := by
  intro mark row
  have bare : ∀ a : Atom, a.superscript = none → a.subscript = none → a.KeepsOrder .builtin := fun a hs ht _ r hr => by
    rcases hr with hr | hr
    · rw [hs] at hr
      cases hr
    · rw [ht] at hr
      cases hr
  have hquiet : ∀ a ∈ row, a.KeepsOrder .builtin := by
    intro a ha
    simp only [row, List.mem_cons, List.not_mem_nil, or_false] at ha
    rcases ha with rfl | rfl | rfl
    · exact bare _ rfl rfl
    · -- The superscript holds an error, and `x` is no name of a function.
      rintro (h | h | ⟨e, he, hname⟩)
      · cases h
      · exact absurd h (by decide +kernel)
      · have hsymbol : ofSingle .builtin row[1] = .ok (ofSymbol "x" .null) := rfl
        cases hsymbol.symm.trans he
        cases hname
    · exact bare _ rfl rfl
  have he : ofAtoms .builtin row = .ok (between "*"
      (apply "sin" (symbol "x" .null (unreadable "," "unexpected token mpunct/,") missing))
      (unreadable ";" "unexpected token mpunct/;")) := rfl
  exact ⟨_, he, hquiet, by simp [errorsIn], errors_in_row_order hquiet he⟩

/-- A punctuation mark without scripts makes just the error of its text. -/
theorem makesError_punctuation {s : String} {x : Expr} (h : Atom.MakesError { type := .punctuation, value := .text s } x) :
    ∃ message, x = unreadable (.text s) message := by
  cases h with
  | unexpected h =>
    obtain ⟨_, _, htext, rfl⟩ := unexpected_eq_ok h
    cases htext
    exact ⟨_, rfl⟩
  | placeholder h => cases h
  | inside hfield hb _ =>
    simp only [Atom.fields, List.mem_cons, List.not_mem_nil, or_false, or_self] at hfield
    subst hfield
    cases hb

/-- In `sin^, ;` the semicolon comes first: it is the argument, and scripts are behind that. -/
theorem scripts_behind_argument :
    let mark (s : String) : Atom := { type := .punctuation, value := .text s }
    let row : List Atom := [{ type := .operator, value := .text "\\sin", superscript := some [mark ","] }, mark ";"]
    ∃ e, ofAtoms .builtin row = .ok e ∧
      e.errors = .ok [unreadable ";" "unexpected token mpunct/;", unreadable "," "unexpected token mpunct/,"] ∧
      ¬ ∃ parts : List (List Expr), e.errors = .ok parts.flatten ∧
        List.Forall₂ (fun a part => ∀ x ∈ part, Atom.MakesError a x) row parts := by
  intro mark row
  have he : ofAtoms .builtin row = .ok (Expr.call "sin" (unreadable ";" "unexpected token mpunct/;") parentheses
      (unreadable "," "unexpected token mpunct/,") missing) := rfl
  have herrors := errors_eq (traced_ofAtoms he).walkable
  simp only [errorsIn, errorsIn_unreadable, List.append_nil, List.singleton_append] at herrors
  refine ⟨_, he, herrors, ?_⟩
  rintro ⟨parts, hflat, hparts⟩
  rw [herrors] at hflat
  obtain ⟨inName, _, hname, hrest, rfl⟩ := List.forall₂_cons_left_iff.mp hparts
  obtain ⟨inMark, _, hmark, hnone, rfl⟩ := List.forall₂_cons_left_iff.mp hrest
  cases hnone
  -- Either the comma is made from the semicolon, or the semicolon from the name.
  cases inName with
  | nil =>
    obtain rfl : _ = inMark := by simpa using hflat
    obtain ⟨_, h⟩ := makesError_punctuation (hmark (unreadable "," "unexpected token mpunct/,") (by simp))
    simp [unreadable] at h
  | cons x behind =>
    obtain ⟨rfl, -⟩ := List.cons.inj (Except.ok.inj hflat)
    generalize hx : unreadable ";" "unexpected token mpunct/;" = x at hname
    cases hname x (by simp) with
    | unexpected h =>
      obtain ⟨_, _, htext, rfl⟩ := unexpected_eq_ok h
      cases htext
      simp [unreadable] at hx
    | placeholder h => cases h
    | inside hfield hb h =>
      simp only [Atom.fields, List.mem_cons, List.not_mem_nil, or_false, or_self] at hfield
      rcases hfield with rfl | rfl
      · obtain rfl := List.mem_singleton.mp hb
        obtain ⟨_, rfl⟩ := makesError_punctuation h
        simp [unreadable] at hx
      · cases hb

end Formula
