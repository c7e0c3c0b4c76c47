import Formula.Proofs.Reader.Carrying

/-!
# No letter that is carried over is lost

`KeepsLetters` says of every function of the reader that what it reads is carried over.  It holds of a reader that has run
out of fuel, and one more unit of fuel keeps it: there is one lemma for every function, by cases on its steps.
-/

namespace Formula

open Atom Expr Outcome

/-- The types of atoms that are operands of their own. -/
def Atom.markedTypes : List AtomType := [.fraction, .radical, .font, .text, .ordinary, .textual]

/-- The letters that are kept by the functions of the reader with the fuel. -/
structure KeepsLetters (c : Catalog) (x : Char) (fuel : Nat) : Prop where
  whole : ∀ {atoms e}, Expr.ofSequence c fuel atoms = .ok e → carriedLetters c x atoms ≤ e.occurrences x
  nested : ∀ {field e}, ofNested c fuel field = .ok e → fieldCarried c x field ≤ e.occurrences x
  parts : ∀ {parts items}, ofParts c fuel parts = .ok items →
    (parts.map fun part => fieldCarried c x (some part)).sum ≤ occurrencesIn x items
  atom : ∀ {a e}, ofAtom c fuel a = .ok e → a.type ∈ markedTypes → a.own x + a.innerLetters c x ≤ e.occurrences x
  attached : ∀ {a e e'}, attachScripts c fuel a e = .ok e' → e.occurrences x + a.scriptLetters c x ≤ e'.occurrences x
  scripts : ∀ {plain closers own e atoms read}, readScripts c fuel own e atoms = .ok read → Stands plain closers atoms →
    CarriesOver c x plain closers (e.occurrences x + (own.map (scriptLetters c x)).getD 0) atoms read
  marks : ∀ {plain closers e atoms read}, readPostfix c fuel e atoms = .ok read → Stands plain closers atoms →
    CarriesOver c x plain closers (e.occurrences x) atoms read
  marked : ∀ {plain closers a rest read}, readMarked c fuel a rest = .ok read → a.type ∈ markedTypes →
    Stands plain closers rest → CarriesOver c x plain closers 0 (a :: rest) read
  symbol : ∀ {plain closers a rest read}, readSymbol c fuel a rest = .ok read → Stands plain closers (a :: rest) →
    a.closesAny closers = .ok false → a.opener? = .ok none → a.type ∉ [.fraction, .radical, .font, .text, .fenced] →
      (a.type = .operator → a.isFunction c ≠ .ok true) → CarriesOver c x plain closers 0 (a :: rest) read
  mixed : ∀ {plain closers literal numeral read}, readMixed c fuel literal numeral = .ok (some read) →
    Stands plain closers numeral.rest →
      CarriesOver c x plain closers ((numeral.last.map (scriptLetters c x)).getD 0) numeral.rest read
  number : ∀ {plain closers a rest read}, readNumber c fuel a rest = .ok read → a.type = .ordinary →
    Stands plain closers (a :: rest) → CarriesOver c x plain closers 0 (a :: rest) read
  function : ∀ {plain closers a rest read}, readFunction c fuel closers a rest = .ok read → a.isFunction c = .ok true →
    a.type ∉ [.fraction, .radical, .font, .text, .fenced] → Stands plain closers rest →
      CarriesOver c x plain closers 0 (a :: rest) read
  closing : ∀ {plain closers left closer inner atoms read}, readClosing c fuel left closer inner atoms = .ok read →
    closer.type ∈ [.closing, .textual, .sized] → Stands plain (closers ++ [closer]) atoms →
      StopsAt (closers ++ [closer]) atoms → CarriesOver c x plain closers (inner.occurrences x) atoms read
  fence : ∀ {plain closers a rest read}, readFence c fuel closers a rest = .ok read →
    a.type ∈ [.fenced, .opening, .textual, .sized] → Stands plain closers (a :: rest) → a.closesAny closers = .ok false →
      CarriesOver c x plain closers 0 (a :: rest) read
  operand : ∀ {plain closers a rest read}, readOperand c fuel closers a rest = .ok read → Stands plain closers (a :: rest) →
    a.closesAny closers = .ok false → CarriesOver c x plain closers 0 (a :: rest) read
  application : ∀ {plain closers e atoms read}, readCall c fuel e atoms = .ok (some read) → Stands plain closers atoms →
    CarriesOver c x plain closers (e.occurrences x) atoms read
  neighbours : ∀ {plain closers e atoms read}, readNeighbours c fuel closers e atoms = .ok read →
    Stands plain closers atoms → CarriesOver c x plain closers (e.occurrences x) atoms read
  primary : ∀ {plain closers atoms read}, readPrimary c fuel closers atoms = .ok read → Stands plain closers atoms →
    CarriesOver c x plain closers 0 atoms read
  expression : ∀ {plain closers least left atoms read}, readExpression c fuel closers least left atoms = .ok read →
    Stands plain closers atoms → CarriesOver c x plain closers (left.occurrences x) atoms read
  tighter : ∀ {plain closers precedence right atoms read},
    readTighter c fuel closers precedence right atoms = .ok read → Stands plain closers atoms →
      CarriesOver c x plain closers (right.occurrences x) atoms read
  stray : ∀ {plain closers e atoms read}, readStray c fuel closers e atoms = .ok read → Stands plain closers atoms →
    CarriesOver c x plain closers (e.occurrences x) atoms read
  sequence : ∀ {plain closers atoms read}, readSequence c fuel closers atoms = .ok read → Stands plain closers atoms →
    CarriesOver c x plain closers 0 atoms read

section

variable {c : Catalog} {x : Char} {fuel : Nat} {plain : Bool} {closers : List Closer} {a : Atom} {rest atoms : List Atom}
  {e e' : Expr} {read : Reading}

/-! ### Sequences and atoms on their own -/

section

variable (ih : KeepsLetters c x fuel)
include ih

theorem keeps_whole (h : Expr.ofSequence c (fuel + 1) atoms = .ok e) : carriedLetters c x atoms ≤ e.occurrences x := by
  obtain ⟨read, hread, rfl⟩ := of_ofSequence h
  have hstands : Stands (fencesPair [] (unspaced atoms)) [] (unspaced atoms) :=
    fun hp => ⟨fun k hk => absurd hk List.not_mem_nil, hp⟩
  have hbound := (ih.sequence hread hstands).bound
  have hend : read.rest = [] := ((Forward.all c fuel).sequence hread).2.nil_of_no_closers
  rw [hend, rowCarried_unspaced, Nat.zero_add] at hbound
  exact hbound

theorem keeps_nested {field : Option (List Atom)} (h : ofNested c (fuel + 1) field = .ok e) :
    fieldCarried c x field ≤ e.occurrences x := by
  cases nestedStep_of_ofNested h with
  | none | nil => exact Nat.le_refl _
  | whole h => exact ih.whole h

theorem keeps_parts {parts : List (List Atom)} {items : List Expr} (h : ofParts c (fuel + 1) parts = .ok items) :
    (parts.map fun part => fieldCarried c x (some part)).sum ≤ occurrencesIn x items := by
  cases partsStep_of_ofParts h with
  | nil => exact Nat.le_refl _
  | cons he hmore =>
    rw [List.map_cons, List.sum_cons, occurrencesIn_cons]
    exact Nat.add_le_add (ih.nested he) (ih.parts hmore)

theorem keeps_field {field : Option (List Atom)} (h : Expr.ofSequence c fuel (field.getD []) = .ok e) :
    fieldCarried c x field ≤ e.occurrences x := by
  cases field with
  | none => exact Nat.zero_le _
  | some row => exact ih.whole h

theorem keeps_atom (L : LetterOf c x) (h : ofAtom c (fuel + 1) a = .ok e) (ht : a.type ∈ markedTypes) :
    a.own x + a.innerLetters c x ≤ e.occurrences x := by
  -- Of what is inside of an atom nothing is due if it is spelled like a half of a digraph.
  have inner : ∀ {n : Nat}, a.type ≠ .ordinary → (a.isHalf = false → a.innerLetters c x ≤ n) →
      a.own x + a.innerLetters c x ≤ n := by
    intro n ho hn
    rw [own_of_type ho, Nat.zero_add]
    cases hhalf : a.isHalf with
    | true =>
      rw [innerLetters_of_half hhalf]
      exact Nat.zero_le _
    | false => exact hn hhalf
  cases atomStep_of_ofAtom h with
  | fraction ht hn hd =>
    refine inner (by rw [ht]; decide) fun hhalf => ?_
    rw [innerLetters, hhalf, ht, occurrences_quotient]
    exact Nat.add_le_add (keeps_field ih hn) (keeps_field ih hd)
  | squareRoot ht hr hi hmissing =>
    refine inner (by rw [ht]; decide) fun hhalf => ?_
    rw [innerLetters, hhalf, ht]
    refine Nat.le_trans (Nat.add_le_add (keeps_field ih hr) (keeps_field ih hi)) ?_
    rw [occurrences_of_isMissing hmissing, occurrences_squareRoot, Nat.add_zero]
  | root ht hr hi _ =>
    refine inner (by rw [ht]; decide) fun hhalf => ?_
    rw [innerLetters, hhalf, ht]
    refine Nat.le_trans (Nat.add_le_add (keeps_field ih hr) (keeps_field ih hi)) ?_
    simp
  | font ht h => exact inner (by rw [ht]; decide) fun _ => innerLetters_le_inFont ht h
  | text ht h => exact inner (by rw [ht]; decide) fun _ => innerLetters_le_asText ht h
  | symbol ht h =>
    rw [innerLetters_of_type (by revert ht; cases a.type <;> decide), Nat.add_zero]
    exact own_le_symbol L h
  | other hno => exact absurd ht hno

theorem keeps_attached (h : attachScripts c (fuel + 1) a e = .ok e') :
    e.occurrences x + a.scriptLetters c x ≤ e'.occurrences x := by
  obtain ⟨sup, sub, hsup, hsub, rfl⟩ := of_attachScripts h
  rw [occurrences_attach, scriptLetters]
  have := ih.nested hsup
  have := ih.nested hsub
  omega

/-! ### Operands -/

theorem keeps_scripts {own : Option Atom} (h : readScripts c (fuel + 1) own e atoms = .ok read)
    (hs : Stands plain closers atoms) :
    CarriesOver c x plain closers (e.occurrences x + (own.map (scriptLetters c x)).getD 0) atoms read := by
  obtain ⟨e', hscripts, hread⟩ := of_readScripts h
  have he' : e.occurrences x + (own.map (scriptLetters c x)).getD 0 ≤ e'.occurrences x := by
    rcases hscripts with ⟨rfl, hbare⟩ | ⟨a, rfl, he'⟩
    · cases own with
      | none => exact Nat.le_refl _
      | some a => exact Nat.le_of_eq (by rw [Option.map_some, Option.getD_some, scriptLetters_of_bare (hbare a rfl), Nat.add_zero])
    · exact ih.attached he'
  rcases hread with rfl | ⟨a, rest, rfl, hplaceholder, h⟩
  · exact .refl hs he'
  · have ht := type_of_isPlaceholder hplaceholder
    refine (ih.scripts h (hs.tail_of_type (by rw [ht]; decide))).cons ?_
    have hcarried := carried_le (c := c) (x := x) (a := a) plain
    rw [own_of_isPlaceholder hplaceholder, innerLetters_of_type (by rw [ht]; decide)] at hcarried
    rw [Option.map_some, Option.getD_some] at *
    omega

/-- Scripts and marks behind an expression. -/
theorem keeps_behind (h : ReadsBehind c fuel (some a) e atoms read) (hs : Stands plain closers atoms) :
    CarriesOver c x plain closers (e.occurrences x + a.scriptLetters c x) atoms read := by
  obtain ⟨scripted, hscripted, hmarks⟩ := h
  have hscripts := ih.scripts hscripted hs
  exact hscripts.trans (ih.marks hmarks hscripts.stands)

theorem keeps_marks (L : LetterOf c x) (h : readPostfix c (fuel + 1) e atoms = .ok read) (hs : Stands plain closers atoms) :
    CarriesOver c x plain closers (e.occurrences x) atoms read := by
  cases marksStep_of_readPostfix h with
  | none => exact .refl hs (Nat.le_refl _)
  | digraph hfound h =>
    -- The first half of a digraph has no scripts, and those of the second half are read.
    obtain ⟨b, behind, heq, ha, hbare, hb, -⟩ := of_startsWithDigraph? hfound
    cases heq
    have hread := keeps_behind ih h ((hs.tail_of_half ha).tail_of_half hb)
    exact (hread.cons (Nat.add_le_add_left (carried_le_of_half L hb) _)).skip (carried_of_half L ha hbare)
  | mark hmark h =>
    have ht := type_of_postfixFunction? hmark
    have hread := keeps_behind ih h (hs.tail_of_mark hmark)
    exact hread.cons (Nat.add_le_add_left (carried_le_of_delimiter (by simp [ht])) _)

theorem keeps_marked (h : readMarked c (fuel + 1) a rest = .ok read) (ht : a.type ∈ markedTypes)
    (hs : Stands plain closers rest) : CarriesOver c x plain closers 0 (a :: rest) read := by
  obtain ⟨e, he, h⟩ := of_readMarked h
  refine (keeps_behind ih h hs).cons ?_
  have := carried_le (c := c) (x := x) (a := a) plain
  have := ih.atom he ht
  omega

theorem keeps_symbol (h : readSymbol c (fuel + 1) a rest = .ok read) (hs : Stands plain closers (a :: rest))
    (hclosed : a.closesAny closers = .ok false) (hopener : a.opener? = .ok none)
    (ht : a.type ∉ [.fraction, .radical, .font, .text, .fenced]) (hf : a.type = .operator → a.isFunction c ≠ .ok true) :
    CarriesOver c x plain closers 0 (a :: rest) read := by
  obtain ⟨htail, hplain⟩ := hs.tail_of_open hclosed hopener
  cases symbolStep_of_readSymbol h with
  | operator _ => exact .refl hs (Nat.zero_le _)
  | symbol _ hsymbol h => exact ih.marked h (List.mem_append_right [AtomType.fraction, .radical, .font, .text] hsymbol) htail
  | unexpected _ hno _ =>
    -- An atom that fits no rule carries nothing over.
    have hlost : a.carriesScripts c plain = false := by
      have hfunction : a.type = .operator → ((a.isFunction c).toOption == some true) = false := fun ht => by
        rw [beq_eq_false_iff_ne]
        exact fun hsome => hf ht (eq_ok_of_toOption hsome)
      have hdelimiter : a.type = .closing ∨ a.type = .sized → plain = false := fun ht => by
        refine Bool.eq_false_iff.mpr fun hp => hplain hp ?_
        rcases ht with ht | ht <;> simp [ht]
      unfold carriesScripts
      rw [Bool.and_eq_false_iff]
      right
      cases htype : a.type <;> simp_all
    refine (CarriesOver.refl htail (Nat.zero_le _)).cons ?_
    rw [carried_of_lost hlost, own_of_type fun h => hno (by simp [h]), innerLetters_of_type ht]

theorem keeps_mixed {literal : Expr} {numeral : NumeralReading}
    (h : readMixed c (fuel + 1) literal numeral = .ok (some read)) (hs : Stands plain closers numeral.rest) :
    CarriesOver c x plain closers ((numeral.last.map (scriptLetters c x)).getD 0) numeral.rest read := by
  obtain ⟨following, rest, fraction, behind, hrest, ht, hbare, hfraction, hbehind, rfl⟩ := of_readMixed h
  rw [hrest] at hs ⊢
  -- The numeral has no scripts, and those of the fraction stay there.
  have hlast : (numeral.last.map (scriptLetters c x)).getD 0 = 0 := by
    cases hl : numeral.last with
    | none => rfl
    | some a =>
      rw [hl] at hbare
      exact scriptLetters_of_bare hbare
  have hread := keeps_behind ih hbehind (hs.tail_of_type (by rw [ht]; decide))
  have hinner := ih.atom hfraction (by simp [ht, markedTypes])
  have hcarried := carried_le (c := c) (x := x) (a := following) plain
  rw [hlast]
  refine (hread.cons (m := 0) (by omega)).wrap ?_
  rw [occurrences_between]
  omega

theorem keeps_number (L : LetterOf c x) (h : readNumber c (fuel + 1) a rest = .ok read) (ht : a.type = .ordinary)
    (hs : Stands plain closers (a :: rest)) : CarriesOver c x plain closers 0 (a :: rest) read := by
  cases numberStep_of_readNumber h with
  | symbol h => exact ih.marked h (by simp [ht, markedTypes]) (hs.tail_of_type (by rw [ht]; decide))
  | mixed hscan _ _ _ h =>
    obtain ⟨hstands, hbound⟩ := scanNumeralFrom_carried L hscan hs
    exact (ih.mixed h hstands).before (by omega)
  | plain hscan hlast _ _ h =>
    obtain ⟨hstands, hbound⟩ := scanNumeralFrom_carried L hscan hs
    rw [hlast] at hbound
    exact (keeps_behind ih h hstands).before (by rw [Option.map_some, Option.getD_some] at hbound; omega)

theorem keeps_function (L : LetterOf c x) (h : readFunction c (fuel + 1) closers a rest = .ok read)
    (hf : a.isFunction c = .ok true) (ht : a.type ∉ [.fraction, .radical, .font, .text, .fenced])
    (hs : Stands plain closers rest) : CarriesOver c x plain closers 0 (a :: rest) read := by
  have scripted : ∀ {name : Datum} {head : Reading}, readScripts c fuel (some a) (apply name missing) rest = .ok head →
      CarriesOver c x plain closers 0 (a :: rest) head := by
    intro name head hhead
    refine (ih.scripts hhead hs).cons ?_
    have := carried_le (c := c) (x := x) (a := a) plain
    rw [own_of_isFunction L hf, innerLetters_of_type ht] at this
    rw [Option.map_some, Option.getD_some]
    omega
  -- What is read behind the head is put into it.
  cases functionStep_of_readFunction h with
  | @call name _ _ head argument _ _ _ e _ hhead hargument heq he =>
    have hscripts := scripted hhead
    refine hscripts.trans ((ih.primary hargument hscripts.stands).wrap ?_)
    rw [occurrences_applyInverse he, heq, occurrences_call, occurrences_call,
      readScripts_unapplied hhead (unapplied_apply_missing name) _ _ _ _ _ heq, occurrences_missing]
    omega
  | product _ hhead hargument =>
    have hscripts := scripted hhead
    exact hscripts.trans ((ih.primary hargument hscripts.stands).wrap (Nat.le_of_eq (occurrences_juxtapose _ _).symm))

theorem keeps_closing {left : Datum} {closer : Closer} {inner : Expr}
    (h : readClosing c (fuel + 1) left closer inner atoms = .ok read) (ht : closer.type ∈ [.closing, .textual, .sized])
    (hs : Stands plain (closers ++ [closer]) atoms) (hstops : StopsAt (closers ++ [closer]) atoms) :
    CarriesOver c x plain closers (inner.occurrences x) atoms read := by
  cases closingStep_of_readClosing h with
  | unclosed he h hopen =>
    -- Where the fences of the row pair, this one is closed.
    cases plain with
    | true =>
      obtain ⟨a, rest, rfl, hcloses⟩ := hs.closed hstops rfl
      rw [hopen a rfl] at hcloses
      cases hcloses
    | false =>
      refine (ih.scripts h (.loose _ _)).mono ?_
      rw [occurrences_delimited he]
      exact Nat.le_refl _
  | closed hcloses he h =>
    have htype := type_of_shuts (shuts_iff.mpr hcloses)
    refine (ih.scripts h (hs.pop hcloses)).cons ?_
    rw [occurrences_delimited he, Option.map_some, Option.getD_some]
    exact Nat.add_le_add_left (carried_le_of_delimiter (htype ▸ ht)) _

theorem keeps_fence (h : readFence c (fuel + 1) closers a rest = .ok read)
    (ht : a.type ∈ [.fenced, .opening, .textual, .sized]) (hs : Stands plain closers (a :: rest))
    (hclosed : a.closesAny closers = .ok false) : CarriesOver c x plain closers 0 (a :: rest) read := by
  cases fenceStep_of_readFence h with
  | fenced hfenced hinner he h =>
    refine (keeps_behind ih h (hs.tail_of_type (by rw [hfenced]; decide))).cons ?_
    have hbody := ih.nested hinner
    have hcarried := carried_le (c := c) (x := x) (a := a) plain
    have hletters := innerLetters_le_body (c := c) (x := x) hfenced
    rw [own_of_type (by rw [hfenced]; decide)] at hcarried
    rw [occurrences_delimited he]
    omega
  | symbol hfenced hopener h =>
    refine ih.symbol h hs hclosed hopener ?_ fun ho => ?_
    · simp only [List.mem_cons, List.not_mem_nil, or_false] at ht ⊢
      rcases ht with ht | ht | ht | ht <;> simp_all
    · rw [ho] at ht
      exact absurd ht (by decide)
  | opened hopener hinner hclosing h =>
    obtain ⟨hinside, hbare⟩ := hs.push (fun k hk _ => not_shuts_of_closesAny hclosed k hk) hopener
    have hsequence := ih.sequence hinner hinside
    have hfence := ih.closing hclosing (isCloser_of_opener? hopener).1 hsequence.stands ((Forward.all c fuel).sequence hinner).2
    exact ((hsequence.trans hfence).trans (ih.marks h hfence.stands)).skip (carried_of_opener hopener hbare)

theorem keeps_operand (L : LetterOf c x) (h : readOperand c (fuel + 1) closers a rest = .ok read)
    (hs : Stands plain closers (a :: rest)) (hclosed : a.closesAny closers = .ok false) :
    CarriesOver c x plain closers 0 (a :: rest) read := by
  cases operandStep_of_readOperand h with
  | digraph hfound hread =>
    obtain ⟨b, behind, heq, ha, hbare, hb, hends⟩ := of_startsWithDigraph? hfound
    cases heq
    have hread := ih.primary hread ((hs.tail_of_half ha).tail_of_half hb)
    exact ((hread.skip (carried_of_endsPrefix L (hends rfl))).skip (carried_of_half L ha hbare)).wrap
      (Nat.le_of_eq (Nat.zero_add _))
  | sign hsign hread =>
    have ht := type_of_sign? hsign
    have hread := ih.primary hread (hs.tail_of_type (by rw [ht]; decide))
    refine (hread.skip (a := a) (carried_of_type (by simp [ht]))).wrap ?_
    rw [occurrences_withSign, Nat.zero_add]
  | placeholder hplaceholder h =>
    have ht := type_of_isPlaceholder hplaceholder
    refine (ih.scripts h (hs.tail_of_type (by rw [ht]; decide))).cons ?_
    have hcarried := carried_le (c := c) (x := x) (a := a) plain
    rw [own_of_isPlaceholder hplaceholder, innerLetters_of_type (by rw [ht]; decide)] at hcarried
    rw [Option.map_some, Option.getD_some]
    omega
  | number hstarts h => exact ih.number h (type_of_startsNumber hstarts) hs
  | marked ht h =>
    have htail := hs.tail_of_type (a := a) (by revert ht; cases a.type <;> decide)
    exact ih.marked h (List.mem_append_left [AtomType.ordinary, .textual] ht) htail
  | fence ht h => exact ih.fence h ht hs hclosed
  | function ht hf h =>
    have hno : a.type ∉ [.fraction, .radical, .font, .text, .fenced] := by revert ht; cases a.type <;> decide
    exact ih.function h hf hno (hs.tail_of_function L (by revert ht; cases a.type <;> decide) hf)
  | symbol ht hf hopener h => exact ih.symbol h hs hclosed hopener ht fun ho h' => by cases (hf ho).symm.trans h'

/-! ### What stands around an operand -/

theorem keeps_application (L : LetterOf c x) (h : readCall c (fuel + 1) e atoms = .ok (some read))
    (hs : Stands plain closers atoms) : CarriesOver c x plain closers (e.occurrences x) atoms read := by
  obtain ⟨name, variant, s, t, inner, last, rest, parts, items, rfl, hcall, hfound, hparts, hitems, hbehind⟩ :=
    of_readCall h
  have hname := occurrences_of_callName? L hcall
  have hitems := ih.parts hitems
  obtain ⟨hrest, hrow⟩ := callArguments?_carried (c := c) (x := x) hs hfound hparts
  refine (keeps_behind ih hbehind hrest).before ?_
  rw [occurrences_call, occurrences_argumentsOf, occurrences_symbol, hname]
  omega

theorem keeps_neighbours (h : readNeighbours c (fuel + 1) closers e atoms = .ok read) (hs : Stands plain closers atoms) :
    CarriesOver c x plain closers (e.occurrences x) atoms read := by
  cases neighboursStep_of_readNeighbours h with
  | none => exact .refl hs (Nat.le_refl _)
  | call _ hcall h =>
    have hcall := ih.application hcall hs
    exact hcall.trans (ih.neighbours h hcall.stands)
  | stopped _ hoperand hstopped =>
    obtain rfl := ((Forward.all c fuel).operand hoperand).eq_of_stopped hstopped
    exact .refl hs (Nat.le_refl _)
  | @product a rest operand _ hstarts hoperand _ h =>
    have hread := ih.operand hoperand hs (open_of_startsOperand hstarts)
    have hproduct := hread.wrap (e := between "*" e operand.expr) (m := e.occurrences x) (by rw [occurrences_between])
    exact hproduct.trans (ih.neighbours h hproduct.stands)

theorem keeps_primary (h : readPrimary c (fuel + 1) closers atoms = .ok read) (hs : Stands plain closers atoms) :
    CarriesOver c x plain closers 0 atoms read := by
  cases primaryStep_of_readPrimary h with
  | nil => exact .refl hs (Nat.zero_le _)
  | closed _ => exact .refl hs (Nat.zero_le _)
  | none hclosed hoperand _ => exact ih.operand hoperand hs hclosed
  | operand hclosed hoperand _ h =>
    have hread := ih.operand hoperand hs hclosed
    exact hread.trans (ih.neighbours h hread.stands)

theorem keeps_expression (L : LetterOf c x) {least : Int} {left : Expr}
    (h : readExpression c (fuel + 1) closers least left atoms = .ok read) (hs : Stands plain closers atoms) :
    CarriesOver c x plain closers (left.occurrences x) atoms read := by
  cases expressionStep_of_readExpression h with
  | none => exact .refl hs (Nat.le_refl _)
  | @operator _ _ _ op _ right _ hprecedence _ _ hfirst hright h =>
    have hprimary := ih.primary hfirst (hs.tail_of_operator L hprecedence)
    have hoperand := hprimary.trans (ih.tighter hright hprimary.stands)
    have hterm := (hoperand.skip (carried_of_operator L hprecedence)).wrap
      (e := between op left right.expr) (m := left.occurrences x) (by rw [occurrences_between])
    exact hterm.trans (ih.expression h hterm.stands)

theorem keeps_tighter {precedence : Int} {right : Expr}
    (h : readTighter c (fuel + 1) closers precedence right atoms = .ok read) (hs : Stands plain closers atoms) :
    CarriesOver c x plain closers (right.occurrences x) atoms read := by
  cases tighterStep_of_readTighter h with
  | none => exact .refl hs (Nat.le_refl _)
  | tighter _ _ hoperand h =>
    have hread := ih.expression hoperand hs
    exact hread.trans (ih.tighter h hread.stands)

/-- The error of a round of the loop stands for an operator. -/
theorem keeps_round (L : LetterOf c x) (h : strayStep c fuel closers a rest = .ok read)
    (hs : Stands plain closers (a :: rest)) (hclosed : a.closesAny closers = .ok false) :
    CarriesOver c x plain closers 0 (a :: rest) read := by
  cases roundStep_of_strayStep h with
  | primary hprimary _ h =>
    have hread := ih.primary hprimary hs
    exact hread.trans (ih.expression h hread.stands)
  | unexpected hprimary hlength _ h =>
    have hread := (Forward.all c fuel).primary hprimary
    have hmissing := hread.test.mp hlength
    obtain ⟨-, -, -, -, hfound⟩ | ⟨-, hwhy⟩ := hread
    · rw [hfound] at hmissing
      cases hmissing
    · obtain hcloses | ⟨p, hp⟩ := hwhy a rfl
      · cases hclosed.symm.trans hcloses
      · exact ((ih.expression h (hs.tail_of_operator L hp)).mono (Nat.zero_le _)).skip (carried_of_operator L hp)

theorem keeps_stray (L : LetterOf c x) (h : readStray c (fuel + 1) closers e atoms = .ok read)
    (hs : Stands plain closers atoms) : CarriesOver c x plain closers (e.occurrences x) atoms read := by
  cases loopStep_of_readStray h with
  | nil => exact .refl hs (Nat.le_refl _)
  | closed _ => exact .refl hs (Nat.le_refl _)
  | @round _ _ round _ hclosed hround h =>
    have hread := (keeps_round ih L hround hs hclosed).wrap (e := juxtapose e round.expr) (m := e.occurrences x)
      (by rw [occurrences_juxtapose])
    exact hread.trans (ih.stray h hread.stands)

theorem keeps_sequence (h : readSequence c (fuel + 1) closers atoms = .ok read) (hs : Stands plain closers atoms) :
    CarriesOver c x plain closers 0 atoms read := by
  obtain ⟨first, behind, hfirst, hbehind, h⟩ := of_readSequence h
  have hprimary := ih.primary hfirst hs
  have hexpression := hprimary.trans (ih.expression hbehind hprimary.stands)
  exact hexpression.trans (ih.stray h hexpression.stands)

end

end

/-- One more unit of fuel keeps all letters. -/
theorem KeepsLetters.succ {c : Catalog} {x : Char} {fuel : Nat} (L : LetterOf c x) (ih : KeepsLetters c x fuel) :
    KeepsLetters c x (fuel + 1) where
  whole := keeps_whole ih
  nested := keeps_nested ih
  parts := keeps_parts ih
  atom := keeps_atom ih L
  attached := keeps_attached ih
  scripts := keeps_scripts ih
  marks := keeps_marks ih L
  marked := keeps_marked ih
  symbol := keeps_symbol ih
  mixed := keeps_mixed ih
  number := keeps_number ih L
  function := keeps_function ih L
  closing := keeps_closing ih
  fence := keeps_fence ih
  operand := keeps_operand ih L
  application := keeps_application ih L
  neighbours := keeps_neighbours ih
  primary := keeps_primary ih
  expression := keeps_expression ih L
  tighter := keeps_tighter ih
  stray := keeps_stray ih L
  sequence := keeps_sequence ih

/-- Without fuel nothing is read. -/
theorem KeepsLetters.zero (c : Catalog) (x : Char) : KeepsLetters c x 0 := by
  constructor <;> nofun

theorem KeepsLetters.all {c : Catalog} {x : Char} (L : LetterOf c x) : ∀ fuel, KeepsLetters c x fuel
  | 0 => .zero c x
  | fuel + 1 => (KeepsLetters.all L fuel).succ L

/-! ### Operands of a formula -/

/-- **No operand that is carried over is lost**: a letter occurs in the tree of a row at least as often as there are
ordinary atoms in the row that are spelled by it, at any depth, and stand where the reader carries them over.  The letters
of exponents and of calls are not asked for. -/
theorem carriedLetters_le_occurrences {x : Char} (hx : x.isAlpha = true) (hne : x ∉ ['e', 'E', 'd', 'D', 'f', 'g'])
    {row : List Atom} {e : Expr} (h : ofAtoms .builtin row = .ok e) : carriedLetters .builtin x row ≤ e.occurrences x :=
  (KeepsLetters.all (letterOf_builtin hx hne) _).whole h

/-- In `(x)^n + n/y` both `n` are kept. -/
theorem carriedLetters_le_occurrences_sum :
    let mark (type : AtomType) (s : String) : Atom := { type, value := .text s }
    let letter := mark .ordinary
    let row := [mark .opening "(", letter "x", { mark .closing ")" with superscript := some [letter "n"] }, mark .binary "+",
      { type := .fraction, numerator := some [letter "n"], denominator := some [letter "y"] }]
    ∃ e, ofAtoms .builtin row = .ok e ∧ rowLetters 'n' row = 2 ∧ carriedLetters .builtin 'n' row = 2 ∧
      2 ≤ e.occurrences 'n' := by
  intro mark letter row
  have hcarried : carriedLetters .builtin 'n' row = 2 := by decide +kernel
  have hread : ∃ e, ofAtoms .builtin row = .ok e := ⟨_, rfl⟩
  obtain ⟨e, he⟩ := hread
  exact ⟨e, he, by decide +kernel, hcarried, hcarried ▸ carriedLetters_le_occurrences (by decide) (by decide) he⟩

/-- A font has a name and no scripts inside: of `x^n` in bold there is a bold `x` alone. -/
theorem rowLetters_lost_in_font :
    let letter (s : String) : Atom := { type := .ordinary, value := .text s }
    let power : Atom := { letter "x" with superscript := some [letter "n"] }
    let row : List Atom := [{ type := .font, latex := .text "\\mathbf", body := some [power], font := .text "mathbf" }]
    ofAtoms .builtin row = .ok (ofSymbol "x" "bold") ∧ (ofSymbol "x" "bold").occurrences 'n' = 0 ∧ rowLetters 'n' row = 1 :=
  ⟨rfl, by decide +kernel, by decide +kernel⟩

end Formula
