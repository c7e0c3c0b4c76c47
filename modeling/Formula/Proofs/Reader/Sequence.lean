import Formula.Proofs.Reader.Operand

/-!
# Sequences settle

The functions that put operands together, and those that read nested rows: each settles if the calls that need less do.
With them the induction on the need of a call goes through, so that every call settles.
-/

namespace Formula

open Atom Expr

section

variable {c : Catalog} {F : Fault → Prop} {L : List Atom → Prop} {E : Expr → Prop} {k : Nat}

/-! ### Calls of symbols -/

theorem settles_parts_nil (_ : Discipline c F L E) :
    Settles F (fun items => ∀ e ∈ items, E e) (k + 1) (.ok []) (fun n => ofParts c n []) := by
  refine .step ?_
  simp only [ofParts]
  exact .ret (fun _ h => by cases h)

theorem settles_parts_cons (_ : Discipline c F L E) {part : List Atom} {rest : List (List Atom)}
    (hL : ∀ row ∈ part :: rest, L (unspaced row)) (hk : (Call.parts (part :: rest)).need = k + 1)
    (ih : Below c F L E k) :
    Settles F (fun items => ∀ e ∈ items, E e) (k + 1)
      (do
        let e ← Grammar.nested c (some part)
        return e :: (← Grammar.parts c rest))
      (fun n => ofParts c n (part :: rest)) := by
  refine .step ?_
  simp only [ofParts]
  have hn : (Call.nested (some part)).need ≤ k := by
    simp only [Call.need, partsSize, List.length_cons, fieldSize] at hk ⊢
    omega
  refine .bind (ih _ hn (hL _ List.mem_cons_self)) hn fun e he => ?_
  have hn : (Call.parts rest).need ≤ k := by
    simp only [Call.need, partsSize, List.length_cons] at hk ⊢
    omega
  refine .bind (ih _ hn fun row hrow => hL row (List.mem_cons_of_mem _ hrow)) hn fun items hitems => .ret ?_
  intro e' he'
  rcases List.mem_cons.mp he' with rfl | he'
  · exact he
  · exact hitems e' he'

theorem settles_application (D : Discipline c F L E) {e : Expr} {atoms : List Atom} (hL : L atoms) (he : E e)
    (hk : (Call.application e atoms).need = k + 1) (ih : Below c F L E k) :
    Settles F (fun found => ∀ read, found = some read → E read.expr ∧ read.rest <:+ atoms.tail) (k + 1)
      (do
        if ← callName? e then
          match ← callArguments? atoms, e with
          | some (inner, last, rest), Expr.symbol name _ s t =>
            let items ← Grammar.parts c (← splitAtCommas 0 [] inner)
            let read ← Grammar.scripts c (some last) (call name (argumentsOf items) parentheses s t) rest
            return some (← Grammar.marks c read.expr read.rest)
          | _, _ => return none
        else return none)
      (fun n => readCall c n e atoms) := by
  have none' : Settles F (fun found : Option Reading => ∀ read, found = some read → E read.expr ∧ read.rest <:+ atoms.tail)
      k (pure none) (fun _ => pure none) := .ret (fun _ h => by cases h)
  refine .step ?_
  simp only [readCall]
  refine .ask ((D.callName he).and_ok fun _ h => h) fun is his => ?_
  refine .choice (fun hname => ?_) (fun _ => none')
  refine .ask ((D.arguments hL).and_ok fun _ h => h) fun found hfound => ?_
  obtain ⟨-, hfound⟩ := hfound
  cases found with
  | none => exact none'
  | some found =>
    obtain ⟨inner, last, rest⟩ := found
    cases e with
    | symbol name variant s t =>
      have place : listSize inner < rowWeight atoms ∧ L (unspaced inner) ∧ last :: rest <:+ atoms ∧ rest <:+ atoms.tail := by
        rcases callArguments?_eq hfound with ⟨rfl, rfl⟩ | ⟨a, rfl⟩
        · have hbody : last.body ∈ last.fields := by simp [fields]
          have := fieldSize_lt_weight hbody
          refine ⟨?_, D.nested (D.head hL) hbody, List.suffix_rfl, List.suffix_rfl⟩
          simp only [listSize_getD, rowWeight]
          omega
        · have := listSize_le_rowWeight inner
          have := weight_pos a
          refine ⟨?_, D.unspaced (D.part hL ⟨[a], last :: rest, rfl⟩), ⟨a :: inner, rfl⟩, ⟨inner ++ [last], by simp⟩⟩
          simp only [rowWeight, rowWeight_append]
          omega
      obtain ⟨hsize, hinner, hlast, hrest⟩ := place
      have hLlast := D.suffix hL hlast
      have hweight := rowWeight_suffix hlast
      have hpos := weight_pos last
      simp only [Call.need, rowWeight] at hk hweight
      refine .ask ((D.commas hinner).and_ok fun _ h => h) fun rows hrows => ?_
      obtain ⟨hparts, hpartsSize⟩ := splitAtCommas_parts hrows.2
      have hn : (Call.parts rows).need ≤ k := by
        have := splitAtCommas_pos hrows.2
        simp only [listSize] at hpartsSize
        simp only [Call.need]
        omega
      refine .bind (ih _ hn fun row hrow => D.part hinner (infix_unspaced (hparts row hrow))) hn fun items hitems => ?_
      have hn : (Call.scripts (some last) (call name (argumentsOf items) parentheses s t) rest).need ≤ k := by
        simp only [Call.need]
        omega
      have hown : ∀ b ∈ some last, L [b] := by
        rintro _ ⟨⟩
        exact D.head hLlast
      refine .bind (ih _ hn hown (D.tail hLlast) (D.callOf he (hname ▸ his.2) hitems)) hn fun read h => ?_
      refine .bind (settles_marks_behind D (D.tail hLlast) (by omega) ih h) (Nat.le_refl _) fun read' h' => .ret ?_
      rintro _ ⟨⟩
      exact ⟨h'.expr, h'.rest.trans hrest⟩
    | _ => exact none'

/-! ### Neighbours and primaries -/

theorem settles_neighbours_nil (_ : Discipline c F L E) {closers : List Closer} {e : Expr} (he : E e) :
    Settles F (After E []) (k + 1) (.ok ⟨[], e⟩) (fun n => readNeighbours c n closers e []) := by
  refine .step ?_
  simp only [readNeighbours]
  exact .ret (After.refl he)

theorem settles_neighbours_cons (D : Discipline c F L E) {closers : List Closer} {e : Expr} {a : Atom}
    {rest : List Atom} (hL : L (a :: rest)) (he : E e) (hk : (Call.neighbours closers e (a :: rest)).need = k + 1)
    (ih : Below c F L E k) :
    Settles F (After E (a :: rest)) (k + 1)
      (do
        if ← a.startsOperand c closers then
          match ← Grammar.application c e (a :: rest) with
          | some read => Grammar.neighbours c closers read.expr read.rest
          | none =>
            let read ← Grammar.operand c closers a rest
            if read.expr.isMissing || read.rest.length = (a :: rest).length then return ⟨read.rest, e⟩
            else Grammar.neighbours c closers (between "*" e read.expr) read.rest
        else return ⟨a :: rest, e⟩)
      (fun n => readNeighbours c n closers e (a :: rest)) := by
  have hpos := weight_pos a
  simp only [Call.need, rowWeight] at hk
  have on : ∀ (e' : Expr) (s : List Atom), E e' → s <:+ rest →
      Settles F (After E (a :: rest)) k (Grammar.neighbours c closers e' s)
        fun n => readNeighbours c n closers e' s := by
    intro e' s he' hs
    have hn : (Call.neighbours closers e' s).need ≤ k := by
      have := rowWeight_suffix hs
      simp only [Call.need]
      omega
    exact ((ih _ hn (D.suffix (D.tail hL) hs) he').mono hn).imp
      fun _ h => h.of_suffix (hs.trans (List.suffix_cons a rest))
  refine .step ?_
  simp only [readNeighbours]
  refine .ask (D.startsOperand (D.head hL)) fun starts _ => ?_
  refine .choice (fun _ => ?_) (fun _ => .ret (After.refl he))
  have hn : (Call.application e (a :: rest)).need ≤ k := by
    simp only [Call.need, rowWeight]
    omega
  refine .bind (ih _ hn hL he) hn fun found hfound => ?_
  cases found with
  | some read =>
    obtain ⟨he', hs⟩ := hfound read rfl
    exact on _ _ he' hs
  | none =>
    have hn : (Call.operand closers a rest).need ≤ k := by
      simp only [Call.need]
      omega
    refine .bind (ih _ hn hL) hn fun read h => ?_
    rcases h with h | rfl
    · refine .choice (fun _ => .ret ?_) (fun _ => on _ _ (D.product he h.expr) h.rest)
      exact ⟨h.rest.trans (List.suffix_cons a rest), he⟩
    · exact .choice (fun _ => .ret (After.refl he)) (fun hne => absurd rfl hne)

theorem settles_primary_nil (D : Discipline c F L E) {closers : List Closer} :
    Settles F (After E []) (k + 1) (.ok ⟨[], missing⟩) (fun n => readPrimary c n closers []) := by
  refine .step ?_
  simp only [readPrimary]
  exact .ret (After.refl D.missing)

theorem settles_primary_cons (D : Discipline c F L E) {closers : List Closer} {a : Atom} {rest : List Atom}
    (hL : L (a :: rest)) (hk : (Call.primary closers (a :: rest)).need = k + 1) (ih : Below c F L E k) :
    Settles F (After E (a :: rest)) (k + 1)
      (do
        if ← a.closesAny closers then return ⟨a :: rest, missing⟩
        let read ← Grammar.operand c closers a rest
        if read.expr.isMissing then return read
        Grammar.neighbours c closers read.expr read.rest)
      (fun n => readPrimary c n closers (a :: rest)) := by
  have hpos := weight_pos a
  simp only [Call.need, rowWeight] at hk
  refine .step ?_
  simp only [readPrimary]
  refine .ask (D.closesAny (D.head hL)) fun closed _ => ?_
  refine .choice (fun _ => .ret (After.refl D.missing)) (fun _ => ?_)
  have hn : (Call.operand closers a rest).need ≤ k := by
    simp only [Call.need]
    omega
  refine .bind (ih _ hn hL) hn fun read h => ?_
  rcases h with h | rfl
  · have h' := h.of_suffix (List.suffix_cons a rest)
    refine .choice (fun _ => .ret h') (fun _ => ?_)
    have hn : (Call.neighbours closers read.expr read.rest).need ≤ k := by
      have := rowWeight_suffix h.rest
      simp only [Call.need]
      omega
    exact ((ih _ hn (D.suffix hL h'.rest) h.expr).mono hn).imp fun _ h'' => h''.of_suffix h'.rest
  · exact .choice (fun _ => .ret (After.refl D.missing)) (fun hne => absurd rfl hne)

/-! ### Operators -/

theorem settles_expression_nil (_ : Discipline c F L E) {closers : List Closer} {least : Int} {left : Expr}
    (he : E left) :
    Settles F (fun read => After E [] read ∧
        ∀ p, operator? c [] = .ok (some p) → least ≤ p → read.rest.length < ([] : List Atom).length)
      (k + 1) (.ok ⟨[], left⟩) (fun n => readExpression c n closers least left []) := by
  refine .step ?_
  simp only [readExpression]
  exact .ret ⟨After.refl he, fun p h => by cases h⟩

theorem settles_expression_cons (D : Discipline c F L E) {closers : List Closer} {least : Int} {left : Expr}
    {a : Atom} {rest : List Atom} (hL : L (a :: rest)) (he : E left)
    (hk : (Call.expression closers least left (a :: rest)).need = k + 1) (ih : Below c F L E k) :
    Settles F (fun read => After E (a :: rest) read ∧
        ∀ p, operator? c (a :: rest) = .ok (some p) → least ≤ p → read.rest.length < (a :: rest).length)
      (k + 1)
      (do
        match ← a.precedence c with
        | none => return ⟨a :: rest, left⟩
        | some precedence =>
          if precedence < least then return ⟨a :: rest, left⟩
          else
            let op ← a.name c
            let first ← Grammar.primary c closers rest
            let right ← Grammar.tighter c closers precedence first.expr first.rest
            Grammar.expression c closers least (between op left right.expr) right.rest)
      (fun n => readExpression c n closers least left (a :: rest)) := by
  have hpos := weight_pos a
  simp only [Call.need, rowWeight] at hk
  refine .step ?_
  simp only [readExpression]
  refine .ask ((D.precedence (D.head hL)).and_ok fun _ h => h) fun found hfound => ?_
  obtain ⟨-, hprecedence⟩ := hfound
  have hoperator : operator? c (a :: rest) = .ok found := hprecedence
  cases found with
  | none =>
    refine .ret ⟨After.refl he, fun p h => ?_⟩
    rw [hoperator] at h
    cases h
  | some precedence =>
    refine .choice (fun hlt => .ret ⟨After.refl he, fun p h hle => ?_⟩) (fun _ => ?_)
    · rw [hoperator] at h
      cases h
      exact absurd hlt (Int.not_lt.mpr hle)
    refine .ask (D.operation (D.head hL) hprecedence) fun op hop => ?_
    have hn : (Call.primary closers rest).need ≤ k := by
      simp only [Call.need]
      omega
    refine .bind (ih _ hn (D.tail hL)) hn fun first h => ?_
    have hn : (Call.tighter closers precedence first.expr first.rest).need ≤ k := by
      have := rowWeight_suffix h.rest
      simp only [Call.need]
      omega
    refine .bind (ih _ hn (D.suffix (D.tail hL) h.rest) h.expr) hn fun right h' => ?_
    have hs := h'.rest.trans h.rest
    have hn : (Call.expression closers least (between op left right.expr) right.rest).need ≤ k := by
      have := rowWeight_suffix hs
      simp only [Call.need]
      omega
    refine ((ih _ hn (D.suffix (D.tail hL) hs) (hop _ _ he h'.expr)).mono hn).imp fun read h'' => ?_
    have hread := h''.1.rest.trans hs
    refine ⟨⟨hread.trans (List.suffix_cons a rest), h''.1.expr⟩, fun _ _ _ => ?_⟩
    exact Nat.lt_succ_of_le hread.length_le

theorem settles_tighter (D : Discipline c F L E) {closers : List Closer} {precedence : Int} {right : Expr}
    {atoms : List Atom} (hL : L atoms) (he : E right)
    (hk : (Call.tighter closers precedence right atoms).need = k + 1) (ih : Below c F L E k) :
    Settles F (After E atoms) (k + 1)
      (do
        match ← operator? c atoms with
        | none => return ⟨atoms, right⟩
        | some next =>
          if next ≤ precedence then return ⟨atoms, right⟩
          else
            let read ← Grammar.expression c closers next right atoms
            Grammar.tighter c closers precedence read.expr read.rest)
      (fun n => readTighter c n closers precedence right atoms) := by
  simp only [Call.need] at hk
  refine .step ?_
  simp only [readTighter]
  refine .ask ((D.operator hL).and_ok fun _ h => h) fun found hfound => ?_
  cases found with
  | none => exact .ret (After.refl he)
  | some next =>
    refine .choice (fun _ => .ret (After.refl he)) (fun _ => ?_)
    have hn : (Call.expression closers next right atoms).need ≤ k := by
      simp only [Call.need]
      omega
    refine .bind (ih _ hn hL he) hn fun read h => ?_
    obtain ⟨h, hprogress⟩ := h
    have hn : (Call.tighter closers precedence read.expr read.rest).need ≤ k := by
      have := rowWeight_suffix_lt h.rest (hprogress next hfound.2 (Int.le_refl _))
      simp only [Call.need]
      omega
    exact ((ih _ hn (D.suffix hL h.rest) h.expr).mono hn).imp fun _ h' => h'.of_suffix h.rest

/-! ### Sequences -/

theorem settles_stray_nil (_ : Discipline c F L E) {closers : List Closer} {e : Expr} (he : E e) :
    Settles F (After E []) (k + 1) (.ok ⟨[], e⟩) (fun n => readStray c n closers e []) := by
  refine .step ?_
  simp only [readStray]
  exact .ret (After.refl he)

theorem settles_stray_cons (D : Discipline c F L E) {closers : List Closer} {e : Expr} {a : Atom} {rest : List Atom}
    (hL : L (a :: rest)) (he : E e) (hk : (Call.stray closers e (a :: rest)).need = k + 1) (ih : Below c F L E k) :
    Settles F (After E (a :: rest)) (k + 1)
      (do
        if ← a.closesAny closers then return ⟨a :: rest, e⟩
        let read ← Grammar.primary c closers (a :: rest)
        let first : Reading ←
          if read.rest.length = (a :: rest).length then a.unexpected.map fun u => ⟨rest, u⟩ else pure read
        let read ← Grammar.expression c closers 0 first.expr first.rest
        Grammar.stray c closers (juxtapose e read.expr) read.rest)
      (fun n => readStray c n closers e (a :: rest)) := by
  have hpos := weight_pos a
  simp only [Call.need, rowWeight] at hk
  refine .step ?_
  simp only [readStray]
  refine .ask (D.closesAny (D.head hL)) fun closed _ => ?_
  refine .choice (fun _ => .ret (After.refl he)) (fun _ => ?_)
  have hn : (Call.primary closers (a :: rest)).need ≤ k := by
    simp only [Call.need, rowWeight]
    omega
  refine .bind (ih _ hn hL) hn fun read h => ?_
  have on : ∀ first : Reading, After E rest first →
      Settles F (After E (a :: rest)) k
        (do
          let read ← Grammar.expression c closers 0 first.expr first.rest
          Grammar.stray c closers (juxtapose e read.expr) read.rest)
        (fun n => do
          let read ← readExpression c n closers 0 first.expr first.rest
          readStray c n closers (juxtapose e read.expr) read.rest) := by
    intro first hfirst
    have hweight := rowWeight_suffix hfirst.rest
    have hn : (Call.expression closers 0 first.expr first.rest).need ≤ k := by
      simp only [Call.need]
      omega
    refine .bind (ih _ hn (D.suffix (D.tail hL) hfirst.rest) hfirst.expr) hn fun read h => ?_
    have hs := h.1.rest.trans hfirst.rest
    have hn : (Call.stray closers (juxtapose e read.expr) read.rest).need ≤ k := by
      have := rowWeight_suffix hs
      simp only [Call.need]
      omega
    exact ((ih _ hn (D.suffix (D.tail hL) hs) (D.juxtapose he h.1.expr)).mono hn).imp
      fun _ h' => h'.of_suffix (hs.trans (List.suffix_cons a rest))
  refine .choice (fun _ => ?_) (fun hne => ?_)
  · have hunexpected : Outcome.Within F (After E rest) (a.unexpected.map fun u => (⟨rest, u⟩ : Reading)) :=
      (D.unexpected (D.head hL)).map fun u hu => After.refl hu
    exact .ask hunexpected fun first hfirst => on first hfirst
  · have hs : read.rest <:+ rest := by
      rcases List.suffix_cons_iff.mp h.rest with heq | hs
      · exact absurd (congrArg List.length heq) hne
      · exact hs
    exact on read ⟨hs, h.expr⟩

theorem settles_sequence (D : Discipline c F L E) {closers : List Closer} {atoms : List Atom} (hL : L atoms)
    (hk : (Call.sequence closers atoms).need = k + 1) (ih : Below c F L E k) :
    Settles F (After E atoms) (k + 1)
      (do
        let first ← Grammar.primary c closers atoms
        let read ← Grammar.expression c closers 0 first.expr first.rest
        Grammar.stray c closers read.expr read.rest)
      (fun n => readSequence c n closers atoms) := by
  simp only [Call.need] at hk
  refine .step ?_
  simp only [readSequence]
  have hn : (Call.primary closers atoms).need ≤ k := by
    simp only [Call.need]
    omega
  refine .bind (ih _ hn hL) hn fun first h => ?_
  have hn : (Call.expression closers 0 first.expr first.rest).need ≤ k := by
    have := rowWeight_suffix h.rest
    simp only [Call.need]
    omega
  refine .bind (ih _ hn (D.suffix hL h.rest) h.expr) hn fun read h' => ?_
  have hs := h'.1.rest.trans h.rest
  have hn : (Call.stray closers read.expr read.rest).need ≤ k := by
    have := rowWeight_suffix hs
    simp only [Call.need]
    omega
  exact ((ih _ hn (D.suffix hL hs) h'.1.expr).mono hn).imp fun _ h'' => h''.of_suffix hs

/-! ### Nested rows -/

theorem settles_whole (_ : Discipline c F L E) {atoms : List Atom} (hL : L (unspaced atoms))
    (hk : (Call.whole atoms).need = k + 1) (ih : Below c F L E k) :
    Settles F E (k + 1)
      (do
        let read ← Grammar.sequence c [] (unspaced atoms)
        return read.expr)
      (fun n => Expr.ofSequence c n atoms) := by
  refine .step ?_
  simp only [Expr.ofSequence]
  have hn : (Call.sequence [] (unspaced atoms)).need ≤ k := by
    simp only [Call.need, rowWeight_unspaced] at hk ⊢
    omega
  exact .bind (ih _ hn hL) hn fun read h => .ret h.expr

theorem settles_nested_nil (D : Discipline c F L E) {field : Option (List Atom)} (h : field.getD [] = []) :
    Settles F E (k + 1) (.ok missing) (fun n => ofNested c n field) := by
  refine .step ?_
  rcases field with _ | _ | ⟨a, rest⟩
  · simp only [ofNested]
    exact .ret D.missing
  · simp only [ofNested]
    exact .ret D.missing
  · cases h

theorem settles_nested_cons (_ : Discipline c F L E) {a : Atom} {rest : List Atom} (hL : L (unspaced (a :: rest)))
    (hk : (Call.nested (some (a :: rest))).need = k + 1) (ih : Below c F L E k) :
    Settles F E (k + 1) (Grammar.whole c (a :: rest)) (fun n => ofNested c n (some (a :: rest))) := by
  refine .step ?_
  simp only [ofNested]
  have hn : (Call.whole (a :: rest)).need ≤ k := by
    simp only [Call.need, fieldSize] at hk ⊢
    omega
  exact (ih _ hn hL).mono hn

end

end Formula
