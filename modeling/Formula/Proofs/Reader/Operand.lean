import Formula.Proofs.Reader.Call

/-!
# Operands settle

The functions that read one operand with its scripts and marks: each settles if the calls that need less do.
-/

namespace Formula

open Atom Expr

/-- All calls that need at most so much fuel settle. -/
def Below (c : Catalog) (F : Fault → Prop) (L : List Atom → Prop) (E : Expr → Prop) (fuel : Nat) : Prop :=
  ∀ call : Call, call.need ≤ fuel → call.Settled c F L E

namespace After

variable {E : Expr → Prop} {s t : List Atom} {read : Reading}

/-- What is left of the end of a row is left of the row. -/
theorem of_suffix (h : After E s read) (hs : s <:+ t) : After E t read := ⟨h.rest.trans hs, h.expr⟩

theorem refl {e : Expr} (he : E e) : After E s ⟨s, e⟩ := ⟨List.suffix_rfl, he⟩

end After

section

variable {c : Catalog} {F : Fault → Prop} {L : List Atom → Prop} {E : Expr → Prop} {k : Nat}

/-! ### Atoms on their own -/

theorem settles_atom (D : Discipline c F L E) {a : Atom} (hL : L [a]) (hk : (Call.atom a).need = k + 1)
    (ih : Below c F L E k) :
    Settles F E (k + 1)
      (match a.type with
        | .fraction => do
          let numerator ← Grammar.whole c (a.numerator.getD [])
          let denominator ← Grammar.whole c (a.denominator.getD [])
          return quotient numerator denominator
        | .radical => do
          let radicand ← Grammar.whole c (a.body.getD [])
          let index ← Grammar.whole c (a.index.getD [])
          if index.isMissing then return squareRoot radicand
          else return apply "pow" (tuple [radicand, quotient (ofNumber (.int 1)) index])
        | .font => a.inFont
        | .text => a.asText
        | .ordinary | .textual => a.symbol c
        | _ => .ok missing)
      (fun n => ofAtom c n a) := by
  have field : ∀ s : Option (List Atom), s ∈ a.fields → (Call.whole (s.getD [])).need ≤ k := by
    intro s hs
    have := fieldSize_lt_weight hs
    simp only [Call.need, listSize_getD] at hk ⊢
    omega
  have inside : ∀ s : Option (List Atom), s ∈ a.fields → (Call.whole (s.getD [])).Settled c F L E :=
    fun s hs => ih _ (field s hs)
  refine .step ?_
  simp only [ofAtom]
  cases ht : a.type
  case fraction =>
    have hnum : a.numerator ∈ a.fields := by simp [fields]
    have hden : a.denominator ∈ a.fields := by simp [fields]
    refine .bind (inside _ hnum (D.nested hL hnum)) (field _ hnum) fun numerator hn => ?_
    exact .bind (inside _ hden (D.nested hL hden)) (field _ hden) fun denominator hd => .ret (D.quotient hn hd)
  case radical =>
    have hbody : a.body ∈ a.fields := by simp [fields]
    have hindex : a.index ∈ a.fields := by simp [fields]
    refine .bind (inside _ hbody (D.nested hL hbody)) (field _ hbody) fun radicand hr => ?_
    refine .bind (inside _ hindex (D.nested hL hindex)) (field _ hindex) fun index hi => ?_
    exact .choice (fun _ => .ret (D.squareRoot hr)) (fun _ => .ret (D.power hr hi))
  case font => exact .const (D.inFont hL ht)
  case text => exact .const (D.asText hL ht)
  case ordinary => exact .const (D.symbol hL (.inl ht))
  case textual => exact .const (D.symbol hL (.inr ht))
  all_goals exact .const (Outcome.within_ok D.missing)

/-! ### Scripts -/

theorem settles_attached (D : Discipline c F L E) {a : Atom} {e : Expr} (hL : L [a]) (he : E e)
    (hk : (Call.attached a e).need = k + 1) (ih : Below c F L E k) :
    Settles F E (k + 1)
      (do
        let sup ← Grammar.nested c a.superscript
        let sub ← Grammar.nested c a.subscript
        return e.attach sup sub)
      (fun n => attachScripts c n a e) := by
  have field : ∀ s : Option (List Atom), s ∈ a.fields → (Call.nested s).need ≤ k := by
    intro s hs
    have := fieldSize_lt_weight hs
    simp only [Call.need] at hk ⊢
    omega
  have hsup : a.superscript ∈ a.fields := by simp [fields]
  have hsub : a.subscript ∈ a.fields := by simp [fields]
  refine .step ?_
  simp only [attachScripts]
  refine .bind (ih _ (field _ hsup) (D.nested hL hsup)) (field _ hsup) fun sup hs => ?_
  exact .bind (ih _ (field _ hsub) (D.nested hL hsub)) (field _ hsub) fun sub ht => .ret (D.attach he hs ht)

theorem settles_placeholders_cons (D : Discipline c F L E) {e : Expr} {a : Atom} {rest : List Atom}
    (hL : L (a :: rest)) (he : E e) (hk : 32 * rowWeight (a :: rest) + 2 ≤ k) (ih : Below c F L E k) :
    Settles F (After E (a :: rest)) k (Grammar.placeholders c e (a :: rest))
      (fun n => if a.isPlaceholder && a.hasScripts then readScripts c n (some a) e rest else pure ⟨a :: rest, e⟩) := by
  have hn : (Call.scripts (some a) e rest).need ≤ k := by
    simp only [Call.need, rowWeight] at hk ⊢
    omega
  have hown : ∀ b ∈ some a, L [b] := by
    rintro b ⟨⟩
    exact D.head hL
  refine .choice (fun _ => ?_) (fun _ => .ret (After.refl he))
  exact ((ih _ hn hown (D.tail hL) he).mono hn).imp fun read h => h.of_suffix (List.suffix_cons a rest)

theorem settles_scripts_none (D : Discipline c F L E) {e : Expr} {atoms : List Atom} (hL : L atoms) (he : E e)
    (hk : (Call.scripts none e atoms).need = k + 1) (ih : Below c F L E k) :
    Settles F (After E atoms) (k + 1) (Grammar.placeholders c e atoms) (fun n => readScripts c n none e atoms) := by
  refine .step ?_
  cases atoms with
  | nil =>
    simp only [readScripts, pure_bind]
    exact .ret (After.refl he)
  | cons a rest =>
    simp only [readScripts, pure_bind]
    refine settles_placeholders_cons D hL he ?_ ih
    simp only [Call.need] at hk
    omega

theorem settles_scripts_some (D : Discipline c F L E) {own : Atom} {e : Expr} {atoms : List Atom} (hown : L [own])
    (hL : L atoms) (he : E e) (hk : (Call.scripts (some own) e atoms).need = k + 1) (ih : Below c F L E k) :
    Settles F (After E atoms) (k + 1)
      (if own.hasScripts then do
        let e ← Grammar.attached c own e
        Grammar.placeholders c e atoms
      else Grammar.placeholders c e atoms)
      (fun n => readScripts c n (some own) e atoms) := by
  have hpos := weight_pos own
  have hn : (Call.attached own e).need ≤ k := by
    simp only [Call.need] at hk ⊢
    omega
  have hrow : 32 * rowWeight atoms + 2 ≤ k := by
    simp only [Call.need] at hk
    omega
  refine .step ?_
  cases atoms with
  | nil =>
    simp only [readScripts, pure_bind]
    refine .choice (fun _ => ?_) (fun _ => .ret (After.refl he))
    exact .bind (ih _ hn hown he) hn fun e' he' => .ret (After.refl he')
  | cons a rest =>
    simp only [readScripts, pure_bind]
    refine .choice (fun _ => ?_) (fun _ => settles_placeholders_cons D hL he hrow ih)
    exact .bind (ih _ hn hown he) hn fun e' he' => settles_placeholders_cons D hL he' hrow ih

/-! ### Marks -/

theorem settles_marks_behind (D : Discipline c F L E) {rest : List Atom} (hL : L rest) (hk : 32 * rowWeight rest + 3 ≤ k)
    (ih : Below c F L E k) {read : Reading} (h : After E rest read) :
    Settles F (After E rest) k (Grammar.marks c read.expr read.rest) fun n => readPostfix c n read.expr read.rest := by
  have hn : (Call.marks read.expr read.rest).need ≤ k := by
    have := rowWeight_suffix h.rest
    simp only [Call.need]
    omega
  exact ((ih _ hn (D.suffix hL h.rest) h.expr).mono hn).imp fun read' h' => h'.of_suffix h.rest

theorem settles_marks_nil (_ : Discipline c F L E) {e : Expr} (he : E e) :
    Settles F (After E []) (k + 1) (.ok ⟨[], e⟩) (fun n => readPostfix c n e []) := by
  refine .step ?_
  simp only [readPostfix]
  exact .ret (After.refl he)

theorem settles_marks_cons (D : Discipline c F L E) {e : Expr} {a : Atom} {rest : List Atom} (hL : L (a :: rest))
    (he : E e) (hk : (Call.marks e (a :: rest)).need = k + 1) (ih : Below c F L E k) :
    Settles F (After E (a :: rest)) (k + 1)
      (do
        match ← startsWithDigraph? Glyph.postfixDigraphs (a :: rest) with
        | some name =>
          let read ← Grammar.scripts c rest.head? (apply name e) (rest.drop 1)
          Grammar.marks c read.expr read.rest
        | none => match ← a.postfixFunction? with
          | some name =>
            let read ← Grammar.scripts c (some a) (apply name e) rest
            Grammar.marks c read.expr read.rest
          | none => return ⟨a :: rest, e⟩)
      (fun n => readPostfix c n e (a :: rest)) := by
  have hpos := weight_pos a
  have hrow : 32 * rowWeight rest + 3 ≤ k := by
    simp only [Call.need, rowWeight] at hk
    omega
  have on : ∀ read : Reading, After E rest read →
      Settles F (After E (a :: rest)) k (Grammar.marks c read.expr read.rest)
        fun n => readPostfix c n read.expr read.rest :=
    fun read h => (settles_marks_behind D (D.tail hL) hrow ih h).imp fun _ h' => h'.of_suffix (List.suffix_cons a rest)
  refine .step ?_
  simp only [readPostfix]
  refine .ask (D.digraph hL) fun found hfound => ?_
  cases found with
  | some name =>
    have hn : (Call.scripts rest.head? (apply name e) (rest.drop 1)).need ≤ k := by
      cases rest with
      | nil =>
        simp only [Call.need, rowWeight, List.head?_nil, List.drop_nil] at hk ⊢
        omega
      | cons b tail =>
        simp only [Call.need, rowWeight, List.head?_cons, List.drop_one, List.tail_cons] at hk ⊢
        omega
    have hown : ∀ b ∈ rest.head?, L [b] := by
      cases rest with
      | nil => exact fun b hb => by cases hb
      | cons b tail =>
        rintro _ ⟨⟩
        exact D.head (D.tail hL)
    refine .bind (ih _ hn hown (D.suffix (D.tail hL) (List.drop_suffix 1 rest)) (hfound name rfl e he)) hn fun read h => ?_
    exact on read (h.of_suffix (List.drop_suffix 1 rest))
  | none =>
    refine .ask (D.postfix? (D.head hL)) fun found hfound => ?_
    cases found with
    | some name =>
      have hn : (Call.scripts (some a) (apply name e) rest).need ≤ k := by
        simp only [Call.need, rowWeight] at hk ⊢
        omega
      have hown : ∀ b ∈ some a, L [b] := by
        rintro _ ⟨⟩
        exact D.head hL
      exact .bind (ih _ hn hown (D.tail hL) (hfound name rfl e he)) hn fun read h => on read h
    | none => exact .ret (After.refl he)

/-! ### Atoms and symbols -/

theorem settles_marked (D : Discipline c F L E) {a : Atom} {rest : List Atom} (hL : L (a :: rest))
    (hk : (Call.marked a rest).need = k + 1) (ih : Below c F L E k) :
    Settles F (After E rest) (k + 1)
      (do
        let e ← Grammar.atom c a
        let read ← Grammar.scripts c (some a) e rest
        Grammar.marks c read.expr read.rest)
      (fun n => readMarked c n a rest) := by
  have hn : (Call.atom a).need ≤ k := by
    simp only [Call.need] at hk ⊢
    omega
  refine .step ?_
  simp only [readMarked]
  refine .bind (ih _ hn (D.head hL)) hn fun e he => ?_
  have hn : (Call.scripts (some a) e rest).need ≤ k := by
    simp only [Call.need] at hk ⊢
    omega
  have hown : ∀ b ∈ some a, L [b] := by
    rintro _ ⟨⟩
    exact D.head hL
  refine .bind (ih _ hn hown (D.tail hL) he) hn fun read h => ?_
  exact settles_marks_behind D (D.tail hL) (by simp only [Call.need] at hk; have := weight_pos a; omega) ih h

theorem settles_symbol (D : Discipline c F L E) {a : Atom} {rest : List Atom} (hL : L (a :: rest))
    (hk : (Call.symbol a rest).need = k + 1) (ih : Below c F L E k) :
    Settles F (AfterOperand E a rest) (k + 1)
      (do
        match ← a.precedence c with
        | some _ => return ⟨a :: rest, missing⟩
        | none =>
          if a.type = .ordinary ∨ a.type = .textual then Grammar.marked c a rest
          else return ⟨rest, ← a.unexpected⟩)
      (fun n => readSymbol c n a rest) := by
  refine .step ?_
  simp only [readSymbol]
  refine .ask (D.precedence (D.head hL)) fun found _ => ?_
  cases found with
  | some _ => exact .ret (.inr rfl)
  | none =>
    have hn : (Call.marked a rest).need ≤ k := by
      simp only [Call.need] at hk ⊢
      omega
    refine .choice (fun _ => ?_) (fun _ => ?_)
    · exact ((ih _ hn hL).mono hn).imp fun read h => .inl h
    · exact .ask (D.unexpected (D.head hL)) fun e he => .ret (.inl (After.refl he))

/-! ### Numbers -/

theorem settles_mixed_nil (_ : Discipline c F L E) {literal : Expr} {numeral : NumeralReading}
    (hr : numeral.rest = []) :
    Settles F (fun found => ∀ read, found = some read → After E numeral.rest read) (k + 1) (.ok none)
      (fun n => readMixed c n literal numeral) := by
  refine .step ?_
  simp only [readMixed, hr]
  exact .ret (fun _ h => by cases h)

theorem settles_mixed_cons (D : Discipline c F L E) {literal : Expr} {numeral : NumeralReading} {following : Atom}
    {rest : List Atom} (hr : numeral.rest = following :: rest) (hL : L (following :: rest))
    (hliteral : literalOf numeral.chars = .ok literal) (he : E literal)
    (hk : (Call.mixed literal numeral).need = k + 1) (ih : Below c F L E k) :
    Settles F (fun found => ∀ read, found = some read → After E numeral.rest read) (k + 1)
      (if following.type = .fraction ∧ !(numeral.last.map Atom.hasScripts).getD false then do
        let fraction ← Grammar.atom c following
        match ← mixedNumber literal fraction with
        | none => return none
        | some _ =>
          let read ← Grammar.scripts c (some following) fraction rest
          let read ← Grammar.marks c read.expr read.rest
          return some ⟨read.rest, between "+" literal read.expr⟩
      else .ok none)
      (fun n => readMixed c n literal numeral) := by
  have hpos := weight_pos following
  simp only [Call.need, hr, rowWeight] at hk
  have hn : (Call.atom following).need ≤ k := by
    simp only [Call.need]
    omega
  refine .step ?_
  simp only [readMixed, hr]
  refine .choice (fun _ => ?_) (fun _ => .ret (fun _ h => by cases h))
  refine .bind (ih _ hn (D.head hL)) hn fun fraction hf => ?_
  refine .ask (D.mixed hliteral hf) fun found _ => ?_
  cases found with
  | none => exact .ret (fun _ h => by cases h)
  | some _ =>
    have hn : (Call.scripts (some following) fraction rest).need ≤ k := by
      simp only [Call.need]
      omega
    have hown : ∀ b ∈ some following, L [b] := by
      rintro _ ⟨⟩
      exact D.head hL
    refine .bind (ih _ hn hown (D.tail hL) hf) hn fun read h => ?_
    refine .bind (settles_marks_behind D (D.tail hL) (by omega) ih h) (Nat.le_refl _) fun read' h' => .ret ?_
    rintro _ ⟨⟩
    exact ⟨h'.rest.trans (List.suffix_cons _ _), D.sum he h'.expr⟩

theorem settles_number (D : Discipline c F L E) {a : Atom} {rest : List Atom} (hL : L (a :: rest))
    (hplace : a.isPlaceholder = false) (hstart : Expr.startsNumber (a :: rest) = .ok true) (hk : (Call.number a rest).need = k + 1)
    (ih : Below c F L E k) :
    Settles F (After E rest) (k + 1)
      (do
        let numeral ← scanNumeral (a :: rest)
        if !numeral.chars.any Char.isDigit then Grammar.marked c a rest
        else
          let literal ← literalOf numeral.chars
          match ← Grammar.mixed c literal numeral with
          | some read => return read
          | none =>
            let read ← Grammar.scripts c numeral.last literal numeral.rest
            Grammar.marks c read.expr read.rest)
      (fun n => readNumber c n a rest) := by
  refine .step ?_
  simp only [readNumber]
  refine .ask ((D.numeral hL hstart).and_ok fun _ h => h) fun numeral h => ?_
  obtain ⟨-, hscan⟩ := h
  refine .choice (fun _ => ?_) (fun hdigit => ?_)
  · have hn : (Call.marked a rest).need ≤ k := by
      simp only [Call.need] at hk ⊢
      omega
    exact (ih _ hn hL).mono hn
  have hdigit : numeral.chars.any Char.isDigit = true := by simpa using hdigit
  refine .ask ((D.literal hL hplace hstart hscan hdigit).and_ok fun _ h => h) fun literal h => ?_
  obtain ⟨he, hliteral⟩ := h
  obtain ⟨last, hlast, hsuffix⟩ := scanNumeral_last hscan hdigit
  have hweight := rowWeight_suffix hsuffix
  have hpos := weight_pos last
  have hrest : numeral.rest <:+ rest := by
    rcases List.suffix_cons_iff.mp hsuffix with h | h
    · obtain ⟨-, h⟩ := List.cons.inj h
      exact ⟨[], h⟩
    · exact (List.suffix_cons _ _).trans h
  have hLlast : L (last :: numeral.rest) := D.suffix hL hsuffix
  simp only [Call.need, rowWeight] at hk hweight
  have hn : (Call.mixed literal numeral).need ≤ k := by
    simp only [Call.need]
    omega
  refine .bind (ih _ hn (D.tail hLlast) hliteral he) hn fun found hfound => ?_
  cases found with
  | some read => exact .ret ((hfound read rfl).of_suffix hrest)
  | none =>
    have hn : (Call.scripts numeral.last literal numeral.rest).need ≤ k := by
      simp only [hlast, Call.need]
      omega
    have hown : ∀ b ∈ numeral.last, L [b] := by
      rw [hlast]
      rintro _ ⟨⟩
      exact D.head hLlast
    refine .bind (ih _ hn hown (D.tail hLlast) he) hn fun read h => ?_
    exact (settles_marks_behind D (D.tail hLlast) (by omega) ih h).imp fun read' h' => h'.of_suffix hrest

/-! ### Functions and fences -/

theorem settles_function (D : Discipline c F L E) {closers : List Closer} {a : Atom} {rest : List Atom}
    (hL : L (a :: rest)) (hf : a.isFunction c = .ok true) (hk : (Call.function closers a rest).need = k + 1)
    (ih : Below c F L E k) :
    Settles F (After E rest) (k + 1)
      (do
        let name ← a.name c
        let head ← Grammar.scripts c (some a) (apply name missing) rest
        let argument ← Grammar.primary c closers head.rest
        match head.expr with
        | call name _ fence s t => return ⟨argument.rest, ← applyInverse (call name argument.expr fence s t)⟩
        | e => return ⟨argument.rest, juxtapose e argument.expr⟩)
      (fun n => readFunction c n closers a rest) := by
  have hpos := weight_pos a
  refine .step ?_
  simp only [readFunction]
  refine .ask (D.functionName (D.head hL) hf) fun name hname => ?_
  have hn : (Call.scripts (some a) (apply name missing) rest).need ≤ k := by
    simp only [Call.need] at hk ⊢
    omega
  have hown : ∀ b ∈ some a, L [b] := by
    rintro _ ⟨⟩
    exact D.head hL
  refine .bind (ih _ hn hown (D.tail hL) hname) hn fun head h => ?_
  have hn : (Call.primary closers head.rest).need ≤ k := by
    have := rowWeight_suffix h.rest
    simp only [Call.need] at hk ⊢
    omega
  refine .bind (ih _ hn (D.suffix (D.tail hL) h.rest)) hn fun argument h' => ?_
  have hrest := h'.rest.trans h.rest
  obtain ⟨behind, e⟩ := head
  have he : E e := h.expr
  cases e with
  | call name _ fence s t =>
    exact .ask (D.argument he h'.expr) fun applied ha => .ret ⟨hrest, ha⟩
  | _ => exact .ret ⟨hrest, D.juxtapose he h'.expr⟩

theorem settles_closing_unclosed (D : Discipline c F L E) {a : Atom} {left : Datum} {closer : Closer} {inner : Expr}
    {atoms : List Atom} (ha : L [a]) (hopen : a.opener? = .ok (some (left, closer))) (hL : L atoms) (he : E inner)
    (hk : 32 * rowWeight atoms + 3 ≤ k) (ih : Below c F L E k) :
    Settles F (After E atoms) k
      (do Grammar.scripts c none (← delimited left (.text (closer.glyph.getD "")) inner) atoms)
      (fun n => do readScripts c n none (← delimited left (.text (closer.glyph.getD "")) inner) atoms) := by
  refine .ask (D.unclosed ha hopen he) fun e' he' => ?_
  have hn : (Call.scripts none e' atoms).need ≤ k := by
    simp only [Call.need]
    omega
  exact (ih _ hn (fun b hb => by cases hb) hL he').mono hn

theorem settles_closing_nil (D : Discipline c F L E) {a : Atom} {left : Datum} {closer : Closer} {inner : Expr}
    (ha : L [a]) (hopen : a.opener? = .ok (some (left, closer))) (hL : L []) (he : E inner)
    (hk : (Call.closing left closer inner []).need = k + 1) (ih : Below c F L E k) :
    Settles F (After E []) (k + 1)
      (do Grammar.scripts c none (← delimited left (.text (closer.glyph.getD "")) inner) [])
      (fun n => readClosing c n left closer inner []) := by
  refine .step ?_
  simp only [readClosing]
  refine settles_closing_unclosed D ha hopen hL he ?_ ih
  simp only [Call.need] at hk
  omega

theorem settles_closing_cons (D : Discipline c F L E) {a : Atom} {left : Datum} {closer : Closer} {inner : Expr}
    {b : Atom} {rest : List Atom} (ha : L [a]) (hopen : a.opener? = .ok (some (left, closer))) (hL : L (b :: rest))
    (he : E inner) (hk : (Call.closing left closer inner (b :: rest)).need = k + 1) (ih : Below c F L E k) :
    Settles F (After E (b :: rest)) (k + 1)
      (do
        if ← b.closes closer then
          Grammar.scripts c (some b) (← delimited left (← b.glyph) inner) rest
        else Grammar.scripts c none (← delimited left (.text (closer.glyph.getD "")) inner) (b :: rest))
      (fun n => readClosing c n left closer inner (b :: rest)) := by
  refine .step ?_
  simp only [readClosing]
  refine .ask ((D.closes (D.head hL)).and_ok fun _ h => h) fun closed hclosed => ?_
  refine .choice (fun hc => ?_) (fun _ => ?_)
  · rw [hc] at hclosed
    refine .ask (D.closed ha hopen (D.head hL) hclosed.2 he) fun right hright => ?_
    refine .ask hright fun e' he' => ?_
    have hn : (Call.scripts (some b) e' rest).need ≤ k := by
      simp only [Call.need, rowWeight] at hk ⊢
      omega
    have hown : ∀ b' ∈ some b, L [b'] := by
      rintro _ ⟨⟩
      exact D.head hL
    exact ((ih _ hn hown (D.tail hL) he').mono hn).imp fun read h => h.of_suffix (List.suffix_cons b rest)
  · refine settles_closing_unclosed D ha hopen hL he ?_ ih
    simp only [Call.need] at hk
    omega

theorem settles_fence (D : Discipline c F L E) {closers : List Closer} {a : Atom} {rest : List Atom}
    (hL : L (a :: rest)) (hk : (Call.fence closers a rest).need = k + 1) (ih : Below c F L E k) :
    Settles F (AfterOperand E a rest) (k + 1)
      (do
        if a.type = .fenced then
          let inner ← Grammar.nested c a.body
          let e ← delimited (a.leftDelim.orElse ".") (a.rightDelim.orElse ".") inner
          let read ← Grammar.scripts c (some a) e rest
          Grammar.marks c read.expr read.rest
        else match ← a.opener? with
          | none => Grammar.symbol c a rest
          | some (left, closer) =>
            let inner ← Grammar.sequence c (closers ++ [closer]) rest
            let read ← Grammar.closing c left closer inner.expr inner.rest
            Grammar.marks c read.expr read.rest)
      (fun n => readFence c n closers a rest) := by
  have hpos := weight_pos a
  have hrow : 32 * rowWeight rest + 3 ≤ k := by
    simp only [Call.need] at hk
    omega
  have hown : ∀ b ∈ some a, L [b] := by
    rintro _ ⟨⟩
    exact D.head hL
  refine .step ?_
  simp only [readFence]
  refine .choice (fun ht => ?_) (fun _ => ?_)
  · have hbody : a.body ∈ a.fields := by simp [fields]
    have hn : (Call.nested a.body).need ≤ k := by
      have := fieldSize_lt_weight hbody
      simp only [Call.need] at hk ⊢
      omega
    refine .bind (ih _ hn (D.nested (D.head hL) hbody)) hn fun inner hinner => ?_
    refine .ask (D.fenced (D.head hL) ht hinner) fun e he => ?_
    have hn : (Call.scripts (some a) e rest).need ≤ k := by
      simp only [Call.need] at hk ⊢
      omega
    refine .bind (ih _ hn hown (D.tail hL) he) hn fun read h => ?_
    exact (settles_marks_behind D (D.tail hL) hrow ih h).imp fun _ h' => .inl h'
  · refine .ask ((D.opener (D.head hL)).and_ok fun _ h => h) fun found hfound => ?_
    obtain ⟨-, hopen⟩ := hfound
    cases found with
    | none =>
      have hn : (Call.symbol a rest).need ≤ k := by
        simp only [Call.need] at hk ⊢
        omega
      exact (ih _ hn hL).mono hn
    | some found =>
      obtain ⟨left, closer⟩ := found
      have hn : (Call.sequence (closers ++ [closer]) rest).need ≤ k := by
        simp only [Call.need] at hk ⊢
        omega
      refine .bind (ih _ hn (D.tail hL)) hn fun inner hinner => ?_
      have hLrest := D.suffix (D.tail hL) hinner.rest
      have hn : (Call.closing left closer inner.expr inner.rest).need ≤ k := by
        have := rowWeight_suffix hinner.rest
        simp only [Call.need] at hk ⊢
        omega
      refine .bind (ih _ hn ⟨a, D.head hL, hopen⟩ hLrest hinner.expr) hn fun read h => ?_
      exact (settles_marks_behind D (D.tail hL) hrow ih (h.of_suffix hinner.rest)).imp fun _ h' => .inl h'

/-! ### Operands -/

theorem settles_operand (D : Discipline c F L E) {closers : List Closer} {a : Atom} {rest : List Atom}
    (hL : L (a :: rest)) (hk : (Call.operand closers a rest).need = k + 1) (ih : Below c F L E k) :
    Settles F (AfterOperand E a rest) (k + 1)
      (do
        match ← startsWithDigraph? Glyph.prefixDigraphs (a :: rest) with
        | some name =>
          let read ← Grammar.primary c closers (rest.drop 1)
          return ⟨read.rest, apply name read.expr⟩
        | none => match ← a.sign? c with
          | some sign =>
            let read ← Grammar.primary c closers rest
            return ⟨read.rest, withSign sign read.expr⟩
          | none =>
            if a.isPlaceholder then
              Grammar.scripts c (some a) (unreadable "" "sub/superscript without a base") rest
            else if ← Expr.startsNumber (a :: rest) then Grammar.number c a rest
            else
              match a.type with
              | .fraction | .radical | .font | .text => Grammar.marked c a rest
              | .fenced | .opening | .sized => Grammar.fence c closers a rest
              | .operator =>
                if ← a.isFunction c then Grammar.function c closers a rest else Grammar.symbol c a rest
              | .ordinary =>
                if ← a.isFunction c then Grammar.function c closers a rest else Grammar.symbol c a rest
              | .textual =>
                if ← a.isFunction c then Grammar.function c closers a rest
                else match ← a.opener? with
                  | some _ => Grammar.fence c closers a rest
                  | none => Grammar.symbol c a rest
              | _ => Grammar.symbol c a rest)
      (fun n => readOperand c n closers a rest) := by
  have hpos := weight_pos a
  have hown : ∀ b ∈ some a, L [b] := by
    rintro _ ⟨⟩
    exact D.head hL
  have hprimary : ∀ s, s <:+ rest → (Call.primary closers s).need ≤ k := by
    intro s hs
    have := rowWeight_suffix hs
    simp only [Call.need] at hk ⊢
    omega
  have hfence : Settles F (AfterOperand E a rest) k (Grammar.fence c closers a rest) fun n => readFence c n closers a rest := by
    have hn : (Call.fence closers a rest).need ≤ k := by
      simp only [Call.need] at hk ⊢
      omega
    exact (ih _ hn hL).mono hn
  have hsymbol : Settles F (AfterOperand E a rest) k (Grammar.symbol c a rest) fun n => readSymbol c n a rest := by
    have hn : (Call.symbol a rest).need ≤ k := by
      simp only [Call.need] at hk ⊢
      omega
    exact (ih _ hn hL).mono hn
  have hmarked : Settles F (AfterOperand E a rest) k (Grammar.marked c a rest) fun n => readMarked c n a rest := by
    have hn : (Call.marked a rest).need ≤ k := by
      simp only [Call.need] at hk ⊢
      omega
    exact ((ih _ hn hL).mono hn).imp fun _ h => .inl h
  have hfunction : a.isFunction c = .ok true →
      Settles F (AfterOperand E a rest) k (Grammar.function c closers a rest)
        fun n => readFunction c n closers a rest := by
    intro hf
    have hn : (Call.function closers a rest).need ≤ k := by
      simp only [Call.need] at hk ⊢
      omega
    exact ((ih _ hn hL hf).mono hn).imp fun _ h => .inl h
  have hname : ∀ (s : Outcome Reading) (g : Nat → Outcome Reading), operatorTypes.contains a.type = true →
      Settles F (AfterOperand E a rest) k s g → Settles F (AfterOperand E a rest) k
        (do if ← a.isFunction c then Grammar.function c closers a rest else s)
        (fun n => do if ← a.isFunction c then readFunction c n closers a rest else g n) := by
    intro s g htype hs
    refine .ask ((D.isFunction (D.head hL) htype).and_ok fun _ h => h) fun is his => ?_
    refine .choice (fun hi => hfunction ?_) (fun _ => hs)
    rw [← hi]
    exact his.2
  refine .step ?_
  simp only [readOperand]
  refine .ask (D.digraph hL) fun found hfound => ?_
  cases found with
  | some name =>
    have hs := List.drop_suffix 1 rest
    refine .bind (ih _ (hprimary _ hs) (D.suffix (D.tail hL) hs)) (hprimary _ hs) fun read h => .ret (.inl ?_)
    exact ⟨h.rest.trans hs, hfound name rfl _ h.expr⟩
  | none =>
    refine .ask (D.sign (D.head hL)) fun found hfound => ?_
    cases found with
    | some sign =>
      have hs := List.suffix_refl rest
      refine .bind (ih _ (hprimary _ hs) (D.tail hL)) (hprimary _ hs) fun read h => .ret (.inl ?_)
      exact ⟨h.rest, hfound sign rfl _ h.expr⟩
    | none =>
      refine .choice (fun hplace => ?_) (fun hplace => ?_)
      · have hn : (Call.scripts (some a) (unreadable "" "sub/superscript without a base") rest).need ≤ k := by
          simp only [Call.need] at hk ⊢
          omega
        exact ((ih _ hn hown (D.tail hL) (D.placeholder (D.head hL) hplace)).mono hn).imp fun _ h => .inl h
      refine .ask ((D.startsNumber hL).and_ok fun _ h => h) fun starts hstarts => ?_
      refine .choice (fun hs => ?_) (fun _ => ?_)
      · rw [hs] at hstarts
        have hn : (Call.number a rest).need ≤ k := by
          simp only [Call.need] at hk ⊢
          omega
        exact ((ih _ hn hL (Bool.eq_false_iff.mpr hplace) hstarts.2).mono hn).imp fun _ h => .inl h
      cases ht : a.type
      case fraction | radical | font | text => exact hmarked
      case fenced | opening | sized => exact hfence
      case operator | ordinary => exact hname _ _ (by rw [ht]; decide) hsymbol
      case textual =>
        refine hname _ _ (by rw [ht]; decide) (.ask (D.opener (D.head hL)) fun found _ => ?_)
        cases found with
        | some _ => exact hfence
        | none => exact hsymbol
      all_goals exact hsymbol

end

end Formula
