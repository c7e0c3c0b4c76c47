import Formula.Proofs.Reader.Sequence

/-!
# The grammar of atoms

Every call of the reader settles.  So the fuel with which `Expr.ofAtoms` begins is enough, and the reader without fuel
obeys the equations that its text gives: they are the grammar, as functions on rows.  Every statement about readings in
this library goes from here on by these equations; of the fuel nothing is left to say.
-/

namespace Formula

open Atom Expr

/-! ### Every call settles -/

theorem Call.need_pos (call : Call) : 0 < call.need := by
  cases call with
  | atom a =>
    have := weight_pos a
    simp only [need]
    omega
  | attached a e =>
    have := weight_pos a
    simp only [need]
    omega
  | scripts own e atoms =>
    cases own with
    | none => exact Nat.succ_pos _
    | some a => exact Nat.succ_pos _
  | _ => exact Nat.succ_pos _

section

variable {c : Catalog} {F : Fault → Prop} {L : List Atom → Prop} {E : Expr → Prop}

/-- A call that needs one more than the calls below it settles with them. -/
theorem Call.settled_succ (D : Discipline c F L E) {k : Nat} (ih : Below c F L E k) {call : Call}
    (hk : call.need = k + 1) : call.Settled c F L E := by
  have self : ∀ {α : Type} {P : α → Prop} {r : Outcome α} {f : Nat → Outcome α}, Settles F P (k + 1) r f →
      Settles F P call.need (f call.need) f := by
    intro α P r f h
    rw [hk]
    exact h.self
  cases call with
  | whole atoms => exact fun hL => self (settles_whole D hL hk ih)
  | nested field =>
    intro hL
    rcases field with _ | _ | ⟨a, rest⟩
    · exact self (settles_nested_nil D rfl)
    · exact self (settles_nested_nil D rfl)
    · exact self (settles_nested_cons D hL hk ih)
  | parts rows =>
    intro hL
    cases rows with
    | nil => exact self (settles_parts_nil D)
    | cons part rest => exact self (settles_parts_cons D hL hk ih)
  | atom a => exact fun hL => self (settles_atom D hL hk ih)
  | sequence closers atoms => exact fun hL => self (settles_sequence D hL hk ih)
  | stray closers e atoms =>
    intro hL he
    cases atoms with
    | nil => exact self (settles_stray_nil D he)
    | cons a rest => exact self (settles_stray_cons D hL he hk ih)
  | expression closers least left atoms =>
    intro hL he
    cases atoms with
    | nil => exact self (settles_expression_nil D he)
    | cons a rest => exact self (settles_expression_cons D hL he hk ih)
  | tighter closers precedence right atoms => exact fun hL he => self (settles_tighter D hL he hk ih)
  | primary closers atoms =>
    intro hL
    cases atoms with
    | nil => exact self (settles_primary_nil D)
    | cons a rest => exact self (settles_primary_cons D hL hk ih)
  | operand closers a rest => exact fun hL => self (settles_operand D hL hk ih)
  | symbol a rest => exact fun hL => self (settles_symbol D hL hk ih)
  | marked a rest => exact fun hL => self (settles_marked D hL hk ih)
  | number a rest => exact fun hL hp hs => self (settles_number D hL hp hs hk ih)
  | mixed literal numeral =>
    intro hL hliteral he
    cases hr : numeral.rest with
    | nil =>
      rw [← hr]
      exact self (settles_mixed_nil D hr)
    | cons following rest =>
      rw [hr] at hL
      rw [← hr]
      exact self (settles_mixed_cons D hr hL hliteral he hk ih)
  | function closers a rest => exact fun hL hf => self (settles_function D hL hf hk ih)
  | fence closers a rest => exact fun hL => self (settles_fence D hL hk ih)
  | closing left closer inner atoms =>
    rintro ⟨a, ha, hopen⟩ hL he
    cases atoms with
    | nil => exact self (settles_closing_nil D ha hopen hL he hk ih)
    | cons b rest => exact self (settles_closing_cons D ha hopen hL he hk ih)
  | scripts own e atoms =>
    intro hown hL he
    cases own with
    | none => exact self (settles_scripts_none D hL he hk ih)
    | some a => exact self (settles_scripts_some D (hown a rfl) hL he hk ih)
  | attached a e => exact fun hL he => self (settles_attached D hL he hk ih)
  | marks e atoms =>
    intro hL he
    cases atoms with
    | nil => exact self (settles_marks_nil D he)
    | cons a rest => exact self (settles_marks_cons D hL he hk ih)
  | neighbours closers e atoms =>
    intro hL he
    cases atoms with
    | nil => exact self (settles_neighbours_nil D he)
    | cons a rest => exact self (settles_neighbours_cons D hL he hk ih)
  | application e atoms => exact fun hL he => self (settles_application D hL he hk ih)

theorem below (D : Discipline c F L E) : ∀ k, Below c F L E k
  | 0 => fun call h => absurd call.need_pos (Nat.not_lt.mpr h)
  | k + 1 => fun call h => by
    rcases Nat.lt_or_eq_of_le h with hlt | heq
    · exact below D k call (Nat.le_of_lt_succ hlt)
    · exact call.settled_succ D (below D k) heq

/-- **Every call settles, and keeps every discipline.** -/
theorem Call.settled (D : Discipline c F L E) (call : Call) : call.Settled c F L E :=
  below D call.need call (Nat.le_refl _)

end

namespace Expr

/-- Sequences are read in the same way with all the fuel that there may be. -/
theorem ofSequence_eq (c : Catalog) {atoms : List Atom} {fuel : Nat} (h : 32 * listSize atoms + 10 ≤ fuel) :
    ofSequence c fuel atoms = Grammar.whole c atoms := (Call.settled (.free c) (.whole atoms) trivial).eq fuel h

/-- **The fuel of a reading is enough.** -/
theorem ofAtoms_eq (c : Catalog) (atoms : List Atom) : ofAtoms c atoms = Grammar.whole c atoms := by
  refine ofSequence_eq c ?_
  simp only [stepsFor, stepsPerAtom]
  omega

end Expr

/-! ### The equations -/

namespace Grammar

section

variable (c : Catalog)

/-- The equation of a call from what is known of its text. -/
theorem equation {α : Type} {P : α → Prop} {r : Outcome α} {f : Nat → Outcome α} {call : Call}
    (h : Below c (fun _ => True) (fun _ => True) (fun _ => True) (call.need - 1) →
      Settles (fun _ => True) P (call.need - 1 + 1) r f) : f call.need = r :=
  (h (below (.free c) _)).eq _ (by have := call.need_pos; omega)

theorem need_succ (call : Call) : call.need = call.need - 1 + 1 := by
  have := call.need_pos
  omega

theorem whole_eq (atoms : List Atom) :
    whole c atoms = (do
      let read ← sequence c [] (unspaced atoms)
      return read.expr) :=
  equation c (settles_whole (.free c) trivial (need_succ (.whole atoms)))

theorem nested_none : nested c none = .ok missing :=
  @equation c _ _ _ _ (.nested none) fun _ => settles_nested_nil (.free c) rfl

theorem nested_nil : nested c (some []) = .ok missing :=
  @equation c _ _ _ _ (.nested (some [])) fun _ => settles_nested_nil (.free c) rfl

theorem nested_cons (a : Atom) (rest : List Atom) : nested c (some (a :: rest)) = whole c (a :: rest) :=
  equation c (settles_nested_cons (.free c) trivial (need_succ (.nested (some (a :: rest)))))

theorem parts_nil : parts c [] = .ok [] :=
  @equation c _ _ _ _ (.parts []) fun _ => settles_parts_nil (.free c)

theorem parts_cons (part : List Atom) (rest : List (List Atom)) :
    parts c (part :: rest) = (do
      let e ← nested c (some part)
      return e :: (← parts c rest)) :=
  equation c (settles_parts_cons (.free c) (fun _ _ => trivial) (need_succ (.parts (part :: rest))))

theorem atom_eq (a : Atom) :
    atom c a = (match a.type with
      | .fraction => do
        let numerator ← whole c (a.numerator.getD [])
        let denominator ← whole c (a.denominator.getD [])
        return quotient numerator denominator
      | .radical => do
        let radicand ← whole c (a.body.getD [])
        let index ← whole c (a.index.getD [])
        if index.isMissing then return squareRoot radicand
        else return apply "pow" (tuple [radicand, quotient (ofNumber (.int 1)) index])
      | .font => a.inFont
      | .text => a.asText
      | .ordinary | .textual => a.symbol c
      | _ => .ok missing) :=
  equation c (settles_atom (.free c) trivial (need_succ (.atom a)))

theorem attached_eq (a : Atom) (e : Expr) :
    attached c a e = (do
      let sup ← nested c a.superscript
      let sub ← nested c a.subscript
      return e.attach sup sub) :=
  equation c (settles_attached (.free c) trivial trivial (need_succ (.attached a e)))

theorem scripts_none (e : Expr) (atoms : List Atom) : scripts c none e atoms = placeholders c e atoms :=
  equation c (settles_scripts_none (.free c) trivial trivial (need_succ (.scripts none e atoms)))

theorem scripts_some (own : Atom) (e : Expr) (atoms : List Atom) :
    scripts c (some own) e atoms = (if own.hasScripts then do
        let e ← attached c own e
        placeholders c e atoms
      else placeholders c e atoms) :=
  equation c (settles_scripts_some (.free c) trivial trivial trivial (need_succ (.scripts (some own) e atoms)))

theorem marks_nil (e : Expr) : marks c e [] = .ok ⟨[], e⟩ :=
  @equation c _ _ _ _ (.marks e []) fun _ => settles_marks_nil (.free c) trivial

theorem marks_cons (e : Expr) (a : Atom) (rest : List Atom) :
    marks c e (a :: rest) = (do
      match ← startsWithDigraph? Glyph.postfixDigraphs (a :: rest) with
      | some name =>
        let read ← scripts c rest.head? (apply name e) (rest.drop 1)
        marks c read.expr read.rest
      | none => match ← a.postfixFunction? with
        | some name =>
          let read ← scripts c (some a) (apply name e) rest
          marks c read.expr read.rest
        | none => return ⟨a :: rest, e⟩) :=
  equation c (settles_marks_cons (.free c) trivial trivial (need_succ (.marks e (a :: rest))))

theorem marked_eq (a : Atom) (rest : List Atom) :
    marked c a rest = (do
      let e ← atom c a
      let read ← scripts c (some a) e rest
      marks c read.expr read.rest) :=
  equation c (settles_marked (.free c) trivial (need_succ (.marked a rest)))

theorem symbol_eq (a : Atom) (rest : List Atom) :
    symbol c a rest = (do
      match ← a.precedence c with
      | some _ => return ⟨a :: rest, missing⟩
      | none =>
        if a.type = .ordinary ∨ a.type = .textual then marked c a rest
        else return ⟨rest, ← a.unexpected⟩) :=
  equation c (settles_symbol (.free c) trivial (need_succ (.symbol a rest)))

theorem number_eq {a : Atom} {rest : List Atom} (hp : a.isPlaceholder = false) (h : Expr.startsNumber (a :: rest) = .ok true) :
    number c a rest = (do
      let numeral ← scanNumeral (a :: rest)
      if !numeral.chars.any Char.isDigit then marked c a rest
      else
        let literal ← literalOf numeral.chars
        match ← mixed c literal numeral with
        | some read => return read
        | none =>
          let read ← scripts c numeral.last literal numeral.rest
          marks c read.expr read.rest) :=
  equation c (settles_number (.free c) trivial hp h (need_succ (.number a rest)))

theorem function_eq (closers : List Closer) {a : Atom} (rest : List Atom) (h : a.isFunction c = .ok true) :
    function c closers a rest = (do
      let name ← a.name c
      let head ← scripts c (some a) (apply name missing) rest
      let argument ← primary c closers head.rest
      match head.expr with
      | call name _ fence s t => return ⟨argument.rest, ← applyInverse (call name argument.expr fence s t)⟩
      | e => return ⟨argument.rest, juxtapose e argument.expr⟩) :=
  equation c (settles_function (.free c) trivial h (need_succ (.function closers a rest)))

theorem fence_eq (closers : List Closer) (a : Atom) (rest : List Atom) :
    fence c closers a rest = (do
      if a.type = .fenced then
        let inner ← nested c a.body
        let e ← delimited (a.leftDelim.orElse ".") (a.rightDelim.orElse ".") inner
        let read ← scripts c (some a) e rest
        marks c read.expr read.rest
      else match ← a.opener? with
        | none => symbol c a rest
        | some (left, closer) =>
          let inner ← sequence c (closers ++ [closer]) rest
          let read ← closing c left closer inner.expr inner.rest
          marks c read.expr read.rest) :=
  equation c (settles_fence (.free c) trivial (need_succ (.fence closers a rest)))

theorem operand_eq (closers : List Closer) (a : Atom) (rest : List Atom) :
    operand c closers a rest = (do
      match ← startsWithDigraph? Glyph.prefixDigraphs (a :: rest) with
      | some name =>
        let read ← primary c closers (rest.drop 1)
        return ⟨read.rest, apply name read.expr⟩
      | none => match ← a.sign? c with
        | some sign =>
          let read ← primary c closers rest
          return ⟨read.rest, withSign sign read.expr⟩
        | none =>
          if a.isPlaceholder then
            scripts c (some a) (unreadable "" "sub/superscript without a base") rest
          else if ← Expr.startsNumber (a :: rest) then number c a rest
          else
            match a.type with
            | .fraction | .radical | .font | .text => marked c a rest
            | .fenced | .opening | .sized => fence c closers a rest
            | .operator =>
              if ← a.isFunction c then function c closers a rest else symbol c a rest
            | .ordinary =>
              if ← a.isFunction c then function c closers a rest else symbol c a rest
            | .textual =>
              if ← a.isFunction c then function c closers a rest
              else match ← a.opener? with
                | some _ => fence c closers a rest
                | none => symbol c a rest
            | _ => symbol c a rest) :=
  equation c (settles_operand (.free c) trivial (need_succ (.operand closers a rest)))

theorem application_eq (e : Expr) (atoms : List Atom) :
    application c e atoms = (do
      if ← callName? e then
        match ← callArguments? atoms, e with
        | some (inner, last, rest), Expr.symbol name _ s t =>
          let items ← parts c (← splitAtCommas 0 [] inner)
          let read ← scripts c (some last) (call name (argumentsOf items) parentheses s t) rest
          return some (← marks c read.expr read.rest)
        | _, _ => return none
      else return none) :=
  equation c (settles_application (.free c) trivial trivial (need_succ (.application e atoms)))

theorem neighbours_nil (closers : List Closer) (e : Expr) : neighbours c closers e [] = .ok ⟨[], e⟩ :=
  @equation c _ _ _ _ (.neighbours closers e []) fun _ => settles_neighbours_nil (.free c) trivial

theorem neighbours_cons (closers : List Closer) (e : Expr) (a : Atom) (rest : List Atom) :
    neighbours c closers e (a :: rest) = (do
      if ← a.startsOperand c closers then
        match ← application c e (a :: rest) with
        | some read => neighbours c closers read.expr read.rest
        | none =>
          let read ← operand c closers a rest
          if read.expr.isMissing || read.rest.length = (a :: rest).length then return ⟨read.rest, e⟩
          else neighbours c closers (between "*" e read.expr) read.rest
      else return ⟨a :: rest, e⟩) :=
  equation c (settles_neighbours_cons (.free c) trivial trivial (need_succ (.neighbours closers e (a :: rest))))

theorem primary_nil (closers : List Closer) : primary c closers [] = .ok ⟨[], missing⟩ :=
  @equation c _ _ _ _ (.primary closers []) fun _ => settles_primary_nil (.free c)

theorem primary_cons (closers : List Closer) (a : Atom) (rest : List Atom) :
    primary c closers (a :: rest) = (do
      if ← a.closesAny closers then return ⟨a :: rest, missing⟩
      let read ← operand c closers a rest
      if read.expr.isMissing then return read
      neighbours c closers read.expr read.rest) :=
  equation c (settles_primary_cons (.free c) trivial (need_succ (.primary closers (a :: rest))))

theorem expression_nil (closers : List Closer) (least : Int) (left : Expr) :
    expression c closers least left [] = .ok ⟨[], left⟩ :=
  @equation c _ _ _ _ (.expression closers least left []) fun _ => settles_expression_nil (.free c) trivial

theorem expression_cons (closers : List Closer) (least : Int) (left : Expr) (a : Atom) (rest : List Atom) :
    expression c closers least left (a :: rest) = (do
      match ← a.precedence c with
      | none => return ⟨a :: rest, left⟩
      | some precedence =>
        if precedence < least then return ⟨a :: rest, left⟩
        else
          let op ← a.name c
          let first ← primary c closers rest
          let right ← tighter c closers precedence first.expr first.rest
          expression c closers least (between op left right.expr) right.rest) :=
  equation c (settles_expression_cons (.free c) trivial trivial (need_succ (.expression closers least left (a :: rest))))

theorem tighter_eq (closers : List Closer) (precedence : Int) (right : Expr) (atoms : List Atom) :
    tighter c closers precedence right atoms = (do
      match ← operator? c atoms with
      | none => return ⟨atoms, right⟩
      | some next =>
        if next ≤ precedence then return ⟨atoms, right⟩
        else
          let read ← expression c closers next right atoms
          tighter c closers precedence read.expr read.rest) :=
  equation c (settles_tighter (.free c) trivial trivial (need_succ (.tighter closers precedence right atoms)))

theorem stray_nil (closers : List Closer) (e : Expr) : stray c closers e [] = .ok ⟨[], e⟩ :=
  @equation c _ _ _ _ (.stray closers e []) fun _ => settles_stray_nil (.free c) trivial

theorem stray_cons (closers : List Closer) (e : Expr) (a : Atom) (rest : List Atom) :
    stray c closers e (a :: rest) = (do
      if ← a.closesAny closers then return ⟨a :: rest, e⟩
      let read ← primary c closers (a :: rest)
      let first : Reading ←
        if read.rest.length = (a :: rest).length then a.unexpected.map fun u => ⟨rest, u⟩ else pure read
      let read ← expression c closers 0 first.expr first.rest
      stray c closers (juxtapose e read.expr) read.rest) :=
  equation c (settles_stray_cons (.free c) trivial trivial (need_succ (.stray closers e (a :: rest))))

theorem sequence_eq (closers : List Closer) (atoms : List Atom) :
    sequence c closers atoms = (do
      let first ← primary c closers atoms
      let read ← expression c closers 0 first.expr first.rest
      stray c closers read.expr read.rest) :=
  equation c (settles_sequence (.free c) trivial (need_succ (.sequence closers atoms)))

theorem mixed_nil (literal : Expr) {numeral : NumeralReading} (hr : numeral.rest = []) :
    mixed c literal numeral = .ok none :=
  @equation c _ _ _ _ (.mixed literal numeral) fun _ => settles_mixed_nil (.free c) hr

theorem mixed_cons {literal : Expr} {numeral : NumeralReading} {following : Atom} {rest : List Atom}
    (hr : numeral.rest = following :: rest) (hliteral : literalOf numeral.chars = .ok literal) :
    mixed c literal numeral =
      (if following.type = .fraction ∧ !(numeral.last.map Atom.hasScripts).getD false then do
        let fraction ← atom c following
        match ← mixedNumber literal fraction with
        | none => return none
        | some _ =>
          let read ← scripts c (some following) fraction rest
          let read ← marks c read.expr read.rest
          return some ⟨read.rest, between "+" literal read.expr⟩
      else .ok none) :=
  equation c (settles_mixed_cons (.free c) hr trivial hliteral trivial (need_succ (.mixed literal numeral)))

theorem closing_nil {a : Atom} {left : Datum} {closer : Closer} (hopen : a.opener? = .ok (some (left, closer)))
    (inner : Expr) :
    closing c left closer inner [] =
      (do scripts c none (← delimited left (.text (closer.glyph.getD "")) inner) []) :=
  equation c (settles_closing_nil (.free c) trivial hopen trivial trivial (need_succ (.closing left closer inner [])))

theorem closing_cons {a : Atom} {left : Datum} {closer : Closer} (hopen : a.opener? = .ok (some (left, closer)))
    (inner : Expr) (b : Atom) (rest : List Atom) :
    closing c left closer inner (b :: rest) = (do
      if ← b.closes closer then
        scripts c (some b) (← delimited left (← b.glyph) inner) rest
      else scripts c none (← delimited left (.text (closer.glyph.getD "")) inner) (b :: rest)) :=
  equation c
    (settles_closing_cons (.free c) trivial hopen trivial trivial (need_succ (.closing left closer inner (b :: rest))))

end

end Grammar

end Formula
