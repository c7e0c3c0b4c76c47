import Formula.Proofs.Reader.Letters
import Formula.Proofs.Reader.Numeral

/-!
# What the reader carries over

Every letter that stands where the reader carries it over occurs in the tree.  `CarriesOver` says so of a reading in the
middle of a row: what the atoms read so far carry over is in the expression, and what is left carries over the rest.  With
it goes the place in the row (`Stands`), on which hangs whether the scripts of a delimiter are carried over.

`KeepsLetters` holds of a reader that has run out of fuel, and one more unit of fuel keeps it.
-/

namespace Formula

open Atom Expr Outcome

variable {c : Catalog} {x : Char} {plain : Bool} {closers : List Closer} {atoms rest : List Atom} {a : Atom}
  {e e' : Expr} {read read' : Reading} {n m : Nat}

/-- Of what was due before the atoms and of what the atoms carry over, all is in the expression or in the atoms that are
left. -/
structure CarriesOver (c : Catalog) (x : Char) (plain : Bool) (closers : List Closer) (n : Nat) (atoms : List Atom)
    (read : Reading) : Prop where
  stands : Stands plain closers read.rest
  bound : n + rowCarried c x plain atoms ≤ read.expr.occurrences x + rowCarried c x plain read.rest

namespace CarriesOver

theorem refl (h : Stands plain closers atoms) (hn : n ≤ e.occurrences x) : CarriesOver c x plain closers n atoms ⟨atoms, e⟩ :=
  ⟨h, Nat.add_le_add_right hn _⟩

theorem trans {inner : List Closer} (h : CarriesOver c x plain inner n atoms read)
    (h' : CarriesOver c x plain closers (read.expr.occurrences x) read.rest read') :
    CarriesOver c x plain closers n atoms read' := ⟨h'.stands, Nat.le_trans h.bound h'.bound⟩

/-- Some of the atoms were read before, and what they carry over is due. -/
theorem before (h : CarriesOver c x plain closers n rest read)
    (hn : m + rowCarried c x plain atoms ≤ n + rowCarried c x plain rest) : CarriesOver c x plain closers m atoms read :=
  ⟨h.stands, Nat.le_trans hn h.bound⟩

theorem mono (h : CarriesOver c x plain closers n atoms read) (hm : m ≤ n) : CarriesOver c x plain closers m atoms read :=
  h.before (Nat.add_le_add_right hm _)

/-- What an atom carries over is due behind it. -/
theorem cons (h : CarriesOver c x plain closers n rest read) (hm : m + a.carried c x plain ≤ n) :
    CarriesOver c x plain closers m (a :: rest) read :=
  h.before (by rw [rowCarried, ← Nat.add_assoc]; exact Nat.add_le_add_right hm _)

theorem skip (h : CarriesOver c x plain closers n rest read) (hnone : a.carried c x plain = 0) :
    CarriesOver c x plain closers n (a :: rest) read := h.cons (Nat.le_of_eq (by rw [hnone, Nat.add_zero]))

/-- An expression around the one that was read. -/
theorem wrap (h : CarriesOver c x plain closers n atoms read) (he : m + read.expr.occurrences x ≤ e.occurrences x) :
    CarriesOver c x plain closers (m + n) atoms ⟨read.rest, e⟩ := by
  refine ⟨h.stands, ?_⟩
  have := h.bound
  dsimp only
  omega

end CarriesOver

/-! ### Halves of digraphs and pieces of numerals -/

theorem of_startsWithDigraph? {names : List String} {name : String}
    (h : startsWithDigraph? names (a :: rest) = .ok (some name)) :
    ∃ b behind, rest = b :: behind ∧ a.isHalf = true ∧ a.hasScripts = false ∧ b.isHalf = true ∧
      (names = Glyph.prefixDigraphs → b.endsPrefix = true) := by
  obtain ⟨_, b, behind, heq, hfound, hname⟩ := digraph_of_startsWithDigraph? h
  obtain ⟨rfl, rfl⟩ := List.cons.inj heq
  obtain ⟨hbare, l, r, hleft, hright, he⟩ := mem_of_digraph? hfound
  have hl : a.spelled l = true := spelled_iff.mpr hleft
  have hr : b.spelled r = true := spelled_iff.mpr hright
  refine ⟨b, behind, rfl, List.any_eq_true.mpr ⟨_, he, by simp [hl]⟩, hbare,
    List.any_eq_true.mpr ⟨_, he, by simp [hr]⟩, ?_⟩
  rintro rfl
  exact List.any_eq_true.mpr ⟨_, he, by rw [Bool.and_eq_true]; exact ⟨hname, hr⟩⟩

/-- A half of a digraph is left behind as it is. -/
theorem Stands.tail_of_half (h : Stands plain closers (a :: rest)) (hhalf : a.isHalf = true) : Stands plain closers rest := by
  refine h.tail_of_text (fun t ht htext => ?_) fun _ => hhalf
  have hall : ∀ e ∈ Glyph.digraphs, e.1.1 ∉ Glyph.delimiters ∧ e.1.2 ∉ Glyph.delimiters := by decide
  obtain ⟨e, he, hspelled⟩ := List.any_eq_true.mp hhalf
  rcases Bool.or_eq_true_iff.mp hspelled with hs | hs
  · rw [spelled_iff.mp hs] at htext
    cases htext
    exact (hall e he).1 ht
  · rw [spelled_iff.mp hs] at htext
    cases htext
    exact (hall e he).2 ht

/-- So is a mark. -/
theorem Stands.tail_of_mark (h : Stands plain closers (a :: rest)) {name : String}
    (hmark : a.postfixFunction? = .ok (some name)) : Stands plain closers rest := by
  have htype := type_of_postfixFunction? hmark
  refine h.tail_of_text (fun t ht htext => ?_) fun hs => by rw [htype] at hs; cases hs
  unfold postfixFunction? at hmark
  rw [if_pos htype, htext] at hmark
  have hlookup : Glyph.postfixFunctions.lookup t = some name := Except.ok.inj hmark
  obtain ⟨before, after, heq, -⟩ := List.lookup_eq_some_iff.mp hlookup
  have hall : ∀ e ∈ Glyph.postfixFunctions, e.1 ∉ Glyph.delimiters := by decide
  exact hall (t, name) (heq ▸ List.mem_append_right _ List.mem_cons_self) ht

theorem name_of_delimiter {t : String} (ht : t ∈ Glyph.delimiters) (htext : a.text = .ok (.text t)) :
    a.name c = .ok (c.nameOfTrimmed (Text.trim t)) := by
  have hvoid : ∀ t ∈ Glyph.delimiters, (Datum.text t).isVoid = false := by decide
  unfold Atom.name Catalog.canonicalNameOf
  rw [htext]
  show (if (Datum.text t).isVoid = true then _ else Except.map c.nameOfTrimmed (.ok (Text.trim t))) = _
  rw [if_neg (by rw [hvoid t ht]; exact Bool.false_ne_true)]
  rfl

/-- Operators are no delimiters. -/
theorem Stands.tail_of_operator (L : LetterOf c x) (h : Stands plain closers (a :: rest)) {p : Int}
    (hp : a.precedence c = .ok (some p)) : Stands plain closers rest := by
  unfold Atom.precedence at hp
  split at hp
  · rename_i htype
    refine h.tail_of_text (fun t ht htext => ?_) fun hs => by rw [hs] at htype; exact absurd htype (by decide)
    rw [name_of_delimiter ht htext] at hp
    obtain ⟨key, hkey, hp⟩ := map_eq_ok.mp hp
    rw [Datum.eq_of_key hkey, (L.delimiters t ht).1] at hp
    cases hp
  · cases hp

/-- Names of functions are no delimiters. -/
theorem Stands.tail_of_function (L : LetterOf c x) (h : Stands plain closers (a :: rest)) (hsized : a.type ≠ .sized)
    (hf : a.isFunction c = .ok true) : Stands plain closers rest := by
  have hcommand : ∀ t ∈ Glyph.delimiters, Text.beginsWith t "\\operatorname" = false := by decide
  refine h.tail_of_text (fun t ht htext => ?_) fun hs => absurd hs hsized
  obtain ⟨name, hname, hf⟩ := bind_eq_ok.mp hf
  obtain ⟨precedence, -, hf⟩ := bind_eq_ok.mp hf
  rw [name_of_delimiter ht htext] at hname
  cases hname
  split at hf
  · cases hf
  obtain ⟨text, htext', hf⟩ := bind_eq_ok.mp hf
  cases htext.symm.trans htext'
  split at hf
  · rename_i heq
    cases heq
    have hf := Except.ok.inj hf
    rw [hcommand t ht, (L.delimiters t ht).2] at hf
    cases hf
  · rename_i hno
    exact hno t rfl
  · rw [(L.delimiters t ht).2] at hf
    cases hf

/-- An atom of a numeral is none of the letters, and neither opens nor closes a fence. -/
theorem of_numeralStep {state : NumeralState} {before : Bool} {behind : List Atom} {step : List Char × NumeralState}
    (h : numeralStep state before a behind = .ok (some step)) :
    a.type ∈ [.ordinary, .punctuation, .binary] ∧ (a.type = .ordinary → ∃ s ∈ reservedNames, a.spelled s = true) := by
  have ordinary : ∀ {s : String}, a.type = .ordinary → a.text = .ok (.text s) → s ∈ reservedNames →
      a.type ∈ [.ordinary, .punctuation, .binary] ∧ (a.type = .ordinary → ∃ s ∈ reservedNames, a.spelled s = true) :=
    fun ht htext hmem => ⟨by simp [ht], fun _ => ⟨_, hmem, spelled_iff.mpr htext⟩⟩
  have digit : a.isDigit = .ok true →
      a.type ∈ [.ordinary, .punctuation, .binary] ∧ (a.type = .ordinary → ∃ s ∈ reservedNames, a.spelled s = true) := by
    intro hd
    obtain ⟨ht, s, hs, htext⟩ := text_of_isDigit hd
    exact ordinary ht htext (by simp only [reservedNames, List.mem_append]; simp [hs])
  obtain ⟨added, next⟩ := step
  cases numeralPart_of_step h with
  | digit _ hd => exact digit hd
  | point _ ht htext => exact ordinary ht htext (by decide)
  | comma _ _ ht htext =>
    rcases ht with ht | ht
    · exact ⟨by simp [ht], fun ho => by rw [ht] at ho; cases ho⟩
    · exact ordinary ht htext (by decide)
  | marker _ _ ht hs htext => exact ordinary ht htext (by simp only [reservedNames, List.mem_append]; simp [hs])
  | sign hs =>
    have ht := type_of_signOf? hs
    exact ⟨by simp [ht], fun ho => by rw [ht] at ho; cases ho⟩
  | exponent _ hd => exact digit hd

/-! ### Functions and their arguments -/

/-- The expression is no call, or one that has no argument yet. -/
def Expr.Unapplied (e : Expr) : Prop := ∀ name e' fence s t, e = call name e' fence s t → e' = missing

theorem unapplied_apply_missing (name : Datum) : (apply name missing).Unapplied := by
  rintro name' e' fence s t h
  cases h
  rfl

theorem Expr.Unapplied.attach (h : e.Unapplied) (s t : Expr) : (e.attach s t).Unapplied := by
  unfold Expr.attach
  split
  · exact h
  · split
    · cases e with
      | call name e' fence s' t' =>
        rintro name' e'' fence' s'' t'' heq
        cases heq
        exact h _ _ _ _ _ rfl
      | _ => exact nofun
    · exact nofun

/-- The head of a function has no argument yet, whatever scripts stand behind the name. -/
theorem readScripts_unapplied : ∀ {fuel : Nat} {own : Option Atom} {e : Expr} {atoms : List Atom} {read : Reading},
    readScripts c fuel own e atoms = .ok read → e.Unapplied → read.expr.Unapplied
  | 0, _, _, _, _, h, _ => by cases h
  | fuel + 1, own, e, atoms, read, h, he => by
    obtain ⟨e', hown, hread⟩ := of_readScripts h
    have he' : e'.Unapplied := by
      rcases hown with ⟨rfl, -⟩ | ⟨a, -, he'⟩
      · exact he
      · cases fuel with
        | zero => cases he'
        | succ fuel =>
          obtain ⟨sup, sub, -, -, rfl⟩ := of_attachScripts he'
          exact he.attach sup sub
    rcases hread with rfl | ⟨a, rest, -, -, h⟩
    · exact he'
    · exact readScripts_unapplied h he'

/-- A symbol that is read as a function shows none of the letters. -/
theorem occurrences_of_callName? (L : LetterOf c x) {name variant : Datum} {s t : Expr}
    (h : callName? (symbol name variant s t) = .ok true) : name.occurrences x = 0 := by
  obtain ⟨f, hf, rfl⟩ := Datum.mem_of_isOneOf h
  have hone : ∀ f ∈ callNames, (f.toList.all fun d => d.toString == f) = true := by decide
  refine List.count_eq_zero.mpr fun hx => L.unreserved ?_
  rw [beq_iff_eq.mp (List.all_eq_true.mp (hone f hf) x hx)]
  simp only [reservedNames, List.mem_append]
  simp [hf]

/-- The arguments of a call and the scripts behind them are carried over. -/
theorem callArguments?_carried {inner : List Atom} {last : Atom} {parts : List (List Atom)} (hs : Stands plain closers atoms)
    (h : callArguments? atoms = .ok (some (inner, last, rest))) (hparts : splitAtCommas 0 [] inner = .ok parts) :
    Stands plain closers rest ∧ rowCarried c x plain atoms ≤
      (parts.map fun part => fieldCarried c x (some part)).sum + last.scriptLetters c x + rowCarried c x plain rest := by
  cases atoms with
  | nil => cases h
  | cons a tail =>
    rw [callArguments?] at h
    split at h
    · rename_i ht
      split at h
      · cases h
        refine ⟨hs.tail_of_type (by rw [ht]; decide), ?_⟩
        have hcarried := carried_le (c := c) (x := x) (a := last) plain
        have hletters := innerLetters_le_body (c := c) (x := x) ht
        rw [own_of_type (by rw [ht]; decide)] at hcarried
        have hbody : fieldCarried c x last.body ≤ (parts.map fun part => fieldCarried c x (some part)).sum := by
          cases hfield : last.body with
          | none => exact Nat.zero_le _
          | some body =>
            rw [hfield] at hparts
            exact rowCarried_le_parts hparts id
        rw [rowCarried]
        omega
      · cases h
    · rename_i ht
      obtain ⟨text, htext, h⟩ := bind_eq_ok.mp h
      split at h
      · rename_i his
        obtain ⟨t, rfl⟩ := Datum.isText_of_isText his
        rw [eq_of_beq his] at htext
        have hsplit := Except.ok.inj h
        have hopener : a.opener? = .ok (some (.text "(", ⟨.closing, some ")"⟩)) := by
          unfold opener?
          rw [ht, htext]
          rfl
        obtain ⟨hinside, -⟩ := hs.push (fun k _ hk => not_shuts_of_type (by rw [ht]; decide) hk) hopener
        have hbehind : Stands plain closers rest ∧ (plain = true → fencesPair [] inner = true) := by
          cases plain with
          | false => exact ⟨.loose _ _, fun hplain => by cases hplain⟩
          | true =>
            obtain ⟨hproper, -, hpair⟩ := hinside.closers_of_append rfl
            obtain ⟨hinner, -, hrest⟩ := @fencesPair_splitAtCloser _ _ rfl _ _ [] (fun k hk => by cases hk) hpair hsplit
            exact ⟨fun _ => ⟨hproper, hrest⟩, fun _ => hinner⟩
        have hinner := rowCarried_le_parts (c := c) (x := x) hparts fun hp => fencesPair_unspaced (fun k hk => by cases hk) (hbehind.2 hp)
        have hlast := @carried_le_of_delimiter c x plain last
          (by rw [type_of_splitAtCloser hsplit]; decide)
        refine ⟨hbehind.1, ?_⟩
        rw [splitAtCloser_eq hsplit, rowCarried, rowCarried_append, rowCarried, carried_of_type (by simp [ht])]
        omega
      · cases h
    · cases h

/-! ### Numerals -/

/-- What a numeral takes from the row carries nothing over but the scripts of its last atom. -/
theorem scanNumeralFrom_carried (L : LetterOf c x) {numeral : NumeralReading} : ∀ {atoms : List Atom}
    {state : NumeralState} {chars : List Char} {last : Option Atom}, scanNumeralFrom state chars last atoms = .ok numeral →
      Stands plain closers atoms → Stands plain closers numeral.rest ∧
        rowCarried c x plain atoms ≤
          (numeral.last.map (scriptLetters c x)).getD 0 + rowCarried c x plain numeral.rest
  | [], _, _, _, h, hs => by
    cases h
    exact ⟨hs, Nat.le_add_left _ _⟩
  | a :: atoms, state, chars, last, h, hs => by
    rw [scanNumeralFrom] at h
    obtain ⟨found, hstep, h⟩ := bind_eq_ok.mp h
    cases found with
    | none =>
      cases h
      exact ⟨hs, Nat.le_add_left _ _⟩
    | some step =>
      obtain ⟨ht, hspelled⟩ := of_numeralStep hstep
      have htail : Stands plain closers atoms := hs.tail_of_type (by
        simp only [List.mem_cons, List.not_mem_nil, or_false] at ht
        rcases ht with ht | ht | ht <;> rw [ht] <;> decide)
      have hown : a.own x = 0 := by
        by_cases ho : a.type = .ordinary
        · obtain ⟨s, hmem, hs⟩ := hspelled ho
          exact own_of_reserved L hs hmem
        · exact own_of_type ho
      have hinner : a.innerLetters c x = 0 := innerLetters_of_type (by
        simp only [List.mem_cons, List.not_mem_nil, or_false] at ht
        rcases ht with ht | ht | ht <;> rw [ht] <;> decide)
      dsimp only at h
      split at h
      · cases h
        refine ⟨htail, Nat.add_le_add_right ?_ _⟩
        have := carried_le (c := c) (x := x) (a := a) plain
        rw [hown, hinner] at this
        simpa using this
      · rename_i hbare
        obtain ⟨hstands, hbound⟩ := scanNumeralFrom_carried L h htail
        rw [rowCarried, carried_of_bare (Bool.eq_false_iff.mpr hbare), hown, hinner]
        exact ⟨hstands, by omega⟩

end Formula
