import Formula.Proofs.Number.NumeralText
import Formula.Proofs.Reader.Worded

/-!
# Numerals of worded atoms

A numeral is read atom by atom.  `NumeralPart` says once what an atom may be that goes on with it: what it adds to the
characters, which state the scan is in behind it, and what then has to follow.

What a scan of a numeral leaves behind is the text of a number, with one exception: a sign behind the exponent marker
may carry scripts, and the scan ends behind an atom with scripts, so that the exponent is left without digits.  The
invariant of the scan is `Progress`: what has been read so far, and what the next atoms are bound to be.
-/

namespace Formula

open Number Text Atom Expr Outcome

namespace Atom

/-! ### The parts of a numeral -/

section Parts

variable {a : Atom} {behind : List Atom} {before : Bool} {state next : NumeralState} {added : List Char}

/-- An atom that goes on with a numeral, with the characters it adds and the state behind it. -/
inductive NumeralPart (before : Bool) (a : Atom) (behind : List Atom) : NumeralState → List Char → NumeralState → Prop
  | digit {t : String} (pointed : Bool) : a.isDigit = .ok true → a.text = .ok (.text t) →
    NumeralPart before a behind (.mantissa pointed) t.toList (.mantissa pointed)
  | point : a.isDigit = .ok false → a.type = .ordinary → a.text = .ok (.text ".") →
    NumeralPart before a behind (.mantissa false) ['.'] (.mantissa true)
  /-- A comma between digits is left out. -/
  | comma (pointed : Bool) : a.isDigit = .ok false → a.type = .punctuation ∨ a.type = .ordinary →
    a.text = .ok (.text ",") → before = true → startsWithDigit behind = .ok true →
    NumeralPart before a behind (.mantissa pointed) [] (.mantissa pointed)
  | marker {t : String} (pointed : Bool) : a.isDigit = .ok false → a.type = .ordinary → t ∈ exponentMarkers →
    a.text = .ok (.text t) → before = true → a.hasScripts = false → startsWithExponent behind = .ok true →
    NumeralPart before a behind (.mantissa pointed) ['e'] .sign
  | sign {s : String} : a.signOf? = .ok (some s) → NumeralPart before a behind .sign s.toList .exponent
  | exponent {state : NumeralState} {t : String} : (∀ pointed, state ≠ .mantissa pointed) → a.isDigit = .ok true →
    a.text = .ok (.text t) → NumeralPart before a behind state t.toList .exponent

theorem text_of_isDigit (h : a.isDigit = .ok true) : a.type = .ordinary ∧ ∃ t ∈ digits, a.text = .ok (.text t) := by
  by_cases ht : a.type = .ordinary
  · unfold isDigit at h
    rw [if_pos ht] at h
    obtain ⟨text, htext, h⟩ := bind_eq_ok.mp h
    obtain ⟨t, hmem, rfl⟩ := Datum.mem_of_isOneOf h
    exact ⟨ht, t, hmem, htext⟩
  · rw [isDigit_of_ne_ordinary ht] at h
    cases h

theorem type_of_signOf? {s : String} (h : a.signOf? = .ok (some s)) : a.type = .binary := by
  by_cases ht : a.type = .binary
  · exact ht
  · rw [signOf?_of_ne_binary ht] at h
    cases h

/-- A step of the scan goes on with a part of the numeral. -/
theorem numeralPart_of_step (h : numeralStep state before a behind = .ok (some (added, next))) :
    NumeralPart before a behind state added next := by
  have asked : ∀ {α β : Type} (p : Prop) [Decidable p] (r s : Outcome α) (k : α → Outcome β),
      (if p then r >>= k else s >>= k) = (if p then r else s) >>= k := by
    intros
    split <;> rfl
  rw [numeralStep, bind_eq_ok] at h
  obtain ⟨text, htext, h⟩ := h
  rw [bind_eq_ok] at h
  obtain ⟨digit, hdigit, h⟩ := h
  dsimp only at h
  rw [asked, bind_eq_ok] at h
  obtain ⟨marker, hmarker, h⟩ := h
  cases digit with
  | true =>
    obtain ⟨-, t, -, ht⟩ := text_of_isDigit hdigit
    obtain rfl : text = .text t := Except.ok.inj (htext.symm.trans ht)
    cases state with
    | mantissa pointed =>
      cases h
      exact .digit pointed hdigit ht
    | sign =>
      obtain ⟨sign, hsign, h⟩ := bind_eq_ok.mp h
      cases sign with
      | some s =>
        cases h
        exact .sign hsign
      | none =>
        cases h
        exact .exponent nofun hdigit ht
    | exponent =>
      cases h
      exact .exponent nofun hdigit ht
  | false =>
    cases state with
    | mantissa pointed =>
      dsimp only at h
      rw [if_neg (by decide)] at h
      split at h
      · rename_i hpoint
        simp only [Bool.and_eq_true, Bool.not_eq_true', decide_eq_true_eq] at hpoint
        obtain ⟨⟨htype, hpoint⟩, rfl⟩ := hpoint
        obtain rfl := Datum.eq_text_of_isText hpoint
        cases h
        exact .point hdigit htype htext
      split at h
      · rename_i hcomma
        simp only [Bool.and_eq_true, Bool.or_eq_true, decide_eq_true_eq] at hcomma
        obtain ⟨⟨hcomma, hbefore⟩, htype⟩ := hcomma
        obtain rfl := Datum.eq_text_of_isText hcomma
        obtain ⟨starts, hstarts, h⟩ := bind_eq_ok.mp h
        cases starts with
        | true =>
          cases h
          exact .comma pointed hdigit htype htext hbefore hstarts
        | false => cases h
      split at h
      · rename_i hexponent
        simp only [Bool.and_eq_true, Bool.not_eq_true'] at hexponent
        obtain ⟨⟨rfl, hbefore⟩, hbare⟩ := hexponent
        obtain ⟨starts, hstarts, h⟩ := bind_eq_ok.mp h
        cases starts with
        | true =>
          cases h
          split at hmarker
          · rename_i htype
            obtain ⟨t, hmem, rfl⟩ := Datum.mem_of_isOneOf hmarker
            exact .marker pointed hdigit htype hmem htext hbefore hbare hstarts
          · cases hmarker
        | false => cases h
      · cases h
    | sign =>
      obtain ⟨sign, hsign, h⟩ := bind_eq_ok.mp h
      cases sign with
      | some s =>
        cases h
        exact .sign hsign
      | none => cases h
    | exponent => cases h

/-- A marker is read only in front of an exponent. -/
theorem NumeralPart.startsWithExponent (h : NumeralPart before a behind state added next) (hnext : next = .sign) :
    startsWithExponent behind = .ok true := by
  cases h with
  | marker _ _ _ _ _ _ _ hstarts => exact hstarts
  | _ => cases hnext

end Parts

/-- The text of a numeral as far as it was read: a mantissa with a digit, and an exponent that may lack its digits. -/
structure NumeralForm (cs : List Char) : Prop where
  exists_parts : ∃ (pointed : Bool) (m x : List Char), IsMantissa pointed m ∧ m.any Char.isDigit = true ∧ cs = m ++ x ∧
    (IsExponent x ∨ ∃ s, (s = '+' ∨ s = '-') ∧ x = ['e', s])

/-- How far a scan has come: what it has read, and what has to follow. -/
def Progress (state : NumeralState) (cs : List Char) (atoms : List Atom) : Prop :=
  match state with
  | .mantissa pointed =>
    IsMantissa pointed cs ∧ (cs.any Char.isDigit = true ∨ startsWithDigit atoms = .ok true ∨
      (cs = [] ∧ Expr.startsNumber atoms = .ok true))
  | .sign => ∃ pointed m, IsMantissa pointed m ∧ m.any Char.isDigit = true ∧ cs = m ++ ['e'] ∧
      startsWithExponent atoms = .ok true
  | .exponent => ∃ pointed m x, IsMantissa pointed m ∧ m.any Char.isDigit = true ∧ cs = m ++ x ∧
      ((IsExponent x ∧ x ≠ []) ∨ ((∃ s, (s = '+' ∨ s = '-') ∧ x = ['e', s]) ∧ startsWithDigit atoms = .ok true))

/-! ### Single atoms of a numeral -/

/-- A digit is spelled by one character. -/
theorem chars_of_isDigit {a : Atom} {t : String} (ht : a.text = .ok (.text t)) (hd : a.isDigit = .ok true) :
    a.type = .ordinary ∧ ∃ d : Char, d.isDigit = true ∧ t.toList = [d] := by
  have each : ∀ s ∈ digits, ∃ d : Char, d.isDigit = true ∧ s.toList = [d] := by
    intro s hs
    simp only [digits, List.mem_cons, List.not_mem_nil, or_false] at hs
    rcases hs with rfl | rfl | rfl | rfl | rfl | rfl | rfl | rfl | rfl | rfl
    all_goals exact ⟨_, by decide, rfl⟩
  obtain ⟨htype, s, hmem, hs⟩ := text_of_isDigit hd
  obtain rfl : t = s := by
    cases Except.ok.inj (ht.symm.trans hs)
    rfl
  exact ⟨htype, each t hmem⟩

/-- A sign is written as a plus or as a minus. -/
theorem chars_of_signOf? {a : Atom} {s : String} (hs : a.signOf? = .ok (some s)) :
    a.type = .binary ∧ ∃ d : Char, (d = '+' ∨ d = '-') ∧ s.toList = [d] := by
  have htype := type_of_signOf? hs
  refine ⟨htype, ?_⟩
  rw [signOf?, if_pos htype, Outcome.bind_eq_ok] at hs
  obtain ⟨text, -, hs⟩ := hs
  obtain ⟨t, -, hmem⟩ := Datum.mem_of_lookup hs
  simp only [signs, List.mem_cons, List.not_mem_nil, or_false] at hmem
  rcases hmem with hmem | hmem | hmem
  · cases hmem
    exact ⟨'+', .inl rfl, rfl⟩
  · cases hmem
    exact ⟨'-', .inr rfl, rfl⟩
  · cases hmem
    exact ⟨'-', .inr rfl, rfl⟩

/-- What a step of the scan asks a worded atom. -/
theorem numeralStep_eq {a : Atom} {t : String} {digit : Bool} (ht : a.text = .ok (.text t))
    (hd : a.isDigit = .ok digit) (state : NumeralState) (before : Bool) (behind : List Atom) :
    numeralStep state before a behind =
      (match state with
        | .mantissa pointed =>
          if digit then .ok (some (t.toList, .mantissa pointed))
          else if a.type = .ordinary && t == "." && !pointed then .ok (some (t.toList, .mantissa true))
          else if t == "," && before && (a.type = .punctuation || a.type = .ordinary) then
            (startsWithDigit behind).map fun starts => if starts then some ([], .mantissa pointed) else none
          else if (decide (a.type = .ordinary) && exponentMarkers.contains t) && before && !a.hasScripts then
            (startsWithExponent behind).map fun starts => if starts then some (['e'], .sign) else none
          else .ok none
        | .sign => a.signOf?.map fun sign =>
          match sign with
          | some sign => some (sign.toList, .exponent)
          | none => if digit then some (t.toList, .exponent) else none
        | .exponent => .ok (if digit then some (t.toList, .exponent) else none)) := by
  have choose : ∀ (r : Outcome Bool) (v : List Char × NumeralState),
      (do if ← r then return some v else return none) = r.map fun starts => if starts then some v else none := by
    intro r v
    cases r with
    | error f => rfl
    | ok starts =>
      cases starts with
      | true => rfl
      | false => rfl
  unfold numeralStep
  rw [ht, hd]
  by_cases htype : a.type = .ordinary
  · simp only [htype]
    cases state with
    | mantissa pointed =>
      simp only [← choose]
      rfl
    | sign =>
      cases a.signOf? with
      | error f => rfl
      | ok sign =>
        cases sign with
        | none => rfl
        | some sign => rfl
    | exponent => rfl
  · cases state with
    | mantissa pointed =>
      simp only [← choose, htype]
      rfl
    | sign =>
      simp only [htype]
      cases a.signOf? with
      | error f => rfl
      | ok sign =>
        cases sign with
        | none => rfl
        | some sign => rfl
    | exponent =>
      simp only [htype]
      rfl

/-! ### The invariant of a scan -/

theorem any_append_left {m x : List Char} (h : m.any Char.isDigit = true) : (m ++ x).any Char.isDigit = true := by
  rw [List.any_append, h, Bool.true_or]

/-- A mantissa with a digit is the text of a numeral. -/
theorem NumeralForm.of_mantissa {pointed : Bool} {m : List Char} (hm : IsMantissa pointed m)
    (hd : m.any Char.isDigit = true) : NumeralForm m :=
  ⟨pointed, m, [], hm, hd, (List.append_nil m).symm, .inl (.inl rfl)⟩

theorem isDigit_of_startsWithDigit {a : Atom} {rest : List Atom} (h : startsWithDigit (a :: rest) = .ok true) :
    a.isDigit = .ok true := h

/-- A row that starts a number without a digit in front has a point there and a digit behind it. -/
theorem point_of_startsNumber {a : Atom} {rest : List Atom} {t : String} (ht : a.text = .ok (.text t))
    (h : Expr.startsNumber (a :: rest) = .ok true) (hd : a.isDigit = .ok false) :
    a.type = .ordinary ∧ t = "." ∧ a.hasScripts = false ∧ startsWithDigit rest = .ok true := by
  rw [Expr.startsNumber, hd] at h
  by_cases htype : a.type = .ordinary
  · rw [ht] at h
    change (if a.type = .ordinary then (if ((Datum.text t).isText "." && !a.hasScripts) = true then startsWithDigit rest
      else .ok false) else .ok false) = .ok true at h
    rw [if_pos htype] at h
    by_cases hpoint : ((Datum.text t).isText "." && !a.hasScripts) = true
    · rw [if_pos hpoint] at h
      rw [Bool.and_eq_true, Bool.not_eq_true'] at hpoint
      exact ⟨htype, of_decide_eq_true hpoint.1, hpoint.2, h⟩
    · rw [if_neg hpoint] at h
      cases h
  · change (if a.type = .ordinary then _ else Except.ok false) = Except.ok true at h
    rw [if_neg htype] at h
    cases h

/-- A row that starts an exponent without a digit in front has a sign there and a digit behind it. -/
theorem sign_of_startsWithExponent {a : Atom} {rest : List Atom} (h : startsWithExponent (a :: rest) = .ok true)
    (hd : a.isDigit = .ok false) : ∃ s, a.signOf? = .ok (some s) ∧ startsWithDigit rest = .ok true := by
  have hfirst : startsWithDigit (a :: rest) = .ok false := hd
  unfold startsWithExponent at h
  rw [hfirst] at h
  change (do match ← a.signOf? with
    | some _ => startsWithDigit rest
    | none => return false) = Except.ok true at h
  obtain ⟨found, hfound, h⟩ := Outcome.bind_eq_ok.mp h
  cases found with
  | none => cases h
  | some s => exact ⟨s, hfound, h⟩

/-- A step that adds nothing ends the numeral where it is well formed. -/
theorem NumeralForm.of_step_none {a : Atom} (hw : a.Worded) {state : NumeralState} {cs : List Char} {rest : List Atom}
    (h : Progress state cs (a :: rest)) (hstep : numeralStep state (!cs.isEmpty) a rest = .ok none) : NumeralForm cs := by
  obtain ⟨t, ht⟩ := hw.text
  obtain ⟨digit, hd⟩ := hw.isDigit
  rw [numeralStep_eq ht hd] at hstep
  cases state with
  | mantissa pointed =>
    obtain ⟨hm, hdigit | hnext | ⟨rfl, hstart⟩⟩ := h
    · exact .of_mantissa hm hdigit
    · rw [isDigit_of_startsWithDigit hnext] at hd
      cases hd
      cases hstep
    · cases digit with
      | true => cases hstep
      | false =>
        obtain ⟨htype, rfl, -, -⟩ := point_of_startsNumber ht hstart hd
        cases pointed with
        | false => simp [htype] at hstep
        | true =>
          obtain ⟨w, f, -, -, heq⟩ := hm
          cases w <;> cases heq
  | sign =>
    obtain ⟨pointed, m, hm, hdigit, rfl, hexp⟩ := h
    cases digit with
    | true =>
      obtain ⟨sign, -, hsign⟩ := Outcome.bind_eq_ok.mp hstep
      cases sign with
      | none => cases hsign
      | some s => cases hsign
    | false =>
      obtain ⟨s, hs, -⟩ := sign_of_startsWithExponent hexp hd
      rw [hs] at hstep
      cases hstep
  | exponent =>
    obtain ⟨pointed, m, x, hm, hdigit, rfl, ⟨hx, -⟩ | ⟨-, hnext⟩⟩ := h
    · exact ⟨pointed, m, x, hm, hdigit, rfl, .inl hx⟩
    · rw [isDigit_of_startsWithDigit hnext] at hd
      cases hd
      cases hstep

/-- Where an atom that is no digit goes on with a mantissa, there is a digit already, or the mantissa begins with its
point. -/
theorem Progress.begun {a : Atom} {t : String} {pointed : Bool} {cs : List Char} {rest : List Atom}
    (h : Progress (.mantissa pointed) cs (a :: rest)) (ht : a.text = .ok (.text t)) (hd : a.isDigit = .ok false) :
    cs.any Char.isDigit = true ∨ (cs = [] ∧ a.hasScripts = false ∧ startsWithDigit rest = .ok true) := by
  obtain ⟨-, hany | hnext | ⟨hcs, hstart⟩⟩ := h
  · exact .inl hany
  · rw [isDigit_of_startsWithDigit hnext] at hd
    cases hd
  · obtain ⟨-, -, hscripts, hnext⟩ := point_of_startsNumber ht hstart hd
    exact .inr ⟨hcs, hscripts, hnext⟩

/-- A step that adds something goes on with the numeral, or ends it behind an atom with scripts. -/
theorem Progress.step {a : Atom} {state next : NumeralState} {cs added : List Char} {rest : List Atom}
    (h : Progress state cs (a :: rest)) (hstep : numeralStep state (!cs.isEmpty) a rest = .ok (some (added, next))) :
    (a.hasScripts = true → NumeralForm (cs ++ added)) ∧ (a.hasScripts = false → Progress next (cs ++ added) rest) := by
  cases numeralPart_of_step hstep with
  | digit pointed hd ht =>
    obtain ⟨-, d, hdigit, hchars⟩ := chars_of_isDigit ht hd
    rw [hchars]
    have hm : IsMantissa pointed (cs ++ [d]) := h.1.snoc_digit hdigit
    have hany : (cs ++ [d]).any Char.isDigit = true := by simp [hdigit]
    exact ⟨fun _ => .of_mantissa hm hany, fun _ => ⟨hm, .inl hany⟩⟩
  | point hd _ ht =>
    have hm : IsMantissa true (cs ++ ['.']) := h.1.snoc_point
    rcases h.begun ht hd with hany | ⟨rfl, hscripts, hnext⟩
    · exact ⟨fun _ => .of_mantissa hm (any_append_left hany), fun _ => ⟨hm, .inl (any_append_left hany)⟩⟩
    · refine ⟨fun h => ?_, fun _ => ⟨hm, .inr (.inl hnext)⟩⟩
      rw [hscripts] at h
      cases h
  | comma pointed hd _ ht hbefore _ =>
    rw [List.append_nil]
    rcases h.begun ht hd with hany | ⟨rfl, -⟩
    · exact ⟨fun _ => .of_mantissa h.1 hany, fun _ => ⟨h.1, .inl hany⟩⟩
    · cases hbefore
  | marker pointed hd _ _ ht hbefore hbare hstarts =>
    rcases h.begun ht hd with hany | ⟨rfl, -⟩
    · refine ⟨fun hscripts => ?_, fun _ => ⟨pointed, cs, h.1, hany, rfl, hstarts⟩⟩
      rw [hbare] at hscripts
      cases hscripts
    · cases hbefore
  | sign hs =>
    obtain ⟨pointed, m, hm, hany, rfl, hexp⟩ := h
    obtain ⟨htype, d, hsign, hchars⟩ := chars_of_signOf? hs
    have hd := isDigit_of_ne_ordinary (a := a) (by rw [htype]; decide)
    obtain ⟨-, -, hnext⟩ := sign_of_startsWithExponent hexp hd
    rw [hchars, List.append_assoc]
    exact ⟨fun _ => ⟨pointed, m, _, hm, hany, rfl, .inr ⟨d, hsign, rfl⟩⟩,
      fun _ => ⟨pointed, m, _, hm, hany, rfl, .inr ⟨⟨d, hsign, rfl⟩, hnext⟩⟩⟩
  | exponent hstate hd ht =>
    obtain ⟨-, d, hdigit, hchars⟩ := chars_of_isDigit ht hd
    rw [hchars]
    cases state with
    | mantissa pointed => exact absurd rfl (hstate pointed)
    | sign =>
      obtain ⟨pointed, m, hm, hany, rfl, -⟩ := h
      have hx : IsExponent ['e', d] := .inr ⟨[d], by simp, by simp [hdigit], .inl rfl⟩
      rw [List.append_assoc]
      exact ⟨fun _ => ⟨pointed, m, _, hm, hany, rfl, .inl hx⟩, fun _ => ⟨pointed, m, _, hm, hany, rfl, .inl ⟨hx, by simp⟩⟩⟩
    | exponent =>
      obtain ⟨pointed, m, x, hm, hany, rfl, hx⟩ := h
      have hx' : IsExponent (x ++ [d]) := by
        rcases hx with ⟨hx, hne⟩ | ⟨⟨s, rfl | rfl, rfl⟩, -⟩
        · exact hx.snoc_digit hne hdigit
        · exact .inr ⟨[d], by simp, by simp [hdigit], .inr (.inl rfl)⟩
        · exact .inr ⟨[d], by simp, by simp [hdigit], .inr (.inr rfl)⟩
      rw [List.append_assoc]
      exact ⟨fun _ => ⟨pointed, m, _, hm, hany, rfl, .inl hx'⟩,
        fun _ => ⟨pointed, m, _, hm, hany, rfl, .inl ⟨hx', by simp⟩⟩⟩

/-- A scan of worded atoms leaves the text of a numeral behind. -/
theorem scanNumeralFrom_form : ∀ {atoms : List Atom} {state : NumeralState} {chars : List Char} {last : Option Atom}
    {numeral : NumeralReading}, (∀ a ∈ atoms, a.Worded) → Progress state chars.reverse atoms →
    scanNumeralFrom state chars last atoms = .ok numeral → NumeralForm numeral.chars
  | [], state, chars, last, numeral, _, hp, h => by
    rw [scanNumeralFrom] at h
    cases h
    cases state with
    | mantissa pointed =>
      obtain ⟨hm, hany | hnext | ⟨-, hstart⟩⟩ := hp
      · exact .of_mantissa hm hany
      · cases hnext
      · cases hstart
    | sign =>
      obtain ⟨-, -, -, -, -, hexp⟩ := hp
      cases hexp
    | exponent =>
      obtain ⟨pointed, m, x, hm, hany, heq, ⟨hx, -⟩ | ⟨-, hnext⟩⟩ := hp
      · exact ⟨pointed, m, x, hm, hany, heq, .inl hx⟩
      · cases hnext
  | a :: rest, state, chars, last, numeral, hw, hp, h => by
    rw [scanNumeralFrom] at h
    obtain ⟨found, hstep, h⟩ := Outcome.bind_eq_ok.mp h
    have hempty : (!chars.isEmpty) = !chars.reverse.isEmpty := by rw [List.isEmpty_reverse]
    rw [hempty] at hstep
    cases found with
    | none =>
      cases h
      exact .of_step_none (hw a List.mem_cons_self) hp hstep
    | some found =>
      obtain ⟨added, next⟩ := found
      obtain ⟨hend, hon⟩ := hp.step hstep
      have hchars : (added.reverse ++ chars).reverse = chars.reverse ++ added := by
        rw [List.reverse_append, List.reverse_reverse]
      change (if a.hasScripts = true then _ else _) = _ at h
      by_cases hscripts : a.hasScripts = true
      · rw [if_pos hscripts] at h
        cases h
        dsimp only
        rw [hchars]
        exact hend hscripts
      · rw [if_neg hscripts] at h
        refine scanNumeralFrom_form (fun b hb => hw b (List.mem_cons_of_mem _ hb)) ?_ h
        rw [hchars]
        exact hon (Bool.eq_false_iff.mpr hscripts)

/-- **What a scan takes from the start of a number is a numeral, of which only the digits of the exponent may be
missing.** -/
theorem scanNumeral_form {atoms : List Atom} {numeral : NumeralReading} (hw : ∀ a ∈ atoms, a.Worded)
    (hstart : Expr.startsNumber atoms = .ok true) (h : scanNumeral atoms = .ok numeral) : NumeralForm numeral.chars :=
  have start : Progress (.mantissa false) [] atoms := ⟨rfl, .inr (.inr ⟨rfl, hstart⟩)⟩
  scanNumeralFrom_form hw start h

/-! ### A scan of worded atoms has an answer -/

theorem startsWithDigit_worded : ∀ {row : List Atom}, (∀ a ∈ row, a.Worded) → ∃ is, startsWithDigit row = .ok is
  | [], _ => ⟨_, rfl⟩
  | a :: _, h => (h a List.mem_cons_self).isDigit

theorem startsWithExponent_worded {row : List Atom} (h : ∀ a ∈ row, a.Worded) :
    ∃ is, startsWithExponent row = .ok is := by
  obtain ⟨digit, hd⟩ := startsWithDigit_worded h
  unfold startsWithExponent
  rw [hd]
  cases digit with
  | true => exact ⟨_, rfl⟩
  | false =>
    cases row with
    | nil => exact ⟨_, rfl⟩
    | cons a rest =>
      obtain ⟨s, hs⟩ := (h a List.mem_cons_self).signOf?
      obtain ⟨next, hnext⟩ := startsWithDigit_worded fun b hb => h b (List.mem_cons_of_mem _ hb)
      show ∃ is, (do match ← a.signOf? with
        | some _ => startsWithDigit rest
        | none => return false) = Except.ok is
      rw [hs]
      cases s with
      | none => exact ⟨_, rfl⟩
      | some s => exact ⟨next, hnext⟩

theorem startsNumber_worded : ∀ {row : List Atom}, (∀ a ∈ row, a.Worded) → ∃ is, Expr.startsNumber row = .ok is
  | [], _ => ⟨_, rfl⟩
  | a :: rest, h => by
    obtain ⟨digit, hd⟩ := (h a List.mem_cons_self).isDigit
    obtain ⟨t, ht⟩ := (h a List.mem_cons_self).text
    obtain ⟨next, hnext⟩ := startsWithDigit_worded fun b hb => h b (List.mem_cons_of_mem _ hb)
    rw [Expr.startsNumber, hd, ht, hnext]
    cases digit with
    | true => exact ⟨_, rfl⟩
    | false =>
      show ∃ is, (if a.type = .ordinary then
        (if ((Datum.text t).isText "." && !a.hasScripts) = true then Except.ok next else Except.ok false)
        else Except.ok false) = Except.ok is
      split
      · split
        · exact ⟨_, rfl⟩
        · exact ⟨_, rfl⟩
      · exact ⟨_, rfl⟩

theorem numeralStep_worded {a : Atom} {rest : List Atom} (hw : a.Worded) (hrest : ∀ b ∈ rest, b.Worded)
    (state : NumeralState) (before : Bool) : ∃ found, numeralStep state before a rest = .ok found := by
  obtain ⟨t, ht⟩ := hw.text
  obtain ⟨digit, hd⟩ := hw.isDigit
  obtain ⟨next, hnext⟩ := startsWithDigit_worded hrest
  obtain ⟨exp, hexp⟩ := startsWithExponent_worded hrest
  obtain ⟨s, hs⟩ := hw.signOf?
  rw [numeralStep_eq ht hd, hnext, hexp, hs]
  cases state with
  | mantissa pointed =>
    dsimp only
    split
    · exact ⟨_, rfl⟩
    · split
      · exact ⟨_, rfl⟩
      · split
        · exact ⟨_, rfl⟩
        · split
          · exact ⟨_, rfl⟩
          · exact ⟨_, rfl⟩
  | sign => exact ⟨_, rfl⟩
  | exponent => exact ⟨_, rfl⟩

theorem scanNumeralFrom_worded : ∀ {atoms : List Atom} (state : NumeralState) (chars : List Char) (last : Option Atom),
    (∀ a ∈ atoms, a.Worded) → ∃ numeral, scanNumeralFrom state chars last atoms = .ok numeral
  | [], _, _, _, _ => ⟨_, rfl⟩
  | a :: rest, state, chars, last, hw => by
    have hrest : ∀ b ∈ rest, b.Worded := fun b hb => hw b (List.mem_cons_of_mem _ hb)
    obtain ⟨found, hstep⟩ := numeralStep_worded (hw a List.mem_cons_self) hrest state (!chars.isEmpty)
    rw [scanNumeralFrom, hstep]
    cases found with
    | none => exact ⟨_, rfl⟩
    | some found =>
      obtain ⟨numeral, h⟩ := scanNumeralFrom_worded found.2 (found.1.reverse ++ chars) (some a) hrest
      show ∃ numeral, (if a.hasScripts = true then _ else _) = _
      split
      · exact ⟨_, rfl⟩
      · exact ⟨numeral, h⟩

theorem scanNumeral_worded {atoms : List Atom} (hw : ∀ a ∈ atoms, a.Worded) :
    ∃ numeral, scanNumeral atoms = .ok numeral := scanNumeralFrom_worded _ _ _ hw

end Atom

/-! ### Literals -/

/-- The literal of a numeral that was read. -/
theorem literalOf_of_readDouble {cs : List Char} {x : Double} (h : readDouble (String.ofList cs) = some x) :
    literalOf cs = .ok (ofNumber (.float x)) := by
  unfold literalOf Datum.toDouble
  simp only [h]
  rfl

theorem literalOf_of_none {cs : List Char} (h : readDouble (String.ofList cs) = none) :
    literalOf cs = .error (.unreadableNumber (quoted (String.ofList cs))) := by
  unfold literalOf Datum.toDouble
  simp only [h]
  rfl

/-- A literal that was read is a floating-point number. -/
theorem literalOf_eq_ok {cs : List Char} {e : Expr} (h : literalOf cs = .ok e) : ∃ x, e = ofNumber (.float x) := by
  unfold literalOf at h
  obtain ⟨x, -, h⟩ := Outcome.bind_eq_ok.mp h
  cases h
  exact ⟨x, rfl⟩

end Formula
