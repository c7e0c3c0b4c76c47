import Formula.Source
import Formula.Proofs.Source.Scanning

/-!
# Pieces of sources and their atoms

The reader of sources keeps the atoms that it has read in reverse order and goes on behind them.  `Yields` says of a row
of tokens that it adds some atoms to those in front, whatever follows and wherever it stands but in the index of a root, and
`Spells` says the same of a text.  Texts that spell atoms are put together as sources are: one behind the other, as scripts of the last atom in
front, as the parts of fractions and roots, and between `\left` and `\right`.
-/

namespace Formula.Source

open Text

variable {c : Catalog}

/-! ### Rows of tokens -/

/-- The tokens add the atoms to those read before, and leave enough fuel for what follows.  In the index of a root a bracket
would end the row. -/
def Yields (c : Catalog) (tokens : List Token) (row : List Atom) : Prop :=
  ∀ (stop : Stop) (before : List Atom) (depth : Nat) (rest : List Token) (fuel : Nat), stop ≠ .bracket →
    4 * (tokens ++ rest).length ≤ fuel →
    ∃ fuel' depth', 4 * rest.length ≤ fuel' ∧
      readSequence c fuel stop before depth (tokens ++ rest) =
        readSequence c fuel' stop (row.reverse ++ before) depth' rest

theorem Yields.nil : Yields c [] [] := fun _ _ depth _ fuel _ h => ⟨fuel, depth, h, rfl⟩

theorem Yields.append {tokens more : List Token} {row row' : List Atom} (h : Yields c tokens row)
    (h' : Yields c more row') : Yields c (tokens ++ more) (row ++ row') := by
  intro stop before depth rest fuel hstop hfuel
  rw [List.append_assoc] at hfuel ⊢
  obtain ⟨fuel₁, depth₁, hfuel₁, heq⟩ := h stop before depth (more ++ rest) fuel hstop hfuel
  obtain ⟨fuel₂, depth₂, hfuel₂, heq'⟩ := h' stop (row.reverse ++ before) depth₁ rest fuel₁ hstop hfuel₁
  refine ⟨fuel₂, depth₂, hfuel₂, ?_⟩
  rw [heq, heq', List.reverse_append, List.append_assoc]

/-- Without fuel and without tokens a sequence is at its end. -/
theorem readSequence_nil (fuel : Nat) (stop : Stop) (before : List Atom) (depth : Nat) :
    readSequence c fuel stop before depth [] = .ok ⟨[], before.reverse, depth⟩ := by
  cases fuel with
  | zero => rw [readSequence]
  | succ fuel => rw [readSequence]

theorem Yields.readTokens {tokens : List Token} {row : List Atom} (h : Yields c tokens row) :
    ∃ depth, readTokens c tokens = .ok ⟨[], row, depth⟩ := by
  obtain ⟨fuel, depth, -, heq⟩ := h .sourceEnd [] 0 [] (4 * tokens.length + 4) (by decide) (by rw [List.append_nil]; omega)
  rw [List.append_nil, List.append_nil, readSequence_nil, List.reverse_reverse] at heq
  exact ⟨depth, heq⟩

/-! ### Single tokens -/

/-- The token starts an atom wherever it stands, a bracket outside of the index of a root: it ends no sequence, introduces no
script and no group, and marks no digits. -/
def StartsAtom (token : Token) : Prop :=
  token ∉ [Token.char '\x7d', .char '\x7b', .command "right", .command "overline"] ∧
    scriptOf? token = none ∧ ellipses.contains token.text = false

instance : DecidablePred StartsAtom := fun _ => inferInstanceAs (Decidable (_ ∧ _))

theorem readBlock_none {token : Token} (h : token ≠ .command "overline") (fuel : Nat) (before : List Atom)
    (rest : List Token) : readBlock c fuel before token rest = .ok none := by
  cases fuel with
  | zero => rw [readBlock]
  | succ fuel => rw [readBlock, if_neg fun hc => h hc.1]

theorem readSequence_atom {token : Token} (h : StartsAtom token) {fuel : Nat} {rest : List Token}
    {read : Reading (Option Atom)} (hread : readAtom c fuel token rest = .ok read) {stop : Stop} (hstop : stop ≠ .bracket)
    (before : List Atom) (depth : Nat) :
    readSequence c (fuel + 1) stop before depth (token :: rest) =
      readSequence c fuel stop (read.value.toList ++ before) (max depth read.depth) read.rest := by
  obtain ⟨hne, hscript, hellipsis⟩ := h
  simp only [List.mem_cons, List.not_mem_nil, or_false, not_or] at hne
  obtain ⟨hclose, hopen, hright, hoverline⟩ := hne
  rw [readSequence, if_neg hclose, if_neg fun hc => hstop hc.2, if_neg hright, hscript]
  dsimp only
  rw [if_neg hopen, readBlock_none hoverline, hread, hellipsis]
  rfl

/-- The token is a character or a command that the reader itself gives no meaning, so that the catalog says what it is. -/
def IsSymbol (token : Token) : Prop :=
  StartsAtom token ∧ ignored.contains token.text = false ∧ spaces.contains token.text = false ∧
    fractions.contains token.text = false ∧ token.text ≠ "\\sqrt" ∧ token.text ≠ "\\left" ∧
    sizes.contains token.text = false ∧ fonts.lookup token.text = none

instance : DecidablePred IsSymbol := fun _ => inferInstanceAs (Decidable (_ ∧ _))

/-- The token keeps no argument as it is written. -/
def isBare : Token → Bool
  | .verbatim .. => false
  | _ => true

theorem readAtom_symbol {token : Token} (h : IsSymbol token) (hbare : isBare token = true) {a : Atom}
    (ha : symbolAtom c token.text = .ok a) (fuel : Nat) (rest : List Token) :
    readAtom c (fuel + 1) token rest = .ok ⟨rest, some a, 0⟩ := by
  obtain ⟨-, hignored, hspace, hfraction, hroot, hleft, hsize, hfont⟩ := h
  rw [readAtom.eq_def]
  cases token with
  | verbatim name content => cases hbare
  | _ =>
    simp only [hignored, hspace, hfraction, hroot, hleft, hsize, hfont, ha, Bool.false_eq_true, if_false]
    rfl

/-- A token of the catalog is its atom. -/
theorem yields_symbol {token : Token} (h : IsSymbol token) (hbare : isBare token = true) {a : Atom}
    (ha : symbolAtom c token.text = .ok a) : Yields c [token] [a] := by
  intro stop before depth rest fuel hstop hfuel
  obtain ⟨fuel, rfl⟩ : ∃ n, fuel = n + 2 := ⟨fuel - 2, by simp only [List.singleton_append, List.length_cons] at hfuel; omega⟩
  refine ⟨fuel + 1, max depth 0, ?_, ?_⟩
  · simp only [List.singleton_append, List.length_cons] at hfuel
    omega
  · exact readSequence_atom h.1 (readAtom_symbol h hbare ha fuel rest) hstop before depth

/-- A command of space is an atom of its own. -/
theorem yields_space {name : String} (h : StartsAtom (.command name)) (hi : ignored.contains ("\\" ++ name) = false)
    (hs : spaces.contains ("\\" ++ name) = true) :
    Yields c [.command name] [{ type := .spacing, latex := "\\" ++ name }] := by
  intro stop before depth rest fuel hstop hfuel
  obtain ⟨fuel, rfl⟩ : ∃ n, fuel = n + 2 := ⟨fuel - 2, by simp only [List.singleton_append, List.length_cons] at hfuel; omega⟩
  have hread : readAtom c (fuel + 1) (.command name) rest =
      .ok ⟨rest, some { type := .spacing, latex := "\\" ++ name }, 0⟩ := by
    rw [readAtom.eq_def]
    simp only [Token.text, hi, hs, Bool.false_eq_true, if_false, if_true]
    rfl
  refine ⟨fuel + 1, max depth 0, ?_, readSequence_atom h hread hstop before depth⟩
  simp only [List.singleton_append, List.length_cons] at hfuel
  omega

/-! ### Groups between braces -/

/-- A row between braces. -/
def inBraces (tokens : List Token) : List Token := .char '\x7b' :: (tokens ++ [.char '\x7d'])

/-- A row is read up to the brace that closes it. -/
theorem Yields.readSequence_brace {tokens : List Token} {row : List Atom} (h : Yields c tokens row) (rest : List Token)
    (fuel : Nat) (hfuel : 4 * (tokens ++ .char '\x7d' :: rest).length ≤ fuel) :
    ∃ depth, readSequence c fuel .brace [] 0 (tokens ++ .char '\x7d' :: rest) = .ok ⟨rest, row, depth⟩ := by
  obtain ⟨fuel', depth, hfuel', heq⟩ := h .brace [] 0 _ fuel (by decide) hfuel
  obtain ⟨fuel', rfl⟩ : ∃ n, fuel' = n + 1 := ⟨fuel' - 1, by rw [List.length_cons] at hfuel'; omega⟩
  rw [List.append_nil, readSequence, if_pos rfl, if_pos rfl, List.reverse_reverse] at heq
  exact ⟨depth, heq⟩

/-- A row between braces is one argument. -/
theorem Yields.readArgument {tokens : List Token} {row : List Atom} (h : Yields c tokens row) (rest : List Token)
    (fuel : Nat) (hfuel : 4 * (inBraces tokens ++ rest).length ≤ fuel + 3) :
    ∃ depth, readArgument c fuel (inBraces tokens ++ rest) = .ok ⟨rest, row, depth⟩ := by
  have hcons : inBraces tokens ++ rest = .char '\x7b' :: (tokens ++ .char '\x7d' :: rest) := by
    rw [inBraces, List.cons_append, List.append_assoc, List.singleton_append]
  rw [hcons] at hfuel ⊢
  rw [List.length_cons] at hfuel
  obtain ⟨fuel, rfl⟩ : ∃ n, fuel = n + 1 := ⟨fuel - 1, by omega⟩
  obtain ⟨depth, heq⟩ := h.readSequence_brace rest fuel (by omega)
  refine ⟨depth + 1, ?_⟩
  rw [Source.readArgument, if_pos rfl, heq]
  rfl

/-- Braces on their own make no atom: the row between them stands where they are. -/
theorem Yields.group {tokens : List Token} {row : List Atom} (h : Yields c tokens row) : Yields c (inBraces tokens) row := by
  intro stop before depth rest fuel hstop hfuel
  have hcons : inBraces tokens ++ rest = .char '\x7b' :: (tokens ++ .char '\x7d' :: rest) := by
    rw [inBraces, List.cons_append, List.append_assoc, List.singleton_append]
  rw [hcons] at hfuel ⊢
  rw [List.length_cons] at hfuel
  obtain ⟨fuel, rfl⟩ : ∃ n, fuel = n + 1 := ⟨fuel - 1, by omega⟩
  obtain ⟨depth', heq⟩ := h.readSequence_brace rest fuel (by omega)
  refine ⟨fuel, max depth (depth' + 1), ?_, ?_⟩
  · rw [List.length_append, List.length_cons] at hfuel
    omega
  · rw [readSequence, if_neg (by decide), if_neg (fun h => absurd h.1 (by decide)), if_neg (by decide)]
    show (if Token.char '\x7b' = .char '\x7b' then _ else _) = _
    rw [if_pos rfl, heq]
    rfl

/-! ### Scripts -/

/-- The token that introduces a script. -/
def Script.token : Script → Token
  | .super => .char '^'
  | .sub => .char '_'

/-- The atom takes a script: it is of a type that does, and has none of the kind. -/
def Script.Fits (s : Script) (a : Atom) : Prop := s.get a = none ∧ a.type ∉ Script.refused

theorem Script.attach_of_fits {s : Script} {a : Atom} (h : s.Fits a) (before script : List Atom) :
    s.attach (a :: before) script = s.set a script :: before := by
  have hrefused : Script.refused.contains a.type = false := by
    rw [← Bool.not_eq_true, List.contains_iff_mem]
    exact h.2
  rw [Script.attach, h.1, hrefused]
  rfl

/-- An atom that takes no script has a placeholder put behind it. -/
theorem Script.attach_of_not_fits {s : Script} {a : Atom} (h : ¬ s.Fits a) (script : List Atom) :
    s.attach [a] script = [s.set { type := .ordinary, value := zeroWidth } script, a] := by
  unfold Script.attach
  dsimp only
  rw [if_neg]
  simpa [Script.Fits, Option.isNone_iff_eq_none] using h

/-- What stands in front of the last atom plays no part. -/
theorem Script.attach_cons (s : Script) (a : Atom) (before script : List Atom) :
    s.attach (a :: before) script = s.attach [a] script ++ before := by
  unfold Script.attach
  dsimp only
  split <;> rfl

theorem readSequence_script (s : Script) {fuel : Nat} {rest : List Token} {read : Reading (List Atom)}
    (hread : readArgument c fuel rest = .ok read) (stop : Stop) (before : List Atom) (depth : Nat) :
    readSequence c (fuel + 1) stop before depth (s.token :: rest) =
      readSequence c fuel stop (s.attach before read.value) (max depth read.depth) read.rest := by
  cases s with
  | super =>
    rw [readSequence, if_neg (by decide), if_neg (fun h => absurd h.1 (by decide)), if_neg (by decide)]
    show (readArgument c fuel rest >>= _) = _
    rw [hread]
    rfl
  | sub =>
    rw [readSequence, if_neg (by decide), if_neg (fun h => absurd h.1 (by decide)), if_neg (by decide)]
    show (readArgument c fuel rest >>= _) = _
    rw [hread]
    rfl

/-- A script is attached to the last atom in front, or to a placeholder behind it. -/
theorem Yields.attach {tokens inner : List Token} {row script : List Atom} {a : Atom} (s : Script)
    (h : Yields c tokens (row ++ [a])) (hinner : Yields c inner script) :
    Yields c (tokens ++ s.token :: inBraces inner) (row ++ (s.attach [a] script).reverse) := by
  intro stop before depth rest fuel hstop hfuel
  rw [List.append_assoc, List.cons_append] at hfuel ⊢
  obtain ⟨fuel₁, depth₁, hfuel₁, heq⟩ := h stop before depth (s.token :: (inBraces inner ++ rest)) fuel hstop hfuel
  rw [List.length_cons] at hfuel₁
  obtain ⟨fuel₁, rfl⟩ : ∃ n, fuel₁ = n + 1 := ⟨fuel₁ - 1, by omega⟩
  obtain ⟨depth₂, hread⟩ := hinner.readArgument rest fuel₁ (by omega)
  refine ⟨fuel₁, max depth₁ depth₂, ?_, ?_⟩
  · rw [List.length_append] at hfuel₁
    omega
  · rw [heq, readSequence_script s hread, List.reverse_append, List.reverse_singleton, List.singleton_append,
      List.cons_append, s.attach_cons, List.reverse_append, List.reverse_reverse, List.append_assoc]

/-! ### Constructs -/

/-- A construct is an atom of its own, if its parts are read with the fuel behind its command. -/
theorem yields_construct {token : Token} (h : StartsAtom token) {tokens : List Token} {a : Atom}
    (hread : ∀ rest fuel, 4 * (tokens ++ rest).length ≤ fuel →
      ∃ depth, readAtom c (fuel + 1) token (tokens ++ rest) = .ok ⟨rest, some a, depth⟩) :
    Yields c (token :: tokens) [a] := by
  intro stop before depth rest fuel hstop hfuel
  rw [List.cons_append] at hfuel ⊢
  rw [List.length_cons] at hfuel
  obtain ⟨fuel, rfl⟩ : ∃ n, fuel = n + 2 := ⟨fuel - 2, by omega⟩
  obtain ⟨depth', hatom⟩ := hread rest fuel (by omega)
  refine ⟨fuel + 1, max depth depth', ?_, readSequence_atom h hatom hstop before depth⟩
  rw [List.length_append] at hfuel
  omega

/-- The atom of a fraction. -/
def fractionAtom (numerator denominator : List Atom) : Atom where
  type := .fraction
  latex := "\\frac"
  numerator := some numerator
  denominator := some denominator

theorem Yields.fraction {above below : List Token} {numerator denominator : List Atom} (h : Yields c above numerator)
    (h' : Yields c below denominator) :
    Yields c (.command "frac" :: (inBraces above ++ inBraces below)) [fractionAtom numerator denominator] := by
  refine yields_construct (by decide) fun rest fuel hfuel => ?_
  rw [List.append_assoc] at hfuel ⊢
  obtain ⟨depth, hn⟩ := h.readArgument (inBraces below ++ rest) fuel (by omega)
  obtain ⟨depth', hd⟩ := h'.readArgument rest fuel (by rw [List.length_append] at hfuel; omega)
  refine ⟨max depth depth', ?_⟩
  rw [readAtom.eq_def]
  show (do
    let numerator ← Source.readArgument c fuel (inBraces above ++ (inBraces below ++ rest))
    let denominator ← Source.readArgument c fuel numerator.rest
    return (⟨denominator.rest, some (fractionAtom numerator.value denominator.value),
      max numerator.depth denominator.depth⟩ : Reading (Option Atom))) = _
  rw [hn]
  show (Source.readArgument c fuel (inBraces below ++ rest) >>= _) = _
  rw [hd]
  rfl

/-- The atom of a square root. -/
def radicalAtom (body : List Atom) : Atom where
  type := .radical
  latex := "\\sqrt"
  body := some body

theorem Yields.radical {tokens : List Token} {body : List Atom} (h : Yields c tokens body) :
    Yields c (.command "sqrt" :: inBraces tokens) [radicalAtom body] := by
  refine yields_construct (by decide) fun rest fuel hfuel => ?_
  obtain ⟨depth, hb⟩ := h.readArgument rest fuel (by omega)
  have hindex : readIndex c fuel (inBraces tokens ++ rest) = .ok ⟨inBraces tokens ++ rest, none, 0⟩ := by
    cases fuel with
    | zero => rw [readIndex]
    | succ fuel =>
      rw [readIndex]
      exact fun _ hbracket => by cases hbracket
  refine ⟨max 0 depth, ?_⟩
  rw [readAtom.eq_def]
  show (readIndex c fuel (inBraces tokens ++ rest) >>= _) = _
  rw [hindex]
  show (Source.readArgument c fuel (inBraces tokens ++ rest) >>= _) = _
  rw [hb]
  rfl

/-- The atom of a font. -/
def fontAtom (command font : String) (body : List Atom) : Atom where
  type := .font
  latex := command
  body := some body
  font := font

theorem Yields.font {name font : String} {tokens : List Token} {body : List Atom} (hfont : ("\\" ++ name, font) ∈ fonts)
    (h : Yields c tokens body) : Yields c (.command name :: inBraces tokens) [fontAtom ("\\" ++ name) font body] := by
  have hfacts : ∀ p ∈ fonts, p.1 ∉ ignored ∧ p.1 ∉ spaces ∧ p.1 ∉ fractions ∧ p.1 ≠ "\\sqrt" ∧ p.1 ≠ "\\left" ∧ p.1 ∉ sizes ∧
      fonts.lookup p.1 = some p.2 ∧ p.1 ∉ ellipses ∧ p.1 ≠ "\\right" ∧ p.1 ≠ "\\overline" := by decide
  obtain ⟨hignored, hspace, hfraction, hroot, hleft, hsize, hlookup, hellipsis, hright, hoverline⟩ := hfacts _ hfont
  have hstarts : StartsAtom (.command name) := by
    refine ⟨?_, rfl, by rw [← Bool.not_eq_true, List.contains_iff_mem]; exact hellipsis⟩
    simp only [List.mem_cons, List.not_mem_nil, or_false, not_or, reduceCtorEq, not_false_eq_true, true_and, Token.command.injEq]
    exact ⟨fun heq => hright (by rw [heq]; rfl), fun heq => hoverline (by rw [heq]; rfl)⟩
  refine yields_construct hstarts fun rest fuel hfuel => ?_
  obtain ⟨depth, hb⟩ := h.readArgument rest fuel (by omega)
  refine ⟨depth, ?_⟩
  rw [readAtom.eq_def]
  simp only [Token.text, List.contains_iff_mem, hignored, hspace, hfraction, hroot, hleft, hsize, hlookup, hb, if_false]
  rfl

/-- The atom of a fence between `\left` and `\right`. -/
def fencedAtom (left right : String) (body : List Atom) : Atom where
  type := .fenced
  body := some body
  leftDelim := left
  rightDelim := right

theorem Yields.fenced {tokens : List Token} {body : List Atom} (left right : Token) (h : Yields c tokens body) :
    Yields c (.command "left" :: left :: (tokens ++ [.command "right", right])) [fencedAtom left.text right.text body] := by
  refine yields_construct (by decide) fun rest fuel hfuel => ?_
  have hassoc : tokens ++ [.command "right", right] ++ rest = tokens ++ .command "right" :: right :: rest := by
    rw [List.append_assoc, List.cons_append, List.singleton_append]
  rw [List.cons_append, hassoc] at hfuel ⊢
  rw [List.length_cons] at hfuel
  obtain ⟨fuel', depth, hfuel', heq⟩ := h .right [] 0 (.command "right" :: right :: rest) fuel (by decide) (by omega)
  obtain ⟨fuel', rfl⟩ : ∃ n, fuel' = n + 1 := ⟨fuel' - 1, by rw [List.length_cons] at hfuel'; omega⟩
  have hbody : readSequence c fuel .right [] 0 (tokens ++ .command "right" :: right :: rest) =
      .ok ⟨.command "right" :: right :: rest, body, depth⟩ := by
    rw [heq, readSequence, if_neg (by decide), if_neg (fun h => absurd h.1 (by decide)), if_pos rfl, if_neg (by decide),
      List.append_nil, List.reverse_reverse]
  refine ⟨depth + 1, ?_⟩
  rw [readAtom.eq_def]
  show (readSequence c fuel .right [] 0 (tokens ++ .command "right" :: right :: rest) >>= _) = _
  rw [hbody]
  rfl

/-! ### Texts -/

/-- The text adds the atoms to those in front of it, whatever follows, and wherever it stands but in the index of a root. -/
def Spells (c : Catalog) (s : String) (row : List Atom) : Prop :=
  ∃ tokens, Token.Scans s.toList tokens ∧ Yields c tokens row

/-- **A text is read as the atoms that it spells.** -/
theorem Spells.atoms {s : String} {row : List Atom} (h : Spells c s row) : atoms c s = .ok row := by
  obtain ⟨tokens, hscans, hyields⟩ := h
  obtain ⟨depth, hread⟩ := hyields.readTokens
  unfold Source.atoms read
  rw [hscans.scan, hread]
  rfl

theorem Spells.append {s t : String} {row row' : List Atom} (h : Spells c s row) (h' : Spells c t row') :
    Spells c (s ++ t) (row ++ row') := by
  obtain ⟨tokens, hscans, hyields⟩ := h
  obtain ⟨more, hscans', hyields'⟩ := h'
  exact ⟨_, by rw [String.toList_append]; exact hscans.append hscans', hyields.append hyields'⟩

/-- The text adds the atoms to those in front of it, if no letter follows it, as at the end of a source. -/
def SpellsBefore (c : Catalog) (s : String) (row : List Atom) : Prop :=
  ∃ tokens, Token.ScansBefore s.toList tokens ∧ Yields c tokens row

/-- The text begins with a character that is no letter, so that the name of a command may end in front of it. -/
def StartsApart (s : String) : Prop := ∃ d ds, s.toList = d :: ds ∧ isLetter d = false

theorem StartsApart.append {s : String} (h : StartsApart s) (t : String) : StartsApart (s ++ t) := by
  obtain ⟨d, ds, hs, hd⟩ := h
  exact ⟨d, ds ++ t.toList, by rw [String.toList_append, hs, List.cons_append], hd⟩

theorem Spells.before {s : String} {row : List Atom} (h : Spells c s row) : SpellsBefore c s row := by
  obtain ⟨tokens, hscans, hyields⟩ := h
  exact ⟨tokens, hscans.before, hyields⟩

theorem SpellsBefore.atoms {s : String} {row : List Atom} (h : SpellsBefore c s row) : atoms c s = .ok row := by
  obtain ⟨tokens, hscans, hyields⟩ := h
  obtain ⟨depth, hread⟩ := hyields.readTokens
  unfold Source.atoms read
  rw [hscans.scan, hread]
  rfl

theorem Spells.append_before {s t : String} {row row' : List Atom} (h : Spells c s row) (h' : SpellsBefore c t row') :
    SpellsBefore c (s ++ t) (row ++ row') := by
  obtain ⟨tokens, hscans, hyields⟩ := h
  obtain ⟨more, hscans', hyields'⟩ := h'
  exact ⟨_, by rw [String.toList_append]; exact hscans.append_before hscans', hyields.append hyields'⟩

theorem SpellsBefore.append_before {s t : String} {row row' : List Atom} (h : SpellsBefore c s row)
    (h' : SpellsBefore c t row') (ht : StartsApart t) : SpellsBefore c (s ++ t) (row ++ row') := by
  obtain ⟨tokens, hscans, hyields⟩ := h
  obtain ⟨more, hscans', hyields'⟩ := h'
  obtain ⟨d, ds, hcs, hd⟩ := ht
  rw [hcs] at hscans'
  exact ⟨_, by rw [String.toList_append, hcs]; exact hscans.append hd hscans', hyields.append hyields'⟩

theorem SpellsBefore.append {s t : String} {row row' : List Atom} (h : SpellsBefore c s row) (h' : Spells c t row')
    (ht : StartsApart t) : Spells c (s ++ t) (row ++ row') := by
  obtain ⟨tokens, hscans, hyields⟩ := h
  obtain ⟨more, hscans', hyields'⟩ := h'
  obtain ⟨d, ds, hcs, hd⟩ := ht
  rw [hcs] at hscans'
  exact ⟨_, by rw [String.toList_append, hcs]; exact hscans.append_scans hd hscans', hyields.append hyields'⟩

theorem spells_blank : Spells c " " [] := ⟨[], Token.scans_blank (by decide), .nil⟩

theorem spells_char {d : Char} (hb : isBlank d = false) (hp : d ≠ '%') (hs : d ≠ '\\') (hc : d ≠ ':')
    (h : IsSymbol (.char d)) {a : Atom} (ha : symbolAtom c d.toString = .ok a) : Spells c d.toString [a] :=
  ⟨[.char d], by rw [Char.toString, String.toList_singleton]; exact Token.scans_char hb hp hs hc, yields_symbol h rfl ha⟩

/-- A command of letters with a blank behind it. -/
theorem spells_command {name : List Char} (hne : name ≠ []) (hl : name.all isLetter = true)
    (hv : Token.verbatimCommands.contains (String.ofList name) = false) (h : IsSymbol (.command (String.ofList name)))
    {a : Atom} (ha : symbolAtom c ("\\" ++ String.ofList name) = .ok a) :
    Spells c ("\\" ++ String.ofList name ++ " ") [a] := by
  refine ⟨[.command (String.ofList name)], ?_, yields_symbol h rfl ha⟩
  have htext : ("\\" ++ String.ofList name ++ " ").toList = '\\' :: (name ++ [' ']) := by
    rw [String.toList_append, String.toList_append, @String.toList_ofList name]
    rfl
  rw [htext]
  exact Token.Scans.command hne hl hv (by decide) (Token.scans_blank (by decide))

theorem scans_braces {cs : List Char} {tokens : List Token} (h : Token.ScansBefore cs tokens) :
    Token.Scans ('\x7b' :: (cs ++ ['\x7d'])) (inBraces tokens) := by
  have hopen : Token.Scans ['\x7b'] [.char '\x7b'] :=
    Token.scans_char (by decide) (by decide) (by decide) (by decide)
  have hclose : Token.Scans ['\x7d'] [.char '\x7d'] :=
    Token.scans_char (by decide) (by decide) (by decide) (by decide)
  exact hopen.append (h.append_scans (by decide) hclose)

theorem toList_braced (s : String) : ("\x7b" ++ s ++ "\x7d").toList = '\x7b' :: (s.toList ++ ['\x7d']) := by
  rw [String.toList_append, String.toList_append]
  rfl

/-- A text between braces spells what it spells without them. -/
theorem Spells.group {s : String} {row : List Atom} (h : Spells c s row) : Spells c ("\x7b" ++ s ++ "\x7d") row := by
  obtain ⟨tokens, hscans, hyields⟩ := h
  refine ⟨_, ?_, hyields.group⟩
  rw [toList_braced]
  exact scans_braces hscans.before

/-- The sign of a script. -/
def Script.sign : Script → String
  | .super => "^"
  | .sub => "_"

theorem SpellsBefore.attach {s t : String} {row script : List Atom} {a : Atom} (kind : Script)
    (h : SpellsBefore c s (row ++ [a])) (h' : SpellsBefore c t script) :
    Spells c (s ++ (kind.sign ++ ("\x7b" ++ t ++ "\x7d"))) (row ++ (kind.attach [a] script).reverse) := by
  obtain ⟨tokens, hscans, hyields⟩ := h
  obtain ⟨inner, hscans', hyields'⟩ := h'
  obtain ⟨d, hsign, hscan, hd⟩ : ∃ d, kind.sign.toList = [d] ∧ Token.Scans [d] [kind.token] ∧ isLetter d = false := by
    cases kind with
    | super => exact ⟨'^', rfl, Token.scans_char (by decide) (by decide) (by decide) (by decide), by decide⟩
    | sub => exact ⟨'_', rfl, Token.scans_char (by decide) (by decide) (by decide) (by decide), by decide⟩
  refine ⟨_, ?_, hyields.attach kind hyields'⟩
  rw [String.toList_append, String.toList_append, toList_braced, hsign]
  exact hscans.append_scans hd (hscan.append (scans_braces hscans'))

theorem SpellsBefore.script {s t : String} {row script : List Atom} {a : Atom} (kind : Script)
    (h : SpellsBefore c s (row ++ [a])) (hfits : kind.Fits a) (h' : SpellsBefore c t script) :
    Spells c (s ++ (kind.sign ++ ("\x7b" ++ t ++ "\x7d"))) (row ++ [kind.set a script]) := by
  have hattached := h.attach kind h'
  rwa [Script.attach_of_fits hfits] at hattached

theorem Spells.script {s t : String} {row script : List Atom} {a : Atom} (kind : Script)
    (h : Spells c s (row ++ [a])) (hfits : kind.Fits a) (h' : Spells c t script) :
    Spells c (s ++ (kind.sign ++ ("\x7b" ++ t ++ "\x7d"))) (row ++ [kind.set a script]) :=
  h.before.script kind hfits h'.before

theorem SpellsBefore.fraction {s t : String} {numerator denominator : List Atom} (h : SpellsBefore c s numerator)
    (h' : SpellsBefore c t denominator) :
    Spells c ("\\frac" ++ ("\x7b" ++ s ++ "\x7d") ++ ("\x7b" ++ t ++ "\x7d")) [fractionAtom numerator denominator] := by
  obtain ⟨above, hscans, hyields⟩ := h
  obtain ⟨below, hscans', hyields'⟩ := h'
  refine ⟨_, ?_, hyields.fraction hyields'⟩
  rw [String.toList_append, String.toList_append, toList_braced, toList_braced, List.append_assoc]
  exact @Token.Scans.command ['f', 'r', 'a', 'c'] _ _ _ (by decide) (by decide) (by decide) (by decide)
    ((scans_braces hscans).append (scans_braces hscans'))

theorem SpellsBefore.radical {s : String} {body : List Atom} (h : SpellsBefore c s body) :
    Spells c ("\\sqrt" ++ ("\x7b" ++ s ++ "\x7d")) [radicalAtom body] := by
  obtain ⟨tokens, hscans, hyields⟩ := h
  refine ⟨_, ?_, hyields.radical⟩
  rw [String.toList_append, toList_braced]
  exact @Token.Scans.command ['s', 'q', 'r', 't'] _ _ _ (by decide) (by decide) (by decide) (by decide)
    (scans_braces hscans)

/-- A text in a font. -/
theorem SpellsBefore.font {s name font : String} {body : List Atom} (hfont : ("\\" ++ name, font) ∈ fonts)
    (h : SpellsBefore c s body) : Spells c ("\\" ++ name ++ ("\x7b" ++ s ++ "\x7d")) [fontAtom ("\\" ++ name) font body] := by
  obtain ⟨tokens, hscans, hyields⟩ := h
  have hfacts : ∀ p ∈ fonts, (p.1.toList.drop 1).all isLetter = true ∧ p.1.toList.drop 1 ≠ [] ∧
      Token.verbatimCommands.contains (String.ofList (p.1.toList.drop 1)) = false := by decide
  obtain ⟨hletters, hne, hverbatim⟩ := hfacts _ hfont
  rw [String.toList_append, show ("\\" : String).toList = ['\\'] from rfl, List.singleton_append, List.drop_succ_cons,
    List.drop_zero] at hletters hne hverbatim
  have hscan := Token.Scans.command hne hletters hverbatim (by decide) (scans_braces hscans)
  rw [String.ofList_toList] at hscan
  refine ⟨_, ?_, hyields.font hfont⟩
  rw [String.toList_append, String.toList_append, toList_braced]
  exact hscan

/-- A fence between `\left` and `\right`, whose delimiters begin with no letter. -/
theorem SpellsBefore.fenced {s left right : String} {body : List Atom} {first last : Token} {d e : Char} {ds es : List Char}
    (h : SpellsBefore c s body) (hl : left.toList = d :: ds) (hr : right.toList = e :: es) (hd : isLetter d = false)
    (he : isLetter e = false) (hfirst : Token.Scans (d :: ds) [first]) (hlast : Token.Scans (e :: es) [last]) :
    Spells c ("\\left" ++ left ++ (s ++ ("\\right" ++ right))) [fencedAtom first.text last.text body] := by
  obtain ⟨tokens, hscans, hyields⟩ := h
  refine ⟨_, ?_, hyields.fenced first last⟩
  have hright : Token.Scans ('\\' :: (['r', 'i', 'g', 'h', 't'] ++ e :: es)) [.command "right", last] :=
    Token.Scans.command (by decide) (by decide) (by decide) he hlast
  have hleft : Token.Scans ('\\' :: (['l', 'e', 'f', 't'] ++ d :: ds)) [.command "left", first] :=
    Token.Scans.command (by decide) (by decide) (by decide) hd hfirst
  rw [String.toList_append, String.toList_append, String.toList_append, String.toList_append, hl, hr]
  exact hleft.append (hscans.append_scans (by decide) hright)

/-- The atom of a text, which keeps its content as it is written. -/
def textAtom (content : String) : Atom where
  type := .text
  value := .text content
  latex := .text ("\\text" ++ ("\x7b" ++ content ++ "\x7d"))

theorem toList_text (content : String) : ("\\text" ++ ("\x7b" ++ content ++ "\x7d")).toList =
    '\\' :: (['t', 'e', 'x', 't'] ++ '\x7b' :: (content.toList ++ ['\x7d'])) := by
  rw [String.toList_append, toList_braced]
  rfl

/-- A text whose content ends at its closing brace. -/
theorem spells_text {content : String} (h : Token.FillsGroup content.toList) :
    Spells c ("\\text" ++ ("\x7b" ++ content ++ "\x7d")) [textAtom content] := by
  have htoken : (Token.verbatim "text" content).text = "\\text" ++ ("\x7b" ++ content ++ "\x7d") := by
    rw [← String.toList_inj, toList_text, Token.text, String.toList_append, String.toList_append]
    rfl
  have hscans := @Token.scans_verbatim ['t', 'e', 'x', 't'] _ (by decide) (by decide) (by decide) h
  rw [String.ofList_toList, ← toList_text] at hscans
  have hstarts : StartsAtom (.verbatim "text" content) := by
    refine ⟨by simp, rfl, ?_⟩
    rw [← Bool.not_eq_true, List.contains_iff_mem, htoken]
    intro hmem
    have hforeign : ∀ s ∈ ellipses, ¬ ['\\', 't', 'e', 'x', 't', '\x7b'] <+: s.toList := by decide
    exact hforeign _ hmem (toList_text content ▸ ⟨content.toList ++ ['\x7d'], rfl⟩)
  refine ⟨_, hscans, @yields_construct c _ hstarts [] _ fun rest fuel _ => ⟨0, ?_⟩⟩
  rw [List.nil_append, readAtom.eq_def, textAtom, ← htoken]
  rfl

end Formula.Source
