import Formula.Proofs.Format.Braces
import Formula.Proofs.Source.Scanning

/-!
# The characters of tokens

A scan of a source without comments keeps its characters: the texts of the tokens, one behind the other, are the source
but for blanks.  One thing is added.  An argument that is kept as it is written is closed by its token, also where the
source ends inside of it.

The scan goes from piece to piece.  `IsPiece` says of the characters in front of a rest what they are read as, also where
the rest is cut off, and `begins_with_piece` that the characters begin with a piece unless they are an argument that is
open.
-/

namespace Formula.Token

open Text Format

/-! ### Characters that count -/

/-- The characters without the blanks. -/
def visible (cs : List Char) : List Char := cs.filter fun d => !isBlank d

/-- The texts of tokens, one behind the other. -/
def written (tokens : List Token) : List Char := tokens.flatMap fun token => token.text.toList

@[simp] theorem visible_append (cs ds : List Char) : visible (cs ++ ds) = visible cs ++ visible ds :=
  List.filter_append cs ds

@[simp] theorem written_append (tokens more : List Token) : written (tokens ++ more) = written tokens ++ written more :=
  List.flatMap_append

theorem written_singleton (token : Token) : written [token] = token.text.toList := List.flatMap_singleton _ _

theorem visible_blanks {cs : List Char} (h : ∀ d ∈ cs, isBlank d = true) : visible cs = [] :=
  List.filter_eq_nil_iff.mpr fun d hd => by rw [h d hd]; decide

/-- A command with its argument is written without the blanks between them, and with the brace that closes the argument. -/
theorem visible_written_verbatim {blanks : List Char} (hblanks : ∀ d ∈ blanks, isBlank d = true) (name content : List Char) :
    visible (written [.verbatim (String.ofList name) (String.ofList content)]) =
      visible ('\\' :: (name ++ (blanks ++ '\x7b' :: content))) ++ ['\x7d'] := by
  have hlist : written [.verbatim (String.ofList name) (String.ofList content)] =
      ['\\'] ++ name ++ ['\x7b'] ++ content ++ ['\x7d'] := by
    rw [written_singleton]
    simp only [text, String.toList_append, String.toList_ofList]
    rfl
  have hsource : '\\' :: (name ++ (blanks ++ '\x7b' :: content)) = ['\\'] ++ name ++ blanks ++ ['\x7b'] ++ content := by simp
  rw [hlist, hsource]
  simp only [visible_append, visible_blanks hblanks, List.append_nil]
  rfl

/-- No token is empty. -/
theorem text_ne_empty (token : Token) : token.text ≠ "" := by
  intro h
  have hlist := congrArg String.toList h
  cases token with
  | char d =>
    rw [text, Char.toString_eq_singleton, String.toList_singleton] at hlist
    cases hlist
  | command name =>
    rw [text, String.toList_append] at hlist
    cases hlist
  | verbatim name content =>
    simp only [text, String.toList_append] at hlist
    cases hlist
  | assign => exact absurd hlist (by decide)

/-! ### Groups -/

/-- The characters do not close a group that is open in front of them. -/
def LeavesOpen (cs : List Char) : Prop :=
  ∀ part, part <+: cs → bareBraces '\x7d' false part ≤ bareBraces '\x7b' false part

instance (cs : List Char) : Decidable (LeavesOpen cs) :=
  decidable_of_iff (∀ part ∈ cs.inits, bareBraces '\x7d' false part ≤ bareBraces '\x7b' false part)
    (forall_congr' fun part => by rw [List.mem_inits])

/-- A group is not closed if no part of the characters closes more groups than it opens. -/
theorem groupLength_eq_none : ∀ {cs : List Char} {k : Int} {escaped : Bool}, 1 ≤ k →
    (groupLength k escaped cs = none ↔
      ∀ part, part <+: cs → (bareBraces '\x7d' escaped part : Int) < k + bareBraces '\x7b' escaped part)
  | [], k, escaped, hk => by
    refine ⟨fun _ part hpart => ?_, fun _ => rfl⟩
    rw [List.prefix_nil.mp hpart]
    simp only [bareBraces]
    omega
  | d :: cs, k, escaped, hk => by
    -- A part is empty, or the character with a part of the others.
    have hparts : (∀ part, part <+: d :: cs → (bareBraces '\x7d' escaped part : Int) < k + bareBraces '\x7b' escaped part) ↔
        ∀ part, part <+: cs →
          (bareBraces '\x7d' escaped (d :: part) : Int) < k + bareBraces '\x7b' escaped (d :: part) := by
      constructor
      · intro h part hpart
        exact h _ (List.cons_prefix_cons.mpr ⟨rfl, hpart⟩)
      · intro h part hpart
        cases part with
        | nil =>
          simp only [bareBraces]
          omega
        | cons e part =>
          obtain ⟨rfl, hrest⟩ := List.cons_prefix_cons.mp hpart
          exact h part hrest
    rw [hparts, groupLength]
    by_cases hopen : d = '\x7b' ∧ !escaped
    · obtain ⟨rfl, hescaped⟩ := hopen
      rw [if_pos ⟨rfl, hescaped⟩, Option.map_eq_none_iff, groupLength_eq_none (by omega)]
      refine forall₂_congr fun part _ => ?_
      simp only [bareBraces, hescaped]
      simp
      omega
    by_cases hclose : d = '\x7d' ∧ !escaped
    · obtain ⟨rfl, hescaped⟩ := hclose
      rw [if_neg hopen, if_pos ⟨rfl, hescaped⟩]
      by_cases hlast : k = 1
      · subst hlast
        rw [if_pos rfl]
        refine iff_of_false (by simp) fun h => absurd (h [] List.nil_prefix) ?_
        simp [bareBraces, hescaped]
      · rw [if_neg hlast, Option.map_eq_none_iff, groupLength_eq_none (by omega)]
        refine forall₂_congr fun part _ => ?_
        simp only [bareBraces, hescaped]
        simp
        omega
    · rw [if_neg hopen, if_neg hclose, Option.map_eq_none_iff, groupLength_eq_none hk]
      refine forall₂_congr fun part _ => ?_
      rw [bareBraces, bareBraces, if_neg hopen, if_neg hclose]
      simp

/-- A group that is closed is closed by the same brace whatever stands behind it. -/
theorem groupLength_eq_some : ∀ {cs : List Char} {k : Int} {escaped : Bool} {n : Nat}, groupLength k escaped cs = some n →
    ∃ inner rest, cs = inner ++ '\x7d' :: rest ∧
      ∀ more, groupLength k escaped (inner ++ '\x7d' :: more) = some (inner.length + 1)
  | [], _, _, _, h => by cases h
  | d :: cs, k, escaped, n, h => by
    rw [groupLength] at h
    have hcons : ∀ {k' : Int} {escaped' : Bool}, (groupLength k' escaped' cs).map (· + 1) = some n →
        (∀ ds, groupLength k escaped (d :: ds) = (groupLength k' escaped' ds).map (· + 1)) →
        ∃ inner rest, d :: cs = inner ++ '\x7d' :: rest ∧
          ∀ more, groupLength k escaped (inner ++ '\x7d' :: more) = some (inner.length + 1) := by
      intro k' escaped' hrest hstep
      obtain ⟨m, hm, -⟩ := Option.map_eq_some_iff.mp hrest
      obtain ⟨inner, rest, rfl, hinner⟩ := groupLength_eq_some hm
      refine ⟨d :: inner, rest, rfl, fun more => ?_⟩
      rw [List.cons_append, hstep, hinner]
      rfl
    split at h
    · next hopen => exact hcons h fun ds => by rw [groupLength, if_pos hopen]
    next hopen =>
    split at h
    · next hclose =>
      split at h
      · next hlast =>
        refine ⟨[], cs, by rw [hclose.1]; rfl, fun more => ?_⟩
        rw [List.nil_append, groupLength, if_neg (by simp), if_pos ⟨rfl, hclose.2⟩, if_pos hlast]
        rfl
      · next hlast => exact hcons h fun ds => by rw [groupLength, if_neg hopen, if_pos hclose, if_neg hlast]
    · next hclose => exact hcons h fun ds => by rw [groupLength, if_neg hopen, if_neg hclose]

/-- The group behind a brace: its content up to the brace that closes it, or all that is left. -/
theorem group_closed_or_open (cs : List Char) :
    (∃ inner rest, cs = inner ++ '\x7d' :: rest ∧
      ∀ more, group false ('\x7b' :: (inner ++ '\x7d' :: more)) = (inner, inner.length + 2)) ∨
    (LeavesOpen cs ∧ group false ('\x7b' :: cs) = (cs, cs.length + 1)) := by
  have hbrace : ∀ ds, groupLength 0 false ('\x7b' :: ds) = (groupLength 1 false ds).map (· + 1) := fun ds => by
    rw [groupLength, if_pos (by decide)]
    rfl
  cases h : groupLength 1 false cs with
  | some n =>
    obtain ⟨inner, rest, rfl, hinner⟩ := groupLength_eq_some h
    refine .inl ⟨inner, rest, rfl, fun more => ?_⟩
    unfold group
    rw [hbrace, hinner]
    refine Prod.ext ?_ rfl
    show (('\x7b' :: (inner ++ '\x7d' :: more)).take (inner.length + 1)).drop 1 = inner
    rw [List.take_succ_cons, List.drop_succ_cons, List.drop_zero, List.take_left]
  | none =>
    refine .inr ⟨fun part hpart => ?_, ?_⟩
    · have := (groupLength_eq_none (by decide)).mp h part hpart
      omega
    · unfold group
      rw [hbrace, h]
      rfl

/-! ### Pieces -/

/-- The characters in front of a rest are read as some tokens, also where the rest is cut off, and nothing of them is lost. -/
structure IsPiece (cs : List Char) (tokens : List Token) (rest : List Char) : Prop where
  ne : cs ≠ []
  scan : ∀ more, more <+: rest → scanFrom 0 (cs ++ more) = tokens ++ scanFrom 0 more
  kept : visible (written tokens) = visible cs

/-- The characters are a command that keeps its argument as it is written, with an argument that is not closed; this is
read as the token. -/
inductive IsOpenArgument : List Char → Token → Prop
  | mk {name blanks content : List Char} : String.ofList name ∈ verbatimCommands → (∀ d ∈ blanks, isBlank d = true) →
    LeavesOpen content →
    IsOpenArgument ('\\' :: (name ++ (blanks ++ '\x7b' :: content))) (.verbatim (String.ofList name) (String.ofList content))

/-- The source ends in an argument that is not closed: its last token is that argument, behind the tokens of what stands
in front. -/
def EndsInArgument (cs : List Char) : Prop :=
  ∃ before rest token, cs = before ++ rest ∧ IsOpenArgument rest token ∧ scanFrom 0 cs = scanFrom 0 before ++ [token]

/-- The token of an open argument has one character more. -/
theorem IsOpenArgument.visible_written {cs : List Char} {token : Token} (h : IsOpenArgument cs token) :
    visible (written [token]) = visible cs ++ ['\x7d'] := by
  obtain ⟨-, hblanks, -⟩ := h
  exact visible_written_verbatim hblanks _ _

theorem isPiece_blank {d : Char} (h : isBlank d = true) (rest : List Char) : IsPiece [d] [] rest where
  ne := List.cons_ne_nil _ _
  scan more _ := scans_blank h more
  kept := (visible_blanks fun _ he => List.mem_singleton.mp he ▸ h).symm

theorem isPiece_assign (rest : List Char) : IsPiece [':', '='] [.assign] rest where
  ne := List.cons_ne_nil _ _
  scan more _ := by
    show scanFrom 0 (':' :: '=' :: more) = .assign :: scanFrom 0 more
    rw [scanFrom, if_neg (by decide), if_neg (by decide), if_neg (by decide), if_pos ⟨rfl, rfl⟩, scanFrom]
  kept := rfl

/-- The first character of a part of the characters is their first. -/
theorem head?_of_isPrefix {more rest : List Char} (h : more <+: rest) {d : Char} (hd : more.head? = some d) :
    rest.head? = some d := by
  cases more with
  | nil => cases hd
  | cons e more =>
    obtain ⟨tail, rfl⟩ := h
    exact hd

theorem isPiece_char {d : Char} {rest : List Char} (hblank : isBlank d = false) (hcomment : d ≠ '%') (hslash : d ≠ '\\')
    (hassign : ¬(d = ':' ∧ rest.head? = some '=')) : IsPiece [d] [.char d] rest where
  ne := List.cons_ne_nil _ _
  scan more hmore := by
    have hassign : ¬(d = ':' ∧ more.head? = some '=') := fun h => hassign ⟨h.1, head?_of_isPrefix hmore h.2⟩
    show scanFrom 0 (d :: more) = .char d :: scanFrom 0 more
    rw [scanFrom, hblank, if_neg Bool.false_ne_true, if_neg hcomment, if_neg hslash, if_neg hassign]
  kept := by
    rw [written_singleton]
    exact congrArg visible (String.toList_singleton d)

/-! ### Commands as pieces -/

/-- The name of a command is the same where what stands behind it is cut off. -/
theorem commandName_of_isPrefix {cs more : List Char} (h : commandName cs ++ more <+: cs) :
    commandName (commandName cs ++ more) = commandName cs := by
  rcases commandName_cases cs with ⟨rfl, hname⟩ | ⟨d, rest, rfl, hd, hname⟩ | ⟨d, name, rest, rfl, hletters, hend, hname⟩
  · rw [hname] at h ⊢
    rw [List.prefix_nil.mp h]
    exact hname
  · rw [hname, commandName, List.singleton_append, List.takeWhile_cons_of_neg (by rw [hd]; exact Bool.false_ne_true)]
    rfl
  · rw [hname] at h ⊢
    have hmore : more <+: rest := (List.prefix_append_right_inj _).mp h
    have hnone : more.takeWhile isLetter = [] := by
      cases more with
      | nil => rfl
      | cons e more =>
        have he := hend e (head?_of_isPrefix hmore rfl)
        exact List.takeWhile_cons_of_neg (by rw [he]; exact Bool.false_ne_true)
    rw [commandName, List.takeWhile_append_of_pos hletters, hnone, List.append_nil]

/-- A command with a brace behind it, and blanks between them, keeps its argument as it is written. -/
theorem readCommand_verbatim {name blanks more : List Char} (hname : commandName (name ++ (blanks ++ '\x7b' :: more)) = name)
    (hblanks : ∀ d ∈ blanks, isBlank d = true) (hverbatim : String.ofList name ∈ verbatimCommands) :
    readCommand (name ++ (blanks ++ '\x7b' :: more)) =
      (.verbatim (String.ofList name) (String.ofList (group false ('\x7b' :: more)).1),
        name.length + blanks.length + (group false ('\x7b' :: more)).2) := by
  have htake : (blanks ++ '\x7b' :: more).takeWhile isBlank = blanks := by
    rw [List.takeWhile_append_of_pos hblanks, List.takeWhile_cons_of_neg (by decide), List.append_nil]
  unfold readCommand
  rw [hname]
  dsimp only
  rw [List.drop_left, htake, List.drop_left]
  exact if_pos (List.contains_iff_mem.mpr hverbatim)

/-- A command that is read as its name. -/
theorem isPiece_command {cs rest : List Char} (hcs : cs = commandName cs ++ rest)
    (hread : readCommand cs = (.command (String.ofList (commandName cs)), (commandName cs).length)) :
    IsPiece ('\\' :: commandName cs) [.command (String.ofList (commandName cs))] rest where
  ne := List.cons_ne_nil _ _
  scan more hmore := by
    have hprefix : commandName cs ++ more <+: cs := by
      obtain ⟨tail, rfl⟩ := hmore
      exact ⟨tail, by rw [List.append_assoc, ← hcs]⟩
    have hname := commandName_of_isPrefix hprefix
    show scanFrom 0 ('\\' :: (commandName cs ++ more)) = _
    rw [scanFrom_slash]
    rcases readCommand_cases (commandName cs ++ more) with hmore | ⟨blanks, inner, hinner, hblanks, hverbatim, -⟩
    · rw [hmore, hname, scanFrom_length]
      rfl
    · -- The argument would be there in front of the whole rest too.
      rw [hname] at hinner hverbatim
      obtain ⟨tail, htail⟩ := hprefix
      rw [hinner] at htail
      have hwhole : commandName cs ++ (blanks ++ '\x7b' :: (inner ++ tail)) = cs :=
        Eq.trans (by simp only [List.append_assoc, List.cons_append]) htail
      have := readCommand_verbatim (congrArg commandName hwhole) hblanks hverbatim
      rw [hwhole, hread] at this
      cases this
  kept := by
    rw [written_singleton]
    simp only [text, String.toList_append, String.toList_ofList]
    rfl

/-- A command with an argument that is closed. -/
theorem isPiece_verbatim {name blanks inner rest : List Char}
    (hname : commandName (name ++ (blanks ++ '\x7b' :: (inner ++ '\x7d' :: rest))) = name)
    (hblanks : ∀ d ∈ blanks, isBlank d = true) (hverbatim : String.ofList name ∈ verbatimCommands)
    (hgroup : ∀ more, group false ('\x7b' :: (inner ++ '\x7d' :: more)) = (inner, inner.length + 2)) :
    IsPiece ('\\' :: (name ++ (blanks ++ '\x7b' :: (inner ++ ['\x7d']))))
      [.verbatim (String.ofList name) (String.ofList inner)] rest where
  ne := List.cons_ne_nil _ _
  scan more hmore := by
    have hprefix : commandName (name ++ (blanks ++ '\x7b' :: (inner ++ '\x7d' :: rest))) ++
        (blanks ++ '\x7b' :: (inner ++ '\x7d' :: more)) <+: name ++ (blanks ++ '\x7b' :: (inner ++ '\x7d' :: rest)) := by
      obtain ⟨tail, rfl⟩ := hmore
      exact ⟨tail, by rw [hname]; simp⟩
    have hcut := commandName_of_isPrefix hprefix
    rw [hname] at hcut
    have hpiece : name ++ (blanks ++ '\x7b' :: (inner ++ ['\x7d'])) ++ more =
        name ++ (blanks ++ '\x7b' :: (inner ++ '\x7d' :: more)) := by simp
    have hlength : name.length + blanks.length + (inner.length + 2) =
        (name ++ (blanks ++ '\x7b' :: (inner ++ ['\x7d']))).length := by
      simp
      omega
    rw [List.cons_append, hpiece, scanFrom_slash, readCommand_verbatim hcut hblanks hverbatim, hgroup]
    dsimp only
    rw [hlength, ← hpiece, scanFrom_length]
    rfl
  kept := by
    have hsplit : '\\' :: (name ++ (blanks ++ '\x7b' :: (inner ++ ['\x7d']))) =
        '\\' :: (name ++ (blanks ++ '\x7b' :: inner)) ++ ['\x7d'] := by simp
    rw [visible_written_verbatim hblanks, hsplit, visible_append]
    rfl

/-- A source without comments begins with a piece, or it is an argument that is open. -/
theorem begins_with_piece {d : Char} {cs : List Char} (h : '%' ∉ d :: cs) :
    (∃ piece tokens rest, d :: cs = piece ++ rest ∧ IsPiece piece tokens rest) ∨
    ∃ token, IsOpenArgument (d :: cs) token ∧ scanFrom 0 (d :: cs) = [token] := by
  by_cases hblank : isBlank d = true
  · exact .inl ⟨[d], [], cs, rfl, isPiece_blank hblank cs⟩
  have hcomment : d ≠ '%' := fun hd => h (hd ▸ List.mem_cons_self)
  by_cases hslash : d = '\\'
  · subst hslash
    obtain ⟨rest, hrest⟩ := commandName_isPrefix cs
    rcases readCommand_cases cs with hread | ⟨blanks, more, hcs, hblanks, hverbatim, hread⟩
    · exact .inl ⟨_, _, rest, congrArg _ hrest.symm, isPiece_command hrest.symm hread⟩
    · rcases group_closed_or_open more with ⟨inner, behind, rfl, hgroup⟩ | ⟨hopen, hgroup⟩
      · refine .inl ⟨_, _, behind, ?_, isPiece_verbatim (by rw [← hcs]) hblanks hverbatim hgroup⟩
        refine congrArg _ (hcs.trans ?_)
        simp
      · generalize commandName cs = name at *
        subst hcs
        refine .inr ⟨_, .mk hverbatim hblanks hopen, ?_⟩
        have hlength : name.length + blanks.length + (more.length + 1) = (name ++ (blanks ++ '\x7b' :: more)).length := by
          simp
          omega
        have hend := scanFrom_length (name ++ (blanks ++ '\x7b' :: more)) []
        rw [List.append_nil] at hend
        rw [scanFrom_slash, hread, hgroup]
        dsimp only
        rw [hlength, hend]
        rfl
  · by_cases hassign : d = ':' ∧ cs.head? = some '='
    · obtain ⟨rfl, hequal⟩ := hassign
      obtain ⟨rest, rfl⟩ := List.head?_eq_some_iff.mp hequal
      exact .inl ⟨[':', '='], _, rest, rfl, isPiece_assign rest⟩
    · exact .inl ⟨[d], _, cs, rfl, isPiece_char (Bool.eq_false_iff.mpr hblank) hcomment hslash hassign⟩

/-! ### Whole sources -/

theorem EndsInArgument.behind {piece rest : List Char} {tokens : List Token} (hpiece : IsPiece piece tokens rest)
    (h : EndsInArgument rest) : EndsInArgument (piece ++ rest) := by
  obtain ⟨before, open_, token, rfl, hopen, hscan⟩ := h
  refine ⟨piece ++ before, open_, token, (List.append_assoc ..).symm, hopen, ?_⟩
  rw [hpiece.scan _ (List.prefix_refl _), hscan, hpiece.scan _ (List.prefix_append _ _), List.append_assoc]

/-- The tokens of a source without comments: by induction on the length of the source, one piece after another. -/
theorem scanFrom_keeps : ∀ (n : Nat) {cs : List Char}, cs.length ≤ n → '%' ∉ cs →
    visible (written (scanFrom 0 cs)) = visible cs ∨
      EndsInArgument cs ∧ visible (written (scanFrom 0 cs)) = visible cs ++ ['\x7d']
  | _, [], _, _ => .inl rfl
  | n + 1, d :: cs, hn, h => by
    rcases begins_with_piece h with ⟨piece, tokens, rest, hcs, hpiece⟩ | ⟨token, hopen, hscan⟩
    · have hlength : rest.length ≤ n := by
        have hcount := congrArg List.length hcs
        have hpos := List.length_pos_of_ne_nil hpiece.ne
        rw [List.length_append] at hcount
        rw [hcount] at hn
        omega
      rw [hcs] at h ⊢
      have hkept := scanFrom_keeps n hlength fun hrest => h (List.mem_append_right _ hrest)
      rw [hpiece.scan rest (List.prefix_refl _), written_append, visible_append, visible_append, hpiece.kept]
      refine hkept.imp (fun hkept => by rw [hkept]) fun hkept => ⟨hkept.1.behind hpiece, ?_⟩
      rw [hkept.2, List.append_assoc]
    · rw [hscan]
      exact .inr ⟨⟨[], d :: cs, token, rfl, hopen, hscan⟩, hopen.visible_written⟩

/-- A source that ends in an open argument is not kept as it is: its tokens have a character more. -/
theorem EndsInArgument.visible_ne {cs : List Char} (h : EndsInArgument cs) (hcomment : '%' ∉ cs) :
    visible (written (scanFrom 0 cs)) ≠ visible cs := by
  obtain ⟨before, rest, token, rfl, hopen, hscan⟩ := h
  have hbefore := scanFrom_keeps before.length (Nat.le_refl _) fun h => hcomment (List.mem_append_left _ h)
  intro h
  rw [hscan, written_append, visible_append, visible_append, hopen.visible_written] at h
  have hlength := congrArg List.length h
  rcases hbefore with hbefore | ⟨-, hbefore⟩
  all_goals
    rw [hbefore] at hlength
    simp only [List.length_append, List.length_singleton] at hlength
    omega

/-- **A scan loses no characters and makes up none.**  For every source without comments, no token is empty, and the texts
of the tokens are the source, blanks aside; where the source ends in an argument that is not closed, and only there, the
brace that closes it is added. -/
theorem scan_loses_nothing {source : String} (h : '%' ∉ source.toList) :
    (∀ token ∈ scan source, token.text ≠ "") ∧
      (¬EndsInArgument source.toList → visible (written (scan source)) = visible source.toList) ∧
      (EndsInArgument source.toList → visible (written (scan source)) = visible source.toList ++ ['\x7d']) := by
  have hkept := scanFrom_keeps source.toList.length (Nat.le_refl _) h
  refine ⟨fun token _ => token.text_ne_empty, fun hends => ?_, fun hends => ?_⟩
  · exact hkept.resolve_right fun hopen => hends hopen.1
  · exact (hkept.resolve_left (hends.visible_ne h)).2

/-- A source that ends inside of a box, with a brace behind a backslash. -/
theorem scan_loses_nothing_unclosed :
    '%' ∉ "x\\ \\mbox \x7b\\\x7db".toList ∧ EndsInArgument "x\\ \\mbox \x7b\\\x7db".toList ∧
      visible (written (scan "x\\ \\mbox \x7b\\\x7db")) = "x\\\\mbox\x7b\\\x7db\x7d".toList := by
  have hcomment : '%' ∉ "x\\ \\mbox \x7b\\\x7db".toList := by decide
  have hends : EndsInArgument "x\\ \\mbox \x7b\\\x7db".toList := by
    refine ⟨"x\\ ".toList, '\\' :: ("mbox".toList ++ (" ".toList ++ '\x7b' :: "\\\x7db".toList)), _, rfl,
      .mk (by decide) (List.all_eq_true.mp (by decide)) (by decide), by decide +kernel⟩
  exact ⟨hcomment, hends, ((scan_loses_nothing hcomment).2.2 hends).trans (by decide)⟩

end Formula.Token
