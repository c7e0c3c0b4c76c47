import Formula.Token

/-!
# Pieces of sources and their tokens

A source is written piece by piece, and a piece is of use when its tokens do not hang on what stands behind it.  `Scans`
says so.  A single character is such a piece, and so is a command together with the character that ends its name.
-/

namespace Formula.Token

open Text

/-- The characters are read as the tokens, whatever follows them. -/
def Scans (cs : List Char) (tokens : List Token) : Prop := ∀ rest, scanFrom 0 (cs ++ rest) = tokens ++ scanFrom 0 rest

theorem Scans.nil : Scans [] [] := fun _ => rfl

theorem Scans.append {cs ds : List Char} {tokens more : List Token} (h : Scans cs tokens) (h' : Scans ds more) :
    Scans (cs ++ ds) (tokens ++ more) := by
  intro rest
  rw [List.append_assoc, h, h', List.append_assoc]

theorem Scans.scan {s : String} {tokens : List Token} (h : Scans s.toList tokens) : scan s = tokens := by
  have := h []
  rwa [List.append_nil, scanFrom, List.append_nil] at this

/-! ### Characters -/

theorem scanFrom_length (cs rest : List Char) : scanFrom cs.length (cs ++ rest) = scanFrom 0 rest := by
  induction cs with
  | nil => rfl
  | cons d cs ih => exact ih

theorem scans_blank {d : Char} (h : isBlank d = true) : Scans [d] [] := by
  intro rest
  show scanFrom 0 (d :: rest) = scanFrom 0 rest
  rw [scanFrom, if_pos h]

theorem scans_char {d : Char} (hb : isBlank d = false) (hp : d ≠ '%') (hs : d ≠ '\\') (hc : d ≠ ':') :
    Scans [d] [.char d] := by
  intro rest
  show scanFrom 0 (d :: rest) = .char d :: scanFrom 0 rest
  rw [scanFrom, hb, if_neg Bool.false_ne_true, if_neg hp, if_neg hs, if_neg fun h => hc h.1]

/-! ### Commands -/

/-- A command is read as its token, with the characters behind its name. -/
theorem scanFrom_slash (rest : List Char) :
    scanFrom 0 ('\\' :: rest) = (readCommand rest).1 :: scanFrom (readCommand rest).2 rest := by
  rw [scanFrom, if_neg (by decide), if_neg (by decide), if_pos rfl]

/-- The name of a command: none at the end of the source, else one character or letters. -/
theorem commandName_cases (cs : List Char) : (cs = [] ∧ commandName cs = []) ∨
    (∃ d rest, cs = d :: rest ∧ isLetter d = false ∧ commandName cs = [d]) ∨
    (∃ d name rest, cs = d :: name ++ rest ∧ (∀ x ∈ d :: name, isLetter x = true) ∧
      (∀ x ∈ rest.head?, isLetter x = false) ∧ commandName cs = d :: name) := by
  cases cs with
  | nil => exact .inl ⟨rfl, rfl⟩
  | cons d rest =>
    refine .inr ?_
    cases hd : isLetter d with
    | false =>
      refine .inl ⟨d, rest, rfl, hd, ?_⟩
      rw [commandName, List.takeWhile_cons_of_neg (by rw [hd]; exact Bool.false_ne_true)]
      rfl
    | true =>
      refine .inr ⟨d, rest.takeWhile isLetter, rest.dropWhile isLetter, ?_, ?_, ?_, ?_⟩
      · rw [List.cons_append, List.takeWhile_append_dropWhile]
      · intro x hx
        rcases List.mem_cons.mp hx with rfl | hx
        · exact hd
        · exact List.all_eq_true.mp List.all_takeWhile x hx
      · intro x hx
        have hhead := List.head?_dropWhile_not isLetter rest
        rw [Option.mem_def.mp hx] at hhead
        exact hhead
      · rw [commandName, List.takeWhile_cons_of_pos hd]

theorem commandName_isPrefix (cs : List Char) : commandName cs <+: cs := by
  rcases commandName_cases cs with ⟨rfl, h⟩ | ⟨d, rest, rfl, -, h⟩ | ⟨d, name, rest, rfl, -, -, h⟩
  · exact List.nil_prefix
  · rw [h]
    exact ⟨rest, rfl⟩
  · rw [h]
    exact ⟨rest, rfl⟩

/-- A command is read as its name, or as its name with the group behind it. -/
theorem readCommand_cases (cs : List Char) :
    readCommand cs = (.command (String.ofList (commandName cs)), (commandName cs).length) ∨
    ∃ blanks more, cs = commandName cs ++ (blanks ++ '\x7b' :: more) ∧ (∀ x ∈ blanks, isBlank x = true) ∧
      String.ofList (commandName cs) ∈ verbatimCommands ∧
      readCommand cs = (.verbatim (String.ofList (commandName cs)) (String.ofList (group false ('\x7b' :: more)).1),
        (commandName cs).length + blanks.length + (group false ('\x7b' :: more)).2) := by
  have hname := List.prefix_iff_eq_append.mp (commandName_isPrefix cs)
  have hblanks : (cs.drop (commandName cs).length).takeWhile isBlank <+: cs.drop (commandName cs).length :=
    List.takeWhile_prefix isBlank
  unfold readCommand
  dsimp only
  split
  next more hmore =>
    split
    next hverbatim =>
      refine .inr ⟨_, more, ?_, fun x hx => List.all_eq_true.mp List.all_takeWhile x hx, ?_, rfl⟩
      · rw [← hmore, List.prefix_iff_eq_append.mp hblanks, hname]
      · exact List.contains_iff_mem.mp hverbatim
    next => exact .inl rfl
  next => exact .inl rfl

/-- A command whose argument is not kept as it is written is read as its name. -/
theorem readCommand_name {cs : List Char} (h : verbatimCommands.contains (String.ofList (commandName cs)) = false) :
    readCommand cs = (.command (String.ofList (commandName cs)), (commandName cs).length) := by
  unfold readCommand
  dsimp only
  split
  · rw [h, if_neg Bool.false_ne_true]
  · rfl

theorem scanFrom_command {name rest : List Char} (hname : commandName (name ++ rest) = name)
    (hv : verbatimCommands.contains (String.ofList name) = false) :
    scanFrom 0 ('\\' :: (name ++ rest)) = .command (String.ofList name) :: scanFrom 0 rest := by
  rw [scanFrom, if_neg (by decide), if_neg (by decide), if_pos rfl, readCommand_name (by rw [hname]; exact hv), hname]
  exact congrArg _ (scanFrom_length name rest)

/-- The name of a command reaches up to the first character that is no letter. -/
theorem commandName_letters {name rest : List Char} {next : Char} (hne : name ≠ []) (hl : name.all isLetter = true)
    (hn : isLetter next = false) : commandName (name ++ next :: rest) = name := by
  have htake : (name ++ next :: rest).takeWhile isLetter = name := by
    rw [List.takeWhile_append_of_pos (List.all_eq_true.mp hl), List.takeWhile_cons_of_neg (by rw [hn]; exact Bool.false_ne_true),
      List.append_nil]
  unfold commandName
  rw [htake]
  cases name with
  | nil => exact absurd rfl hne
  | cons d name => rfl

/-- A command of letters with the piece behind it, which begins with a character of another kind. -/
theorem Scans.command {name cs : List Char} {next : Char} {tokens : List Token} (hne : name ≠ [])
    (hl : name.all isLetter = true) (hv : verbatimCommands.contains (String.ofList name) = false)
    (hn : isLetter next = false) (h : Scans (next :: cs) tokens) :
    Scans ('\\' :: (name ++ next :: cs)) (.command (String.ofList name) :: tokens) := by
  intro rest
  have hname := @commandName_letters _ (cs ++ rest) _ hne hl hn
  have := scanFrom_command hname hv
  rw [List.cons_append, List.append_assoc, List.cons_append, this, ← List.cons_append, h, List.cons_append]

/-- A command of one character that is no letter. -/
theorem scans_sign {d : Char} (hn : isLetter d = false) (hv : verbatimCommands.contains (String.ofList [d]) = false) :
    Scans ['\\', d] [.command (String.ofList [d])] := by
  intro rest
  have hname : commandName ([d] ++ rest) = [d] := by
    unfold commandName
    rw [List.singleton_append, List.takeWhile_cons_of_neg (by rw [hn]; exact Bool.false_ne_true)]
    rfl
  exact scanFrom_command hname hv

/-! ### Arguments that are kept as they are written -/

/-- The characters may stand between braces: none of them is a brace or a backslash. -/
def KeepsGroup (cs : List Char) : Prop := ∀ d ∈ cs, d ≠ '\x7b' ∧ d ≠ '\x7d' ∧ d ≠ '\\'

instance : DecidablePred KeepsGroup := fun cs => List.decidableBAll (fun d => d ≠ '\x7b' ∧ d ≠ '\x7d' ∧ d ≠ '\\') cs

/-- A group of the characters ends at the brace behind them, whatever follows. -/
def FillsGroup (cs : List Char) : Prop := ∀ rest, groupLength 1 false (cs ++ '\x7d' :: rest) = some (cs.length + 1)

theorem KeepsGroup.fills {cs : List Char} (h : KeepsGroup cs) : FillsGroup cs := by
  intro rest
  induction cs with
  | nil => rfl
  | cons d cs ih =>
    obtain ⟨hopen, hclose, hslash⟩ := h d List.mem_cons_self
    rw [List.cons_append, groupLength, if_neg fun hc => hopen hc.1, if_neg fun hc => hclose hc.1, decide_eq_false hslash,
      ih fun e he => h e (List.mem_cons_of_mem _ he)]
    rfl

theorem FillsGroup.group {cs : List Char} (h : FillsGroup cs) (rest : List Char) :
    group false ('\x7b' :: (cs ++ '\x7d' :: rest)) = (cs, cs.length + 2) := by
  have hlength : groupLength 0 false ('\x7b' :: (cs ++ '\x7d' :: rest)) = some (cs.length + 2) := by
    rw [groupLength, if_pos (by decide)]
    exact congrArg (Option.map (· + 1)) (h rest)
  unfold Token.group
  rw [hlength]
  refine Prod.ext ?_ rfl
  show (('\x7b' :: (cs ++ '\x7d' :: rest)).take (cs.length + 1)).drop 1 = cs
  rw [List.take_succ_cons, List.drop_succ_cons, List.drop_zero, List.take_left]

/-- A command with its argument, which is kept as it is written. -/
theorem scans_verbatim {name cs : List Char} (hne : name ≠ []) (hl : name.all isLetter = true)
    (hv : verbatimCommands.contains (String.ofList name) = true) (h : FillsGroup cs) :
    Scans ('\\' :: (name ++ '\x7b' :: (cs ++ ['\x7d']))) [.verbatim (String.ofList name) (String.ofList cs)] := by
  intro rest
  have hname := @commandName_letters name (cs ++ '\x7d' :: rest) '\x7b' hne hl (by decide)
  have hread : readCommand (name ++ '\x7b' :: (cs ++ '\x7d' :: rest)) =
      (.verbatim (String.ofList name) (String.ofList cs), name.length + (cs.length + 2)) := by
    unfold readCommand
    rw [hname]
    dsimp only
    rw [List.drop_left]
    show (if verbatimCommands.contains (String.ofList name) = true then _ else _) = _
    rw [if_pos hv, h.group]
    rfl
  have hskip : (name ++ '\x7b' :: (cs ++ ['\x7d'])).length = name.length + (cs.length + 2) := by
    simp only [List.length_append, List.length_cons, List.length_nil]
  have hsplit : name ++ '\x7b' :: (cs ++ ['\x7d']) ++ rest = name ++ '\x7b' :: (cs ++ '\x7d' :: rest) := by
    simp only [List.append_assoc, List.cons_append, List.nil_append]
  rw [List.cons_append, scanFrom, if_neg (by decide), if_neg (by decide), if_pos rfl, hsplit, hread, ← hsplit, ← hskip]
  exact congrArg _ (scanFrom_length _ rest)

/-! ### Pieces in front of what begins with no letter -/

/-- The characters are read as the tokens if no letter follows them, as at the end of a source. -/
def ScansBefore (cs : List Char) (tokens : List Token) : Prop :=
  ∀ rest, (∀ d ∈ rest.head?, isLetter d = false) → scanFrom 0 (cs ++ rest) = tokens ++ scanFrom 0 rest

theorem Scans.before {cs : List Char} {tokens : List Token} (h : Scans cs tokens) : ScansBefore cs tokens :=
  fun rest _ => h rest

theorem Scans.append_before {cs ds : List Char} {tokens more : List Token} (h : Scans cs tokens) (h' : ScansBefore ds more) :
    ScansBefore (cs ++ ds) (tokens ++ more) := by
  intro rest hrest
  rw [List.append_assoc, h, h' rest hrest, List.append_assoc]

theorem ScansBefore.append {cs ds : List Char} {next : Char} {tokens more : List Token} (h : ScansBefore cs tokens)
    (hn : isLetter next = false) (h' : ScansBefore (next :: ds) more) :
    ScansBefore (cs ++ next :: ds) (tokens ++ more) := by
  intro rest hrest
  have hnext : ∀ d ∈ (next :: ds ++ rest).head?, isLetter d = false := by
    rintro _ ⟨⟩
    exact hn
  rw [List.append_assoc, h _ hnext, h' rest hrest, List.append_assoc]

/-- In front of a piece that begins with no letter. -/
theorem ScansBefore.append_scans {cs ds : List Char} {next : Char} {tokens more : List Token} (h : ScansBefore cs tokens)
    (hn : isLetter next = false) (h' : Scans (next :: ds) more) : Scans (cs ++ next :: ds) (tokens ++ more) := by
  intro rest
  have hnext : ∀ d ∈ (next :: ds ++ rest).head?, isLetter d = false := by
    rintro _ ⟨⟩
    exact hn
  rw [List.append_assoc, h _ hnext, h', List.append_assoc]

theorem ScansBefore.scan {s : String} {tokens : List Token} (h : ScansBefore s.toList tokens) : scan s = tokens := by
  have := h [] fun _ hd => by cases hd
  rwa [List.append_nil, scanFrom, List.append_nil] at this

/-- A command of letters. -/
theorem scansBefore_command {name : List Char} (hne : name ≠ []) (hl : name.all isLetter = true)
    (hv : verbatimCommands.contains (String.ofList name) = false) :
    ScansBefore ('\\' :: name) [.command (String.ofList name)] := by
  intro rest hrest
  have hname : commandName (name ++ rest) = name := by
    cases rest with
    | nil =>
      unfold commandName
      rw [List.takeWhile_append_of_pos (List.all_eq_true.mp hl), List.takeWhile_nil, List.append_nil]
      cases name with
      | nil => exact absurd rfl hne
      | cons d name => rfl
    | cons next rest => exact commandName_letters hne hl (hrest next rfl)
  exact scanFrom_command hname hv

/-! ### Single tokens -/

/-- The token is a character, or a command of one character that is no letter. -/
def isSign : Token → Bool
  | char d => !isBlank d && d != '%' && d != '\\' && d != ':'
  | command name => !verbatimCommands.contains name && name.toList.length == 1 && !name.toList.all isLetter
  | _ => false

/-- The token is a command of letters. -/
def isName : Token → Bool
  | command name => !verbatimCommands.contains name && !name.toList.isEmpty && name.toList.all isLetter
  | _ => false

/-- The text of a sign is read as it is, whatever follows. -/
theorem scans_text {token : Token} (h : token.isSign = true) : Scans token.text.toList [token] := by
  cases token with
  | char d =>
    simp only [isSign, Bool.and_eq_true, Bool.not_eq_true', bne_iff_ne] at h
    rw [text, Char.toString, String.toList_singleton]
    exact scans_char h.1.1.1 h.1.1.2 h.1.2 h.2
  | command name =>
    simp only [isSign, Bool.and_eq_true, Bool.not_eq_true', beq_iff_eq] at h
    obtain ⟨⟨hverbatim, hlength⟩, hsign⟩ := h
    obtain ⟨d, hd⟩ := List.length_eq_one_iff.mp hlength
    obtain rfl : name = String.ofList [d] := by rw [← hd, String.ofList_toList]
    rw [String.toList_ofList, List.all_cons, List.all_nil, Bool.and_true] at hsign
    rw [text, String.toList_append, hd]
    exact scans_sign hsign hverbatim
  | verbatim | assign => cases h

/-- The text of a command of letters is read as it is if no letter follows. -/
theorem scansBefore_text {token : Token} (h : token.isName = true) : ScansBefore token.text.toList [token] := by
  cases token with
  | command name =>
    simp only [isName, Bool.and_eq_true, Bool.not_eq_true', List.isEmpty_eq_false_iff] at h
    have hscans := scansBefore_command h.1.2 h.2 (by rw [String.ofList_toList]; exact h.1.1)
    rw [String.ofList_toList] at hscans
    rw [text, String.toList_append]
    exact hscans
  | char | verbatim | assign => cases h

end Formula.Token
