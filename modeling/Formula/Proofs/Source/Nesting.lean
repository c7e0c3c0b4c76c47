import Formula.Proofs.Source.Stopping

/-!
# How deep groups nest in a source

`Source.read` tells how many groups and fences were open at once while it read a source, but it counts them along its own
recursion.  The same number has a flat account.  At each token the reader waits for some things, the innermost first: an
argument, a delimiter, the end of a group.  `meet` says what one token does to that stack, and the most groups and fences
on it are as many as the reader ever had open.

This is shown for each function of the reader along its text.  What it leaves is then a place where the account goes on
with what the function was called for taken off the stack.  A `\right` is the one token that ends more than one thing:
the reader leaves it where it is, and so the stack below meets it again.
-/

namespace Formula.Source

open Text Outcome

/-! ### What the reader waits for -/

/-- Something that the reader waits for. -/
inductive Frame where
  | argument
  /-- The delimiter behind `\left`, `\right` or a size. -/
  | delimiter
  /-- The index or the argument of a root. -/
  | root
  /-- The brace that closes a group. -/
  | brace
  /-- The bracket that closes an index. -/
  | bracket
  /-- The `\right` of a fence. -/
  | fence
deriving DecidableEq, Repr

/-- The thing waited for is the end of a group or of a fence. -/
def Frame.isGroup (f : Frame) : Bool := f = .brace ∨ f = .fence

/-- How many groups and fences are open. -/
def openGroups (w : List Frame) : Nat := w.countP Frame.isGroup

/-- What the atom that starts with a token waits for. -/
def awaited : Token → List Frame
  | .verbatim .. => []
  | token =>
    if ignored.contains token.text then []
    else if spaces.contains token.text then []
    else if fractions.contains token.text then [.argument, .argument]
    else if token.text = "\\sqrt" then [.root]
    else if token.text = "\\left" then [.delimiter, .fence]
    else if sizes.contains token.text then [.delimiter]
    else if (fonts.lookup token.text).isSome then [.argument]
    else []

/-- A token where an argument is expected. -/
def meetArgument (w : List Frame) (token : Token) : List Frame :=
  if token = .char '\x7b' then .brace :: w else awaited token ++ w

/-- A token in a sequence that it does not end. -/
def meetInside (w : List Frame) (token : Token) : List Frame :=
  if token = .char '\x7d' then w
  else if (scriptOf? token).isSome then .argument :: w
  else meetArgument w token

/-- What the reader waits for behind a token. -/
def meet : List Frame → Token → List Frame
  | [], token => if token = .command "right" then [] else meetInside [] token
  | .argument :: w, token => meetArgument w token
  | .delimiter :: w, _ => w
  | .root :: w, token => if token = .char '[' then .bracket :: .argument :: w else meetArgument w token
  | .brace :: w, token =>
    if token = .char '\x7d' then w else if token = .command "right" then meet w token else meetInside (.brace :: w) token
  | .bracket :: w, token =>
    if token = .char ']' then w else if token = .command "right" then meet w token
    else meetInside (.bracket :: w) token
  | .fence :: w, token => if token = .command "right" then .delimiter :: w else meetInside (.fence :: w) token

/-- The most groups and fences that are open at once. -/
def deepest : List Frame → List Token → Nat
  | w, [] => openGroups w
  | w, token :: rest => max (openGroups w) (deepest (meet w token) rest)

/-! ### The stack -/

@[simp] theorem openGroups_nil : openGroups [] = 0 := rfl

theorem openGroups_cons (f : Frame) (w : List Frame) :
    openGroups (f :: w) = openGroups w + if f.isGroup then 1 else 0 := List.countP_cons

@[simp] theorem openGroups_argument (w : List Frame) : openGroups (.argument :: w) = openGroups w := rfl

@[simp] theorem openGroups_delimiter (w : List Frame) : openGroups (.delimiter :: w) = openGroups w := rfl

@[simp] theorem openGroups_root (w : List Frame) : openGroups (.root :: w) = openGroups w := rfl

@[simp] theorem openGroups_bracket (w : List Frame) : openGroups (.bracket :: w) = openGroups w := rfl

@[simp] theorem openGroups_brace (w : List Frame) : openGroups (.brace :: w) = openGroups w + 1 := by
  rw [openGroups_cons, if_pos (by decide)]

@[simp] theorem openGroups_fence (w : List Frame) : openGroups (.fence :: w) = openGroups w + 1 := by
  rw [openGroups_cons, if_pos (by decide)]

theorem openGroups_le_deepest (w : List Frame) (tokens : List Token) : openGroups w ≤ deepest w tokens := by
  cases tokens with
  | nil => exact Nat.le_refl _
  | cons token rest => exact Nat.le_max_left _ _

theorem deepest_meet_le (w : List Frame) (token : Token) (rest : List Token) :
    deepest (meet w token) rest ≤ deepest w (token :: rest) := Nat.le_max_right _ _

/-- A frame that opens nothing and lets the token through adds nothing. -/
theorem deepest_cons_of_meet {w v : List Frame} {token : Token} (hm : meet w token = meet v token)
    (ho : openGroups w = openGroups v) (rest : List Token) : deepest w (token :: rest) = deepest v (token :: rest) := by
  rw [deepest, deepest, hm, ho]


/-! ### Digits under a line -/

variable {c : Catalog}

/-- An ordinary atom of a token is spelled as the token is. -/
theorem latex_of_symbolAtom {s : String} {a : Atom} (h : symbolAtom c s = .ok a) (ht : a.type = .ordinary) :
    a.latex = .text s ∨ (a.latex = .null ∧ a.value = .text s) := by
  unfold symbolAtom at h
  split at h
  · rename_i type hlookup
    cases h
    exact .inr ⟨rfl, rfl⟩
  · iterate 4
      split at h
      · cases h
        cases ht
    obtain ⟨precedence, -, h⟩ := bind_eq_ok.mp h
    cases precedence with
    | some precedence =>
      cases h
      dsimp only [operatorAtom] at ht
      split at ht
      · cases ht
      · cases ht
    | none =>
      dsimp only at h
      split at h
      · cases h
        cases ht
      · split at h
        · cases h
          exact .inl rfl
        · cases h
          exact .inr ⟨rfl, rfl⟩

theorem of_isPlainDigit {a : Atom} (h : isPlainDigit a = true) :
    a.type = .ordinary ∧ ∃ d ∈ Atom.digits, a.spelled d = true := by
  obtain ⟨d, hd, hplain⟩ := List.any_eq_true.mp h
  simp only [isPlain, Bool.and_eq_true, beq_iff_eq] at hplain
  exact ⟨hplain.1.1, d, hd, hplain.2⟩

/-- A digit is spelled by its own token. -/
theorem mem_digits_of_symbolAtom {s : String} {a : Atom} (h : symbolAtom c s = .ok a) (hdigit : isPlainDigit a = true)
    (hblank : allBlank s = false) (htrim : trim s = s) (hne : s ≠ "") : s ∈ Atom.digits := by
  obtain ⟨ht, d, hd, hspelled⟩ := of_isPlainDigit hdigit
  have htext : a.text = .ok (.text s) := by
    unfold Atom.text
    obtain hlatex | ⟨hlatex, hvalue⟩ := latex_of_symbolAtom h ht
    · simp [hlatex, Datum.isVoid, hne, hblank, htrim]
    · simp [hlatex, hvalue, Datum.isVoid]
  unfold Atom.spelled at hspelled
  rw [htext] at hspelled
  rwa [eq_of_beq (hspelled : (s == d) = true)]

/-- How the atom that starts with a token is read. -/
inductive ReadsAtom (c : Catalog) (fuel : Nat) (token : Token) (rest : List Token) : Reading (Option Atom) → Prop
  | alone {value : Option Atom} : awaited token = [] →
    (∀ a ∈ value, a.type = .ordinary → symbolAtom c token.text = .ok a) → ReadsAtom c fuel token rest ⟨rest, value, 0⟩
  | sized {value : Option Atom} : awaited token = [.delimiter] → (∀ a ∈ value, a.type ≠ .ordinary) →
    ReadsAtom c fuel token rest ⟨rest.drop 1, value, 0⟩
  | fraction {numerator denominator : Reading (List Atom)} {value : Option Atom} :
    awaited token = [.argument, .argument] → readArgument c fuel rest = .ok numerator →
    readArgument c fuel numerator.rest = .ok denominator → (∀ a ∈ value, a.type ≠ .ordinary) →
    ReadsAtom c fuel token rest ⟨denominator.rest, value, max numerator.depth denominator.depth⟩
  | root {index : Reading (Option (List Atom))} {body : Reading (List Atom)} {value : Option Atom} :
    awaited token = [.root] → readIndex c fuel rest = .ok index → readArgument c fuel index.rest = .ok body →
    (∀ a ∈ value, a.type ≠ .ordinary) → ReadsAtom c fuel token rest ⟨body.rest, value, max index.depth body.depth⟩
  | fence {body : Reading (List Atom)} {value : Option Atom} : awaited token = [.delimiter, .fence] →
    readSequence c fuel .right [] 0 (rest.drop 1) = .ok body → (∀ a ∈ value, a.type ≠ .ordinary) →
    ReadsAtom c fuel token rest ⟨body.rest.drop 2, value, body.depth + 1⟩
  | font {body : Reading (List Atom)} {value : Option Atom} : awaited token = [.argument] →
    readArgument c fuel rest = .ok body → (∀ a ∈ value, a.type ≠ .ordinary) →
    ReadsAtom c fuel token rest ⟨body.rest, value, body.depth⟩

theorem readsAtom_of_readAtom {fuel : Nat} {token : Token} {rest : List Token} {read : Reading (Option Atom)}
    (h : readAtom c (fuel + 1) token rest = .ok read) : ReadsAtom c fuel token rest read := by
  cases token with
  | verbatim name content =>
    simp only [readAtom] at h
    split at h
    · cases h
      exact .alone rfl fun a ha ht => by cases ha; cases ht
    · cases h
      exact .alone rfl fun a ha ht => by cases ha; cases ht
  | _ =>
    simp only [readAtom] at h
    split at h
    next hi =>
      cases h
      exact .alone (if_pos hi) fun a ha ht => by cases ha
    next hi =>
    split at h
    next hs =>
      cases h
      exact .alone (by simp only [awaited, if_neg hi, if_pos hs]) fun a ha ht => by cases ha; cases ht
    next hs =>
    split at h
    next hf =>
      obtain ⟨numerator, hnumerator, h⟩ := bind_eq_ok.mp h
      obtain ⟨denominator, hdenominator, h⟩ := bind_eq_ok.mp h
      cases h
      exact .fraction (by simp only [awaited, if_neg hi, if_neg hs, if_pos hf]) hnumerator hdenominator
        fun a ha => by cases ha; nofun
    next hf =>
    split at h
    next hr =>
      obtain ⟨index, hindex, h⟩ := bind_eq_ok.mp h
      obtain ⟨body, hbody, h⟩ := bind_eq_ok.mp h
      cases h
      exact .root (by simp only [awaited, if_neg hi, if_neg hs, if_neg hf, if_pos hr]) hindex hbody
        fun a ha => by cases ha; nofun
    next hr =>
    split at h
    next hl =>
      obtain ⟨body, hbody, h⟩ := bind_eq_ok.mp h
      cases h
      exact .fence (by simp only [awaited, if_neg hi, if_neg hs, if_neg hf, if_neg hr, if_pos hl]) hbody
        fun a ha => by cases ha; nofun
    next hl =>
    split at h
    next hz =>
      have htypes : ∀ {delim latex : Datum}, ∀ a ∈ some ({ type := .sized, latex, delim } : Atom), a.type ≠ .ordinary :=
        fun a ha => by cases ha; nofun
      cases rest with
      | nil =>
        cases h
        exact .sized (by simp only [awaited, if_neg hi, if_neg hs, if_neg hf, if_neg hr, if_neg hl, if_pos hz])
          fun a ha => by cases ha
      | cons delimiter more =>
        cases h
        exact .sized (by simp only [awaited, if_neg hi, if_neg hs, if_neg hf, if_neg hr, if_neg hl, if_pos hz]) htypes
    next hz =>
    split at h
    next font hfont =>
      obtain ⟨body, hbody, h⟩ := bind_eq_ok.mp h
      cases h
      exact .font (by simp only [awaited, if_neg hi, if_neg hs, if_neg hf, if_neg hr, if_neg hl, if_neg hz, hfont,
        Option.isSome_some, if_true]) hbody fun a ha => by cases ha; nofun
    next hfont =>
      obtain ⟨a, ha, h⟩ := bind_eq_ok.mp h
      cases h
      refine .alone (by simp only [awaited, if_neg hi, if_neg hs, if_neg hf, if_neg hr, if_neg hl, if_neg hz, hfont,
        Option.isSome_none, Bool.false_eq_true, if_false]) fun b hb _ => ?_
      cases hb
      exact ha

/-- What is read as a digit waits for nothing, and is none of the tokens that a sequence treats in its own way. -/
theorem of_readAtom_digit {fuel : Nat} {token : Token} {rest : List Token} {read : Reading (Option Atom)} {a : Atom}
    (h : readAtom c (fuel + 1) token rest = .ok read) (ha : read.value = some a) (hdigit : isPlainDigit a = true) :
    awaited token = [] ∧ scriptOf? token = none ∧ token ∉ [Token.char '\x7d', .char ']', .command "right"] := by
  obtain ⟨ht, -⟩ := of_isPlainDigit hdigit
  cases readsAtom_of_readAtom h with
  | alone haw hsymbol =>
    have hmem := @mem_digits_of_symbolAtom _ _ _ (hsymbol a ha ht) hdigit
    refine ⟨haw, ?_, ?_⟩
    · unfold scriptOf?
      split
      · exact absurd (hmem (by decide) (by decide) (by decide)) (by decide)
      · exact absurd (hmem (by decide) (by decide) (by decide)) (by decide)
      · rfl
    · intro hspecial
      simp only [List.mem_cons, List.not_mem_nil, or_false] at hspecial
      rcases hspecial with rfl | rfl | rfl
      all_goals exact absurd (hmem (by decide) (by decide) (by decide)) (by decide)
  | sized _ htype => exact absurd ht (htype a ha)
  | fraction _ _ _ htype => exact absurd ht (htype a ha)
  | root _ _ _ htype => exact absurd ht (htype a ha)
  | fence _ _ htype => exact absurd ht (htype a ha)
  | font _ _ htype => exact absurd ht (htype a ha)

/-! ### The account of a sequence -/

/-- The stack of a sequence over what waits for it. -/
def Stop.frames : Stop → List Frame → List Frame
  | .sourceEnd, _ => []
  | .brace, w => .brace :: w
  | .bracket, w => .bracket :: w
  | .right, w => .fence :: w

/-- The stack behind a sequence: a fence is still open, its `\right` comes next. -/
def Stop.behind : Stop → List Frame → List Frame
  | .sourceEnd, _ => []
  | .brace, w => w
  | .bracket, w => w
  | .right, w => .fence :: w

theorem openGroups_behind_le (stop : Stop) (w : List Frame) : openGroups (stop.behind w) ≤ openGroups (stop.frames w) := by
  cases stop with
  | brace => exact Nat.le_of_lt (by rw [Stop.frames, openGroups_brace]; exact Nat.lt_succ_self _)
  | _ => exact Nat.le_refl _

/-- A token that does not end the sequence. -/
theorem meet_frames {stop : Stop} {token : Token} (hbrace : ¬(token = .char '\x7d' ∧ stop = .brace))
    (hbracket : ¬(token = .char ']' ∧ stop = .bracket)) (hright : token ≠ .command "right") (w : List Frame) :
    meet (stop.frames w) token = meetInside (stop.frames w) token := by
  cases stop with
  | sourceEnd => rw [Stop.frames, meet, if_neg hright]
  | brace => rw [Stop.frames, meet, if_neg fun h => hbrace ⟨h, rfl⟩, if_neg hright]
  | bracket => rw [Stop.frames, meet, if_neg fun h => hbracket ⟨h, rfl⟩, if_neg hright]
  | right => rw [Stop.frames, meet, if_neg hright]

/-- A sequence leaves a `\right` to what is below it. -/
theorem deepest_behind_right {stop : Stop} (h : stop ≠ .sourceEnd) (w : List Frame) (rest : List Token) :
    deepest (stop.behind w) (.command "right" :: rest) ≤ deepest (stop.frames w) (.command "right" :: rest) := by
  have hmeet : meet (stop.behind w) (.command "right") = meet (stop.frames w) (.command "right") := by
    cases stop with
    | sourceEnd => exact absurd rfl h
    | brace => rw [Stop.behind, Stop.frames, meet, if_neg (by decide), if_pos rfl]
    | bracket => rw [Stop.behind, Stop.frames, meet, if_neg (by decide), if_pos rfl]
    | right => rfl
  have hopen := openGroups_behind_le stop w
  rw [deepest, deepest, hmeet]
  omega

/-- Behind its `\right` and the delimiter a fence is closed. -/
theorem deepest_behind_fence {tokens rest : List Token} (h : EndsAt tokens .right rest) (w : List Frame) :
    deepest w (rest.drop 2) ≤ deepest (.fence :: w) rest := by
  have hopen : openGroups w ≤ openGroups (.fence :: w) := by
    rw [openGroups_fence]
    exact Nat.le_succ _
  cases h with
  | atEnd => exact hopen
  | @atRight _ rest _ _ =>
    cases rest with
    | nil => exact Nat.le_trans hopen (Nat.le_max_left _ _)
    | cons delimiter more =>
      calc deepest w more = deepest (meet (.delimiter :: w) delimiter) more := rfl
        _ ≤ deepest (.delimiter :: w) (delimiter :: more) := deepest_meet_le _ _ _
        _ = deepest (meet (.fence :: w) (.command "right")) (delimiter :: more) := by rw [meet, if_pos rfl]
        _ ≤ deepest (.fence :: w) (.command "right" :: delimiter :: more) := deepest_meet_le _ _ _

/-- From `tokens` with the stack `v` the reader went on to `rest` with the stack `w`, and opened `depth` more groups than
are open there: the account of all that is one number. -/
structure Spans (v : List Frame) (tokens : List Token) (w : List Frame) (rest : List Token) (depth : Nat) : Prop where
  goesOn : deepest w rest ≤ deepest v tokens
  opened : openGroups w + depth ≤ deepest v tokens

theorem Spans.here (w : List Frame) (rest : List Token) : Spans w rest w rest 0 :=
  ⟨Nat.le_refl _, openGroups_le_deepest w rest⟩

/-- One reading behind another. -/
theorem Spans.trans {u v w : List Frame} {tokens behind rest : List Token} {depth depth' : Nat}
    (h : Spans u tokens v behind depth) (h' : Spans v behind w rest depth') (ho : openGroups w ≤ openGroups v) :
    Spans u tokens w rest (max depth depth') := by
  have hgoes := h.goesOn
  have hopened := h.opened
  have hgoes' := h'.goesOn
  have hopened' := h'.opened
  exact ⟨by omega, by omega⟩

/-- A token in front. -/
theorem Spans.cons {v w : List Frame} {token : Token} {tokens rest : List Token} {depth : Nat}
    (h : Spans (meet v token) tokens w rest depth) : Spans v (token :: tokens) w rest depth :=
  ⟨Nat.le_trans h.goesOn (deepest_meet_le v token tokens), Nat.le_trans h.opened (deepest_meet_le v token tokens)⟩

/-- A sequence went on from `tokens`, with `depth` from what it had read before. -/
structure SpansSequence (stop : Stop) (w : List Frame) (tokens : List Token) (depth : Nat) (read : Reading (List Atom)) :
    Prop where
  goesOn : deepest (stop.behind w) read.rest ≤ deepest (stop.frames w) tokens
  opened : openGroups (stop.frames w) + read.depth ≤
    max (openGroups (stop.frames w) + depth) (deepest (stop.frames w) tokens)

/-! ### One function after the other -/

/-- The functions of the reader keep to the account, with so much fuel. -/
structure Accounted (c : Catalog) (fuel : Nat) : Prop where
  sequence : ∀ {stop atoms depth tokens read}, 2 * tokens.length ≤ fuel →
    readSequence c fuel stop atoms depth tokens = .ok read → ∀ w, SpansSequence stop w tokens depth read
  block : ∀ {atoms token rest block}, 2 * rest.length + 1 ≤ fuel →
    readBlock c fuel atoms token rest = .ok (some block) → ∀ stop w,
      Spans (Stop.frames stop w) (token :: rest) (Stop.frames stop w) block.rest block.depth
  argument : ∀ {tokens read}, 2 * tokens.length ≤ fuel → readArgument c fuel tokens = .ok read → ∀ w,
    Spans (.argument :: w) tokens w read.rest read.depth
  index : ∀ {tokens read}, 2 * tokens.length ≤ fuel → readIndex c fuel tokens = .ok read → ∀ w,
    Spans (.root :: w) tokens (.argument :: w) read.rest read.depth
  atom : ∀ {token rest read}, 2 * rest.length + 1 ≤ fuel → readAtom c fuel token rest = .ok read → ∀ w,
    Spans (awaited token ++ w) rest w read.rest read.depth

section

variable {fuel : Nat}

/-- A group between braces or brackets, or the inside of a fence, from its first token on. -/
theorem Accounted.group (ih : Accounted c fuel) {stop : Stop} {tokens : List Token} {read : Reading (List Atom)}
    (hfuel : 2 * tokens.length ≤ fuel) (h : readSequence c fuel stop [] 0 tokens = .ok read) (w : List Frame) :
    deepest (stop.behind w) read.rest ≤ deepest (stop.frames w) tokens ∧
      openGroups (stop.frames w) + read.depth ≤ deepest (stop.frames w) tokens := by
  obtain ⟨hgoes, hopened⟩ := ih.sequence hfuel h w
  have := openGroups_le_deepest (stop.frames w) tokens
  exact ⟨hgoes, by omega⟩

theorem Accounted.braces (ih : Accounted c fuel) {tokens : List Token} {read : Reading (List Atom)}
    (hfuel : 2 * tokens.length ≤ fuel) (h : readSequence c fuel .brace [] 0 tokens = .ok read) (w : List Frame) :
    Spans (.brace :: w) tokens w read.rest (read.depth + 1) := by
  obtain ⟨hgoes, hopened⟩ := ih.group hfuel h w
  simp only [Stop.frames, Stop.behind, openGroups_brace] at hgoes hopened
  exact ⟨hgoes, by omega⟩

theorem accounted_index (ih : Accounted c fuel) {tokens : List Token} {read : Reading (Option (List Atom))}
    (hfuel : 2 * tokens.length ≤ fuel + 1) (h : readIndex c (fuel + 1) tokens = .ok read) (w : List Frame) :
    Spans (.root :: w) tokens (.argument :: w) read.rest read.depth := by
  by_cases hbracket : tokens.head? = some (.char '[')
  · cases tokens with
    | nil => cases hbracket
    | cons token rest =>
      obtain rfl := Option.some.inj hbracket
      simp only [readIndex] at h
      obtain ⟨inner, hinner, h⟩ := bind_eq_ok.mp h
      cases h
      rw [List.length_cons] at hfuel
      obtain ⟨hgoes, hopened⟩ := ih.group (by omega) hinner (.argument :: w)
      exact Spans.cons ⟨hgoes, hopened⟩
  · rw [readIndex_none hbracket] at h
    cases h
    cases tokens with
    | nil => exact ⟨Nat.le_refl _, Nat.le_refl _⟩
    | cons token rest =>
      have htoken : token ≠ .char '[' := fun h => hbracket (congrArg some h)
      have hmeet : meet (.argument :: w) token = meet (.root :: w) token := by simp only [meet, if_neg htoken]
      have heq := deepest_cons_of_meet hmeet (by simp) rest
      exact ⟨Nat.le_of_eq heq, Nat.le_trans (openGroups_le_deepest _ _) (Nat.le_of_eq heq)⟩

theorem accounted_atom (ih : Accounted c fuel) {token : Token} {rest : List Token} {read : Reading (Option Atom)}
    (hfuel : 2 * rest.length ≤ fuel) (h : readAtom c (fuel + 1) token rest = .ok read) (w : List Frame) :
    Spans (awaited token ++ w) rest w read.rest read.depth := by
  cases readsAtom_of_readAtom h with
  | alone haw _ =>
    rw [haw]
    exact .here w rest
  | sized haw _ =>
    rw [haw]
    cases rest with
    | nil => exact ⟨Nat.le_refl _, Nat.le_refl _⟩
    | cons delimiter more => exact Spans.cons (.here w more)
  | @fraction numerator denominator _ haw hnumerator hdenominator _ =>
    rw [haw]
    have hlen := ((suffix_of_readArgument hfuel hnumerator).trans (List.tail_suffix _)).length_le
    exact (ih.argument hfuel hnumerator (.argument :: w)).trans (ih.argument (by omega) hdenominator w) (Nat.le_refl _)
  | @root index body _ haw hindex hbody _ =>
    rw [haw]
    have hlen := (suffix_of_readIndex hfuel hindex).length_le
    exact (ih.index hfuel hindex w).trans (ih.argument (by omega) hbody w) (Nat.le_refl _)
  | @fence body _ haw hbody _ =>
    rw [haw]
    have hlen : (rest.drop 1).length ≤ rest.length := by simp
    have hends := endsAt_of_readSequence (by omega) hbody
    obtain ⟨hgoes, hopened⟩ := ih.group (by omega) hbody w
    simp only [Stop.frames, Stop.behind, openGroups_fence] at hgoes hopened
    have hspans : Spans (.fence :: w) (rest.drop 1) w (body.rest.drop 2) (body.depth + 1) :=
      ⟨Nat.le_trans (deepest_behind_fence hends w) hgoes, by omega⟩
    cases rest with
    | nil => exact ⟨hspans.goesOn, hspans.opened⟩
    | cons delimiter more => exact Spans.cons (v := .delimiter :: .fence :: w) hspans
  | font haw hbody _ =>
    rw [haw]
    exact ih.argument hfuel hbody w

theorem accounted_argument (ih : Accounted c fuel) {tokens : List Token} {read : Reading (List Atom)}
    (hfuel : 2 * tokens.length ≤ fuel + 1) (h : readArgument c (fuel + 1) tokens = .ok read) (w : List Frame) :
    Spans (.argument :: w) tokens w read.rest read.depth := by
  cases tokens with
  | nil =>
    rw [readArgument_nil] at h
    cases h
    exact ⟨Nat.le_refl _, Nat.le_refl _⟩
  | cons token rest =>
    rw [List.length_cons] at hfuel
    simp only [readArgument] at h
    split at h
    next hbrace =>
      obtain ⟨inner, hinner, h⟩ := bind_eq_ok.mp h
      cases h
      refine Spans.cons ?_
      rw [meet, meetArgument, if_pos hbrace]
      exact ih.braces (by omega) hinner w
    next hbrace =>
      obtain ⟨inner, hinner, h⟩ := bind_eq_ok.mp h
      cases h
      refine Spans.cons ?_
      rw [meet, meetArgument, if_neg hbrace]
      exact ih.atom (by omega) hinner w

/-- Digits under a line may as well stand in the sequence itself. -/
theorem meet_argument_digits {fuel : Nat} {token : Token} {rest : List Token} {read : Reading (List Atom)}
    (hfuel : 2 ≤ fuel) (h : readArgument c fuel (token :: rest) = .ok read) (hne : read.value ≠ [])
    (hdigits : read.value.all isPlainDigit = true) (stop : Stop) (w : List Frame) :
    meet (.argument :: stop.frames w) token = meet (stop.frames w) token := by
  obtain ⟨fuel, rfl⟩ : ∃ n, fuel = n + 2 := ⟨fuel - 2, by omega⟩
  simp only [readArgument] at h
  split at h
  next hbrace =>
    subst hbrace
    rw [meet_frames (fun h => absurd h.1 (by decide)) (fun h => absurd h.1 (by decide)) (by decide)]
    rfl
  next hbrace =>
    obtain ⟨inner, hinner, h⟩ := bind_eq_ok.mp h
    cases h
    cases hvalue : inner.value with
    | none => exact absurd (by rw [hvalue]; rfl) hne
    | some a =>
      have hdigit : isPlainDigit a = true := List.all_eq_true.mp hdigits a (by rw [hvalue]; exact List.mem_singleton.mpr rfl)
      obtain ⟨haw, hscript, hspecial⟩ := of_readAtom_digit hinner hvalue hdigit
      simp only [List.mem_cons, List.not_mem_nil, or_false, not_or] at hspecial
      rw [meet_frames (fun h => hspecial.1 h.1) (fun h => hspecial.2.1 h.1) hspecial.2.2, meet, meetInside,
        if_neg hspecial.1, hscript]
      rfl

theorem accounted_block (ih : Accounted c fuel) {atoms : List Atom} {token : Token} {rest : List Token}
    {block : Reading (List Atom)} (hfuel : 2 * rest.length ≤ fuel)
    (h : readBlock c (fuel + 1) atoms token rest = .ok (some block)) (stop : Stop) (w : List Frame) :
    Spans (stop.frames w) (token :: rest) (stop.frames w) block.rest block.depth := by
  simp only [readBlock] at h
  split at h
  next hline =>
    obtain ⟨argument, hargument, h⟩ := bind_eq_ok.mp h
    obtain ⟨rfl, -⟩ := hline
    split at h
    next hdigits =>
      cases h
      simp only [Bool.and_eq_true, Bool.not_eq_true', List.isEmpty_eq_false_iff] at hdigits
      have hspans := ih.argument hfuel hargument (stop.frames w)
      refine Spans.cons ?_
      rw [meet_frames (fun h => absurd h.1 (by decide)) (fun h => absurd h.1 (by decide)) (by decide)]
      show Spans (stop.frames w) rest _ _ _
      cases rest with
      | nil =>
        rw [readArgument_nil] at hargument
        cases hargument
        exact absurd rfl hdigits.1
      | cons token rest =>
        rw [List.length_cons] at hfuel
        have hmeet := meet_argument_digits (by omega) hargument hdigits.1 hdigits.2 stop w
        have heq := deepest_cons_of_meet hmeet (openGroups_argument _) rest
        exact ⟨Nat.le_trans hspans.goesOn (Nat.le_of_eq heq), Nat.le_trans hspans.opened (Nat.le_of_eq heq)⟩
    next => cases h
  next => cases h

theorem awaited_ellipsis {token : Token} (h : ellipses.contains token.text = true) : awaited token = [] := by
  have htext : token.text = "\\ldots" ∨ token.text = "\\dots" := by
    simpa only [ellipses, List.contains_iff_mem, List.mem_cons, List.not_mem_nil, or_false] using h
  cases token with
  | verbatim name content => rfl
  | _ =>
    simp only [awaited]
    rcases htext with h | h
    all_goals
      rw [h]
      decide

theorem accounted_sequence (ih : Accounted c fuel) {stop : Stop} {atoms : List Atom} {depth : Nat}
    {tokens : List Token} {read : Reading (List Atom)} (hfuel : 2 * tokens.length ≤ fuel + 1)
    (h : readSequence c (fuel + 1) stop atoms depth tokens = .ok read) (w : List Frame) :
    SpansSequence stop w tokens depth read := by
  cases tokens with
  | nil =>
    rw [readSequence_nil] at h
    cases h
    exact ⟨openGroups_behind_le stop w, Nat.le_max_left _ _⟩
  | cons token rest =>
    rw [List.length_cons] at hfuel
    -- What one token, with what belongs to it, adds to the account; the sequence goes on behind it.
    have more : ∀ {atoms : List Atom} {depth' n : Nat} {behind : List Token},
        Spans (stop.frames w) (token :: rest) (stop.frames w) behind n → behind <:+ rest → depth' ≤ max depth n →
        readSequence c fuel stop atoms depth' behind = .ok read →
        SpansSequence stop w (token :: rest) depth read := by
      intro atoms depth' n behind hspans hs hd h
      have hlen := hs.length_le
      have ⟨hgoes, hopened⟩ := ih.sequence (by omega) h w
      have hgoes' := hspans.goesOn
      have hopened' := hspans.opened
      exact ⟨by omega, by omega⟩
    have skip : meet (stop.frames w) token = stop.frames w → readSequence c fuel stop atoms depth rest = .ok read →
        SpansSequence stop w (token :: rest) depth read := by
      intro hmeet h
      have hspans : Spans (stop.frames w) (token :: rest) (stop.frames w) rest 0 :=
        Spans.cons (by rw [hmeet]; exact .here _ _)
      exact more hspans List.suffix_rfl (Nat.le_max_left _ _) h
    have ended : ∀ {behind : List Token},
        deepest (stop.behind w) behind ≤ deepest (stop.frames w) (token :: rest) →
        (.ok ⟨behind, atoms.reverse, depth⟩ : Outcome (Reading (List Atom))) = .ok read →
        SpansSequence stop w (token :: rest) depth read := by
      intro behind hgoes h
      cases h
      exact ⟨hgoes, Nat.le_max_left _ _⟩
    simp only [readSequence] at h
    split at h
    next hclose =>
      subst hclose
      split at h
      next hstop =>
        subst hstop
        exact @ended rest (deepest_meet_le (.brace :: w) (.char '\x7d') rest) h
      next hstop =>
        refine skip ?_ h
        rw [meet_frames (fun h => hstop h.2) (fun h => absurd h.1 (by decide)) (by decide)]
        rfl
    next hclose =>
    split at h
    next hbracket =>
      obtain ⟨rfl, rfl⟩ := hbracket
      exact @ended rest (deepest_meet_le (.bracket :: w) (.char ']') rest) h
    next hbracket =>
    split at h
    next hright =>
      subst hright
      split at h
      next hstop =>
        subst hstop
        exact skip rfl h
      next hstop => exact ended (deepest_behind_right hstop w rest) h
    next hright =>
    have hmeet := meet_frames (fun h => hclose h.1) hbracket hright w
    rw [meetInside, if_neg hclose] at hmeet
    split at h
    next script hscript =>
      obtain ⟨argument, hargument, h⟩ := bind_eq_ok.mp h
      rw [hscript] at hmeet
      have hsuffix := (suffix_of_readArgument (by omega) hargument).trans (List.tail_suffix _)
      refine more (Spans.cons ?_) hsuffix (Nat.le_refl _) h
      rw [hmeet]
      exact ih.argument (by omega) hargument _
    next hscript =>
    rw [hscript] at hmeet
    split at h
    next hopen =>
      obtain ⟨inner, hinner, h⟩ := bind_eq_ok.mp h
      refine more (Spans.cons ?_) (endsAt_of_readSequence (by omega) hinner).suffix (Nat.le_refl _) h
      rw [hmeet, Option.isSome_none, if_neg Bool.false_ne_true, meetArgument, if_pos hopen]
      exact ih.braces (by omega) hinner _
    next hopen =>
    rw [Option.isSome_none, if_neg Bool.false_ne_true, meetArgument, if_neg hopen] at hmeet
    obtain ⟨found, hfound, h⟩ := bind_eq_ok.mp h
    cases found with
    | some block => exact more (ih.block (by omega) hfound stop w) (suffix_of_readBlock (by omega) hfound) (Nat.le_refl _) h
    | none =>
      dsimp only at h
      split at h
      next hellipsis =>
        refine skip ?_ h
        rw [hmeet, awaited_ellipsis (Bool.and_eq_true_iff.mp hellipsis).1]
        rfl
      next =>
        obtain ⟨a, ha, h⟩ := bind_eq_ok.mp h
        refine more (Spans.cons ?_) (suffix_of_readAtom (by omega) ha) (Nat.le_refl _) h
        rw [hmeet]
        exact ih.atom (by omega) ha _

end

/-- The account holds with any fuel. -/
theorem accounted (c : Catalog) : ∀ fuel, Accounted c fuel
  | 0 => {
    sequence := @fun _ _ _ tokens _ hfuel h w => by
      obtain rfl : tokens = [] := List.length_eq_zero_iff.mp (by omega)
      rw [readSequence_nil] at h
      cases h
      exact ⟨openGroups_behind_le _ w, Nat.le_max_left _ _⟩
    block := fun hfuel => absurd hfuel (by omega)
    argument := @fun tokens _ hfuel h w => by
      obtain rfl : tokens = [] := List.length_eq_zero_iff.mp (by omega)
      rw [readArgument_nil] at h
      cases h
      exact ⟨Nat.le_refl _, Nat.le_refl _⟩
    index := @fun tokens _ hfuel h w => by
      obtain rfl : tokens = [] := List.length_eq_zero_iff.mp (by omega)
      rw [readIndex_none (fun h => by cases h)] at h
      cases h
      exact ⟨Nat.le_refl _, Nat.le_refl _⟩
    atom := fun hfuel => absurd hfuel (by omega) }
  | fuel + 1 => {
    sequence := accounted_sequence (accounted c fuel)
    block := fun hfuel => accounted_block (accounted c fuel) (by omega)
    argument := accounted_argument (accounted c fuel)
    index := accounted_index (accounted c fuel)
    atom := fun hfuel => accounted_atom (accounted c fuel) (by omega) }

/-- No more groups and fences are open while a source is read than the account of its tokens says. -/
theorem depth_le_deepest {source : String} {read : Reading (List Atom)} (h : Source.read c source = .ok read) :
    read.depth ≤ deepest [] (Token.scan source) := by
  have hspans := (accounted c _).sequence (by omega) h []
  have hopened := hspans.opened
  simp only [Stop.frames, openGroups_nil] at hopened
  omega

end Formula.Source
