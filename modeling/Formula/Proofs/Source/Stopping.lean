import Formula.Proofs.Reader.Worded
import Formula.Proofs.Settling
import Formula.Proofs.Source.Spelling

/-!
# Where the reader of sources stops

A place of a source is what is left of its tokens from there on.  However braces, brackets, `\left` and `\right` stand in
it, every function of the reader leaves an end of what it was given: an atom leaves less, an argument leaves less where
there is a token at all, and a sequence stops where `EndsAt` says and nowhere else.  So each of them needs no more than
two steps for a token, and a whole source is read to its end.

One thing can go wrong, a catalog that names a token by a value which is no key.  `Answers` allows for it, so that all of
this is proved of any catalog.  The induction is on the number of tokens: sequences, arguments and indices of fewer tokens
give what atoms and blocks do behind a token, and these give what a sequence does with one token more.
-/

namespace Formula

open Text Outcome

/-- Texts are keys. -/
theorem Catalog.Worded.named {c : Catalog} (hc : c.Worded) (token : String) :
    ∃ name, (c.canonicalName token).key = .ok name := ⟨_, (hc.nameOfTrimmed (trim token)).key⟩

namespace Source

variable {c : Catalog}

/-! ### Places -/

/-- What a catalog can fail of while a source is read: it names a token by a value that is no key. -/
def Unnamed (c : Catalog) (f : Fault) : Prop := ∃ token, (c.canonicalName token).key = .error f

/-- Where a sequence may stop: at the end of the tokens, right behind the brace or bracket that it waits for, or, between
braces, brackets or fences, at a `\right`. -/
inductive EndsAt (tokens : List Token) : Stop → List Token → Prop
  | atEnd {stop : Stop} : EndsAt tokens stop []
  | behindBrace {rest : List Token} : .char '\x7d' :: rest <:+ tokens → EndsAt tokens .brace rest
  | behindBracket {rest : List Token} : .char ']' :: rest <:+ tokens → EndsAt tokens .bracket rest
  | atRight {stop : Stop} {rest : List Token} : stop ≠ .sourceEnd → .command "right" :: rest <:+ tokens →
    EndsAt tokens stop (.command "right" :: rest)

namespace EndsAt

theorem suffix {tokens rest : List Token} {stop : Stop} (h : EndsAt tokens stop rest) : rest <:+ tokens := by
  cases h with
  | atEnd => exact List.nil_suffix
  | behindBrace h => exact (List.suffix_cons _ _).trans h
  | behindBracket h => exact (List.suffix_cons _ _).trans h
  | atRight _ h => exact h

theorem mono {tokens more rest : List Token} {stop : Stop} (h : EndsAt tokens stop rest) (hs : tokens <:+ more) :
    EndsAt more stop rest := by
  cases h with
  | atEnd => exact .atEnd
  | behindBrace h => exact .behindBrace (h.trans hs)
  | behindBracket h => exact .behindBracket (h.trans hs)
  | atRight hne h => exact .atRight hne (h.trans hs)

/-- Outside of braces, brackets and fences there is no stop but the end. -/
theorem eq_nil {tokens rest : List Token} (h : EndsAt tokens .sourceEnd rest) : rest = [] := by
  cases h with
  | atEnd => rfl
  | atRight hne => exact absurd rfl hne

end EndsAt

/-! ### Answers -/

theorem within_symbolAtom (token : String) : (symbolAtom c token).Within (Unnamed c) fun _ => True := by
  have hprecedence : (c.precedenceOf (c.canonicalName token)).Within (Unnamed c) fun _ => True := by
    unfold Catalog.precedenceOf
    cases h : (c.canonicalName token).key with
    | ok name => trivial
    | error f => exact ⟨token, h⟩
  unfold symbolAtom
  split
  · trivial
  · refine .choice (fun _ => trivial) fun _ => .choice (fun _ => trivial) fun _ => ?_
    refine .choice (fun _ => trivial) fun _ => .choice (fun _ => trivial) fun _ => ?_
    refine hprecedence.bind fun precedence _ => ?_
    cases precedence with
    | some precedence => trivial
    | none => exact .choice (fun _ => trivial) fun _ => .choice (fun _ => trivial) fun _ => trivial

/-- From the fuel `need` on there is one answer: a reading in `P`, or a fault of the catalog. -/
def Answers {α : Type} (c : Catalog) (P : α → Prop) (need : Nat) (f : Nat → Outcome α) : Prop :=
  Settles (Unnamed c) P need (f need) f

namespace Answers

variable {α β : Type} {P : α → Prop} {Q : β → Prop} {need more : Nat}

theorem mono {f : Nat → Outcome α} (h : Answers c P need f) (hn : need ≤ more) : Answers c P more f :=
  (Settles.mono h hn).self

theorem imp {P' : α → Prop} {f : Nat → Outcome α} (h : Answers c P need f) (hP : ∀ v, P v → P' v) :
    Answers c P' need f := Settles.imp h hP

theorem ret {v : α} (h : P v) : Answers c P need fun _ => pure v := Settles.ret h

theorem bind {f : Nat → Outcome α} {g : α → Nat → Outcome β} (hf : Answers c P need f)
    (hg : ∀ v, P v → Answers c Q need (g v)) : Answers c Q need fun fuel => f fuel >>= fun v => g v fuel :=
  (Settles.bind hf (Nat.le_refl _) hg).self

theorem choice {b : Prop} [Decidable b] {f f' : Nat → Outcome α} (hf : b → Answers c P need f)
    (hf' : ¬b → Answers c P need f') : Answers c P need fun fuel => if b then f fuel else f' fuel :=
  (Settles.choice hf hf').self

theorem step {f : Nat → Outcome α} (h : Answers c P need fun fuel => f (fuel + 1)) : Answers c P (need + 1) f :=
  (Settles.step h).self

/-- A function that gives the same value with any fuel. -/
theorem always {v : α} {f : Nat → Outcome α} (hf : ∀ fuel, f fuel = .ok v) (h : P v) : Answers c P 0 f :=
  ⟨fun fuel _ => by rw [hf, hf], .of_eq_ok (hf 0) h⟩

theorem symbolAtom (token : String) : Answers c (fun _ => True) need fun _ => Source.symbolAtom c token :=
  Settles.const (within_symbolAtom token)

/-- If every name is a key, the answer is a reading. -/
theorem exists_ok {f : Nat → Outcome α} (h : Answers c P need f)
    (named : ∀ token, ∃ name, (c.canonicalName token).key = .ok name) :
    ∃ v, (∀ fuel, need ≤ fuel → f fuel = .ok v) ∧ P v := by
  have hwithin : (f need).Within (fun _ => False) P := by
    refine h.within.imp (fun fault hfault => ?_) fun _ hv => hv
    obtain ⟨token, hkey⟩ := hfault
    obtain ⟨name, hname⟩ := named token
    rw [hname] at hkey
    cases hkey
  obtain ⟨v, hv, hP⟩ := hwithin.exists_ok
  exact ⟨v, fun fuel hfuel => (h.eq fuel hfuel).trans hv, hP⟩

/-- What is known of the answer is known of every value that there is enough fuel for. -/
theorem of_ok {f : Nat → Outcome α} (h : Answers c P need f) {fuel : Nat} (hn : need ≤ fuel) {v : α} (hf : f fuel = .ok v) :
    P v := h.within.of_ok ((h.eq fuel hn).symm.trans hf)

end Answers

/-! ### One function after the other -/

theorem readArgument_nil (fuel : Nat) : readArgument c fuel [] = .ok ⟨[], [], 0⟩ := by
  cases fuel with
  | zero => rw [readArgument]
  | succ fuel => rw [readArgument]

theorem readIndex_none {tokens : List Token} (h : tokens.head? ≠ some (.char '[')) (fuel : Nat) :
    readIndex c fuel tokens = .ok ⟨tokens, none, 0⟩ := by
  cases fuel with
  | zero => rw [readIndex]
  | succ fuel =>
    rw [readIndex]
    rintro rest rfl
    exact h rfl

/-- What fewer than `n` tokens are read as. -/
structure Tolerant (c : Catalog) (n : Nat) : Prop where
  sequence : ∀ {stop atoms depth tokens}, tokens.length < n →
    Answers c (fun read => EndsAt tokens stop read.rest) (2 * tokens.length) fun fuel =>
      readSequence c fuel stop atoms depth tokens
  argument : ∀ {tokens}, tokens.length < n →
    Answers c (fun read => read.rest <:+ tokens.tail) (2 * tokens.length) fun fuel => readArgument c fuel tokens
  index : ∀ {tokens}, tokens.length < n →
    Answers c (fun read => read.rest <:+ tokens) (2 * tokens.length) fun fuel => readIndex c fuel tokens

namespace Tolerant

variable {n : Nat}

/-- An argument somewhere in a row leaves an end of the row. -/
theorem argument_in (ih : Tolerant c n) {tokens rest : List Token} (hn : rest.length < n) (hs : tokens <:+ rest) :
    Answers c (fun read => read.rest <:+ rest) (2 * rest.length) fun fuel => readArgument c fuel tokens := by
  have hlen := hs.length_le
  refine Answers.mono (Answers.imp (ih.argument (by omega)) fun read h => ?_) (by omega : 2 * tokens.length ≤ _)
  exact (h.trans (List.tail_suffix _)).trans hs

theorem answers_bare (ih : Tolerant c n) {token : Token} (hbare : isBare token = true) {rest : List Token}
    (hn : rest.length < n) :
    Answers c (fun read => read.rest <:+ rest) (2 * rest.length) fun fuel => readAtom c (fuel + 1) token rest := by
  have argument : ∀ {tokens : List Token}, tokens <:+ rest →
      Answers c (fun read => read.rest <:+ rest) (2 * rest.length) fun fuel => readArgument c fuel tokens :=
    fun hs => ih.argument_in hn hs
  cases token with
  | verbatim name content => cases hbare
  | _ =>
    simp only [readAtom]
    refine .choice (fun _ => .ret List.suffix_rfl) fun _ => ?_
    refine .choice (fun _ => .ret List.suffix_rfl) fun _ => ?_
    refine .choice (fun _ => ?fraction) fun _ => ?_
    case fraction =>
      refine .bind (argument List.suffix_rfl) fun numerator hnumerator => ?_
      exact .bind (argument hnumerator) fun denominator hdenominator => .ret hdenominator
    refine .choice (fun _ => ?root) fun _ => ?_
    case root =>
      refine .bind (ih.index hn) fun index hindex => ?_
      exact .bind (argument hindex) fun body hbody => .ret hbody
    refine .choice (fun _ => ?fence) fun _ => ?_
    case fence =>
      have hlen : (rest.drop 1).length ≤ rest.length := by simp
      refine .bind ((ih.sequence (Nat.lt_of_le_of_lt hlen hn)).mono (by omega)) fun body hbody => .ret ?_
      exact ((List.drop_suffix 2 _).trans hbody.suffix).trans (List.drop_suffix 1 _)
    refine .choice (fun _ => ?size) fun _ => ?_
    case size =>
      cases rest with
      | nil => exact .ret List.suffix_rfl
      | cons delimiter more => exact .ret (List.suffix_cons delimiter more)
    generalize List.lookup _ fonts = font
    cases font with
    | some font => exact .bind (argument List.suffix_rfl) fun body hbody => .ret hbody
    | none => exact .bind (.symbolAtom _) fun a _ => .ret List.suffix_rfl

theorem answers_atom (ih : Tolerant c n) {token : Token} {rest : List Token} (hn : rest.length < n) :
    Answers c (fun read => read.rest <:+ rest) (2 * rest.length + 1) fun fuel => readAtom c fuel token rest := by
  refine .step ?_
  cases hbare : isBare token with
  | true => exact answers_bare ih hbare hn
  | false =>
    cases token with
    | verbatim name content =>
      simp only [readAtom]
      exact .choice (fun _ => .ret List.suffix_rfl) fun _ => .ret List.suffix_rfl
    | _ => cases hbare

theorem answers_block (ih : Tolerant c n) {atoms : List Atom} {token : Token} {rest : List Token}
    (hn : rest.length < n) :
    Answers c (fun found => ∀ block ∈ found, block.rest <:+ rest) (2 * rest.length + 1) fun fuel =>
      readBlock c fuel atoms token rest := by
  refine .step ?_
  simp only [readBlock]
  refine .choice (fun _ => .bind (ih.argument_in hn List.suffix_rfl) fun block hblock => .ret ?_) fun _ => .ret ?_
  · intro found hfound
    split at hfound
    · cases hfound
      exact hblock
    · cases hfound
  · intro found hfound
    cases hfound

theorem answers_index (ih : Tolerant c n) {tokens : List Token} (hn : tokens.length < n + 1) :
    Answers c (fun read => read.rest <:+ tokens) (2 * tokens.length) fun fuel => readIndex c fuel tokens := by
  by_cases h : tokens.head? = some (.char '[')
  · cases tokens with
    | nil => cases h
    | cons token rest =>
      obtain rfl := Option.some.inj h
      simp only [List.length_cons, Nat.add_lt_add_iff_right] at hn
      refine Answers.mono (?_ : Answers c _ (2 * rest.length + 1) _) (by simp only [List.length_cons]; omega)
      refine .step ?_
      simp only [readIndex]
      exact .bind (ih.sequence hn) fun read hread => .ret (hread.suffix.trans (List.suffix_cons _ rest))
  · exact Answers.mono (.always (readIndex_none h) List.suffix_rfl) (Nat.zero_le _)

theorem answers_argument (ih : Tolerant c n) {tokens : List Token} (hn : tokens.length < n + 1) :
    Answers c (fun read => read.rest <:+ tokens.tail) (2 * tokens.length) fun fuel => readArgument c fuel tokens := by
  cases tokens with
  | nil => exact .always readArgument_nil List.suffix_rfl
  | cons token rest =>
    simp only [List.length_cons, Nat.add_lt_add_iff_right] at hn
    refine Answers.step (?_ : Answers c _ (2 * rest.length + 1) _)
    simp only [readArgument]
    refine .choice (fun _ => ?_) fun _ => ?_
    · exact .bind ((ih.sequence hn).mono (by omega)) fun read hread => .ret hread.suffix
    · exact .bind (ih.answers_atom hn) fun read hread => .ret hread

theorem answers_sequence (ih : Tolerant c n) {stop : Stop} {atoms : List Atom} {depth : Nat} {tokens : List Token}
    (hn : tokens.length < n + 1) :
    Answers c (fun read => EndsAt tokens stop read.rest) (2 * tokens.length) fun fuel =>
      readSequence c fuel stop atoms depth tokens := by
  cases tokens with
  | nil => exact .always (fun fuel => readSequence_nil fuel stop atoms depth) .atEnd
  | cons token rest =>
    simp only [List.length_cons, Nat.add_lt_add_iff_right] at hn
    -- Whatever the token is, the sequence goes on somewhere in what stands behind it.
    have more : ∀ {atoms : List Atom} {depth : Nat} {behind : List Token}, behind <:+ rest →
        Answers c (fun read => EndsAt (token :: rest) stop read.rest) (2 * rest.length + 1) fun fuel =>
          readSequence c fuel stop atoms depth behind := by
      intro atoms depth behind hs
      have hlen := hs.length_le
      refine Answers.mono (Answers.imp (ih.sequence (by omega)) fun read h => ?_) (by omega : 2 * behind.length ≤ _)
      exact h.mono (hs.trans (List.suffix_cons token rest))
    refine Answers.step (?_ : Answers c _ (2 * rest.length + 1) _)
    simp only [readSequence]
    refine .choice (fun hbrace => .choice (fun hstop => .ret ?_) fun _ => more List.suffix_rfl) fun _ => ?_
    · subst hbrace hstop
      exact .behindBrace List.suffix_rfl
    refine .choice (fun hbracket => .ret ?_) fun _ => ?_
    · obtain ⟨rfl, rfl⟩ := hbracket
      exact .behindBracket List.suffix_rfl
    refine .choice (fun hright => .choice (fun _ => more List.suffix_rfl) fun hstop => .ret ?_) fun _ => ?_
    · subst hright
      exact .atRight hstop List.suffix_rfl
    cases scriptOf? token with
    | some script =>
      exact .bind ((ih.argument_in hn List.suffix_rfl).mono (by omega)) fun read hread => more hread
    | none =>
      refine .choice (fun _ => ?_) fun _ => ?_
      · exact .bind ((ih.sequence hn).mono (by omega)) fun read hread => more hread.suffix
      · refine .bind (ih.answers_block hn) fun found hfound => ?_
        cases found with
        | some block => exact more (hfound block rfl)
        | none =>
          refine .choice (fun _ => more List.suffix_rfl) fun _ => ?_
          exact .bind (ih.answers_atom hn) fun read hread => more hread

end Tolerant

/-- So many tokens or fewer, by induction on their number. -/
theorem tolerant (c : Catalog) : ∀ n, Tolerant c n
  | 0 => ⟨fun hn => absurd hn (Nat.not_lt_zero _), fun hn => absurd hn (Nat.not_lt_zero _),
    fun hn => absurd hn (Nat.not_lt_zero _)⟩
  | n + 1 => ⟨(tolerant c n).answers_sequence, (tolerant c n).answers_argument, (tolerant c n).answers_index⟩

theorem endsAt_of_readSequence {fuel : Nat} {stop : Stop} {atoms : List Atom} {depth : Nat} {tokens : List Token}
    {read : Reading (List Atom)} (hfuel : 2 * tokens.length ≤ fuel)
    (h : readSequence c fuel stop atoms depth tokens = .ok read) : EndsAt tokens stop read.rest :=
  ((tolerant c (tokens.length + 1)).sequence (Nat.lt_succ_self _)).of_ok hfuel h

theorem suffix_of_readArgument {fuel : Nat} {tokens : List Token} {read : Reading (List Atom)}
    (hfuel : 2 * tokens.length ≤ fuel) (h : readArgument c fuel tokens = .ok read) : read.rest <:+ tokens.tail :=
  ((tolerant c (tokens.length + 1)).argument (Nat.lt_succ_self _)).of_ok hfuel h

theorem suffix_of_readIndex {fuel : Nat} {tokens : List Token} {read : Reading (Option (List Atom))}
    (hfuel : 2 * tokens.length ≤ fuel) (h : readIndex c fuel tokens = .ok read) : read.rest <:+ tokens :=
  ((tolerant c (tokens.length + 1)).index (Nat.lt_succ_self _)).of_ok hfuel h

theorem suffix_of_readAtom {fuel : Nat} {token : Token} {rest : List Token} {read : Reading (Option Atom)}
    (hfuel : 2 * rest.length + 1 ≤ fuel) (h : readAtom c fuel token rest = .ok read) : read.rest <:+ rest :=
  ((tolerant c (rest.length + 1)).answers_atom (Nat.lt_succ_self _)).of_ok hfuel h

theorem suffix_of_readBlock {fuel : Nat} {atoms : List Atom} {token : Token} {rest : List Token}
    {block : Reading (List Atom)} (hfuel : 2 * rest.length + 1 ≤ fuel)
    (h : readBlock c fuel atoms token rest = .ok (some block)) : block.rest <:+ rest :=
  ((tolerant c (rest.length + 1)).answers_block (Nat.lt_succ_self _)).of_ok hfuel h block rfl

/-! ### Whole sources -/

/-- How far the functions of the reader get on the tokens: each gives a reading that more fuel does not change. -/
structure Advances (c : Catalog) (tokens : List Token) : Prop where
  /-- A sequence leaves an end of the tokens, and stops nowhere but at its stop. -/
  sequence : ∀ stop atoms depth, ∃ read,
    (∀ fuel, 2 * tokens.length ≤ fuel → readSequence c fuel stop atoms depth tokens = .ok read) ∧
      read.rest <:+ tokens ∧ EndsAt tokens stop read.rest
  /-- An argument takes a token if there is one. -/
  argument : ∃ read, (∀ fuel, 2 * tokens.length ≤ fuel → readArgument c fuel tokens = .ok read) ∧
    read.rest <:+ tokens.tail
  /-- An atom takes its token. -/
  atom : ∀ token rest, tokens = token :: rest → ∃ read,
    (∀ fuel, 2 * tokens.length ≤ fuel → readAtom c fuel token rest = .ok read) ∧ read.rest <:+ rest

theorem advances (named : ∀ token, ∃ name, (c.canonicalName token).key = .ok name) (tokens : List Token) :
    Advances c tokens where
  sequence stop atoms depth := by
    obtain ⟨read, hread, hends⟩ :=
      (@(tolerant c (tokens.length + 1)).sequence stop atoms depth _ (Nat.lt_succ_self _)).exists_ok named
    exact ⟨read, hread, hends.suffix, hends⟩
  argument := ((tolerant c (tokens.length + 1)).argument (Nat.lt_succ_self _)).exists_ok named
  atom token rest h := by
    subst h
    exact (((tolerant c (rest.length + 1)).answers_atom (Nat.lt_succ_self _)).mono
      (by rw [List.length_cons]; omega)).exists_ok named

theorem exists_read (named : ∀ token, ∃ name, (c.canonicalName token).key = .ok name) (source : String) :
    ∃ read, Source.read c source = .ok read ∧ read.rest = [] := by
  obtain ⟨read, hread, -, hends⟩ := (advances named (Token.scan source)).sequence .sourceEnd [] 0
  exact ⟨read, hread (4 * (Token.scan source).length + 4) (by omega), hends.eq_nil⟩

/-- Every source has a reading, which reaches to its end: wherever a function of the reader is called in its tokens, it
moves on and stops nowhere too early.  Names that are texts, or any other keys, are all that is asked of the catalog. -/
theorem read_whole_source (c : Catalog) (named : ∀ token, ∃ name, (c.canonicalName token).key = .ok name)
    (source : String) :
    (∃ read, Source.read c source = .ok read ∧ Source.atoms c source = .ok read.value ∧ read.rest = []) ∧
      ∀ tokens, tokens <:+ Token.scan source → Advances c tokens := by
  obtain ⟨read, hread, hrest⟩ := exists_read named source
  exact ⟨⟨read, hread, by rw [Source.atoms, hread]; rfl, hrest⟩, fun tokens _ => advances named tokens⟩

/-- With the usual vocabulary, and closers and openers that do not match. -/
theorem read_whole_unbalanced :
    (∀ token, ∃ name, (Catalog.builtin.canonicalName token).key = .ok name) ∧
      (∃ read, Source.read .builtin "\x7d\\right]^\x7b\\left(\\sqrt[" = .ok read ∧
        Source.atoms .builtin "\x7d\\right]^\x7b\\left(\\sqrt[" = .ok read.value ∧ read.rest = []) ∧
      ∀ tokens, tokens <:+ Token.scan "\x7d\\right]^\x7b\\left(\\sqrt[" → Advances .builtin tokens :=
  ⟨Catalog.worded_builtin.named,
    read_whole_source .builtin (Catalog.worded_builtin.named) "\x7d\\right]^\x7b\\left(\\sqrt["⟩

end Source

end Formula
