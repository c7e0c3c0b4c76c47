import Formula.Proofs.Expr.SymbolText
import Formula.Proofs.Reader.FenceForms

/-!
# Delimiters through their text

Between `\left` and `\right` a source may put any two delimiters around a sequence, and the tree keeps them.  A function
is written with the delimiters of its template, and a group with those that it has, as plain characters and commands.
For delimiters that belong together the tree of the text is the tree that was written: those of a function are read as
the function again, and parentheses and brackets are the plain form of the fence that they were.
-/

namespace Formula

open Text Atom Expr

/-! ### Sums of letters -/

/-- The sum of two letters. -/
def letterSum (a b : Char) : Expr := between "+" (letterSymbol a) (letterSymbol b)

theorem faultless_letterSum (a b : Char) : (letterSum a b).Faultless := .between (.symbol _ _) (.symbol _ _) _

/-- The sum of two tokens as it is written. -/
def sumText (first second : Token) : String := first.text ++ ("+" ++ second.text)

theorem latex_letterSum {a b : Char} {first second : Token} (ha : (letterSymbol a).latex {} .builtin = .ok first.text)
    (hb : (letterSymbol b).latex {} .builtin = .ok second.text) :
    (letterSum a b).latex {} .builtin = .ok (sumText first second) := by
  have := latex_infix .sum ha hb rfl rfl isSuperText_missing
  rwa [String.append_empty] at this

theorem scansBefore_sumText {first second : Token} (h : Token.ScansBefore first.text.toList [first])
    (h' : Token.ScansBefore second.text.toList [second]) :
    Token.ScansBefore (sumText first second).toList [first, .char '+', second] := by
  have hsign : Token.Scans ['+'] [.char '+'] := Token.scans_char (by decide) (by decide) (by decide) (by decide)
  rw [sumText, String.toList_append, String.toList_append]
  exact h.append (by decide : isLetter '+' = false) (hsign.append_before h')

section

variable {a b : Char} {first second : Token} {x y : Atom} (ha : IsLetterToken a first x) (hb : IsLetterToken b second y)
include ha hb

theorem yields_sum : Source.Yields .builtin [first, .char '+', second] [x, Infix.sum.atom, y] := by
  have hsign : Source.Yields .builtin [.char '+'] [Infix.sum.atom] := Source.yields_symbol (by decide) rfl rfl
  exact ha.yields.append (hsign.append hb.yields)

theorem isWhole_sum : IsWhole .builtin [x, Infix.sum.atom, y] (letterSum a b) := by
  obtain ⟨start, hchain⟩ := ha.operand.isPrimary.isChain.append Infix.sum.operator hb.operand.isPrimary.isChain
  have hspaceless : unspaced [x, Infix.sum.atom, y] = [x, Infix.sum.atom, y] := by
    refine unspaced_eq_self fun c hc => ?_
    simp only [List.mem_cons, List.not_mem_nil, or_false] at hc
    rcases hc with rfl | rfl | rfl
    · rw [ha.type]
      decide
    · decide
    · rw [hb.type]
      decide
  refine IsChain.isWhole (by rw [hspaceless]; exact hchain) (@Arranges.node _ [] _ _ _ _ (.leaf _) (.leaf _) ?_ ?_)
  · exact fun _ h => by cases h
  · exact fun _ h => by cases h

theorem wellFenced_sum : WellFenced [x, Infix.sum.atom, y] := by
  have hordinary : ∀ z : Atom, z.type = .ordinary → z.isLooseDelimiter = false := by
    intro z hz
    unfold isLooseDelimiter
    rw [hz]
    rfl
  refine ⟨?_, ?_⟩
  · rw [nests, nests, nests]
    simp only [ha.type, hb.type]
    rfl
  · simp only [List.forall_mem_cons, List.not_mem_nil, false_implies, implies_true, and_true]
    exact ⟨hordinary x ha.type, rfl, hordinary y hb.type⟩

theorem keyed_sum : ∀ z ∈ [x, Infix.sum.atom, y], ∃ t j, z.text = .ok t ∧ t.key = .ok j := by
  have worded : ∀ z : Atom, z.Worded → ∃ t j, z.text = .ok t ∧ t.key = .ok j := by
    intro z hz
    obtain ⟨t, ht⟩ := hz.text
    exact ⟨.text t, _, ht, rfl⟩
  simp only [List.forall_mem_cons, List.not_mem_nil, false_implies, implies_true, and_true]
  exact ⟨worded x (ha.operand.worded x (List.mem_singleton_self x)), ⟨_, _, rfl, rfl⟩,
    worded y (hb.operand.worded y (List.mem_singleton_self y))⟩

/-- **A fence around the sum is read as what its delimiters make of it.** -/
theorem isReadAs_delimited {left right : Token} {source : String} {e : Expr}
    (hsource : Token.scan source =
      .command "left" :: left :: ([first, .char '+', second] ++ [.command "right", right]))
    (he : delimited ((Datum.text left.text).orElse ".") ((Datum.text right.text).orElse ".") (letterSum a b) = .ok e)
    (hnode : e.isMissing = false) : IsReadAs source e := by
  obtain ⟨depth, hread⟩ := ((yields_sum ha hb).fenced left right).readTokens
  have hatoms : Source.atoms .builtin source =
      .ok [Source.fencedAtom left.text right.text [x, Infix.sum.atom, y]] := by
    unfold Source.atoms Source.read
    rw [hsource, hread]
    rfl
  have hchain := ((isWhole_sum ha hb).delimited he hnode).isPrimary.isChain
  exact ⟨_, hatoms, by rw [ofAtoms_eq]; exact (IsChain.isWhole hchain (.leaf e)).read⟩

end

/-! ### Functions -/

/-- The text between the delimiters of a function, one token behind the other. -/
theorem Enclosure.scan_around (f : Enclosure) {s : String} {tokens : List Token} (h : Token.ScansBefore s.toList tokens) :
    Token.scan (f.around s) = .command "left" :: f.left :: (tokens ++ [.command "right", f.right]) := by
  obtain ⟨d, ds, hl, hd, hfirst⟩ := @scans_written f.left (by cases f <;> decide)
  obtain ⟨e, es, hr, he, hlast⟩ := @scans_written f.right (by cases f <;> decide)
  have hright : Token.ScansBefore ('\\' :: (['r', 'i', 'g', 'h', 't'] ++ e :: es)) [.command "right", f.right] :=
    (Token.Scans.command (by decide) (by decide) (by decide) he hlast).before
  have hleft : Token.Scans ('\\' :: (['l', 'e', 'f', 't'] ++ d :: ds)) [.command "left", f.left] :=
    Token.Scans.command (by decide) (by decide) (by decide) hd hfirst
  refine Token.ScansBefore.scan ?_
  rw [around, String.toList_append, String.toList_append, String.toList_append, String.toList_append, hl, hr]
  exact hleft.append_before (h.append (by decide) hright)

/-- **A function that encloses a sum is read as itself.** -/
theorem Enclosure.reread (f : Enclosure) {a b : Char} (ha : isLetter a = true) (hb : isLetter b = true) :
    ∃ text, (apply f.name (letterSum a b)).latex {} .builtin = .ok text ∧ IsReadAs text (apply f.name (letterSum a b)) := by
  obtain ⟨first, x, hx, hlatex, hscan⟩ := isLetterToken_written ha
  obtain ⟨second, y, hy, hlatex', hscan'⟩ := isLetterToken_written hb
  refine ⟨_, latex_enclosure f rfl (latex_letterSum hlatex hlatex'),
    isReadAs_delimited hx hy (f.scan_around (scansBefore_sumText hscan hscan')) ?_ rfl⟩
  unfold delimited
  rw [f.delimiterFunction?_eq]
  rfl

/-! ### Groups -/

/-- The delimiters of groups that belong together. -/
inductive Bracket where
  | parenthesis
  | bracket
  | namedBracket
deriving DecidableEq

namespace Bracket

/-- The token of the left delimiter. -/
def left : Bracket → Token
  | parenthesis => .char '('
  | bracket => .char '['
  | namedBracket => .command "lbrack"

/-- The token of the right delimiter. -/
def right : Bracket → Token
  | parenthesis => .char ')'
  | bracket => .char ']'
  | namedBracket => .command "rbrack"

/-- The atom of the left delimiter. -/
def opening : Bracket → Atom
  | parenthesis => { type := .opening, value := "(" }
  | bracket => { type := .opening, value := "[" }
  | namedBracket => { type := .opening, latex := "\\lbrack" }

/-- The atom of the right delimiter. -/
def closing : Bracket → Atom
  | parenthesis => { type := .closing, value := ")" }
  | bracket => { type := .closing, value := "]" }
  | namedBracket => { type := .closing, latex := "\\rbrack" }

variable (k : Bracket)

/-- The group of an expression. -/
def around (e : Expr) : Expr := Expr.fenced e (.tuple [.text k.left.text, .text k.right.text])

theorem delimited_eq (e : Expr) :
    delimited ((Datum.text k.left.text).orElse ".") ((Datum.text k.right.text).orElse ".") e = .ok (k.around e) := by
  cases k <;> rfl

theorem isFence (body : List Atom) : IsFence k.left.text k.right.text body k.opening k.closing
    (Source.fencedAtom k.left.text k.right.text body) := by
  cases k <;> exact ⟨rfl, ⟨rfl, rfl⟩, ⟨rfl, rfl⟩, ⟨rfl, rfl, rfl⟩, ⟨rfl, rfl⟩, ⟨rfl, rfl⟩⟩

/-- A row between the delimiters is the whole row of a source. -/
theorem readTokens_between {tokens : List Token} {row : List Atom} (h : Source.Yields .builtin tokens row) :
    ∃ depth, Source.readTokens .builtin (k.left :: (tokens ++ [k.right])) = .ok ⟨[], k.opening :: (row ++ [k.closing]), depth⟩ := by
  have hopening : Source.Yields .builtin [k.left] [k.opening] := by
    cases k <;> exact Source.yields_symbol (by decide) rfl rfl
  have hclosing : Source.Yields .builtin [k.right] [k.closing] := by
    cases k <;> exact Source.yields_symbol (by decide) rfl rfl
  exact (hopening.append (h.append hclosing)).readTokens

/-- A text behind the left delimiter, which a blank separates from a letter if it is a command. -/
theorem scansBefore_front {s : String} {tokens : List Token} {next : Char} {cs : List Char} (hs : s.toList = next :: cs)
    (h : Token.ScansBefore s.toList tokens) :
    Token.ScansBefore (Format.glue k.left.text s).toList (k.left :: tokens) := by
  unfold Format.glue
  rw [hs]
  dsimp only
  cases k with
  | namedBracket =>
    have hcommand : Token.ScansBefore ('\\' :: "lbrack".toList) [.command "lbrack"] :=
      Token.scansBefore_command (by decide) (by decide) (by decide)
    cases hletter : isLetter next with
    | true =>
      rw [if_pos (by decide), String.toList_append, String.toList_append, List.append_assoc]
      exact hcommand.append (by decide : isLetter ' ' = false) ((Token.scans_blank (by decide)).append_before h)
    | false =>
      rw [Bool.false_and, if_neg Bool.false_ne_true, String.toList_append, hs]
      rw [hs] at h
      exact hcommand.append hletter h
  | parenthesis | bracket =>
    rw [if_neg (by rw [Bool.and_eq_true]; exact fun h => absurd h.2 (by decide)), String.toList_append]
    exact (Token.scans_char (by decide) (by decide) (by decide) (by decide)).append_before h

theorem latex_around {e : Expr} {text : String} (hsimple : e.isSimple {} = .ok false) (h : e.latex {} .builtin = .ok text) :
    (k.around e).latex {} .builtin = .ok (Format.glue k.left.text text ++ k.right.text) := by
  have hglue : ∀ out, Format.glue out k.right.text = out ++ k.right.text := by
    intro out
    cases k with
    | parenthesis => exact @Format.glue_sign ')' [] (by decide) out
    | bracket => exact @Format.glue_sign ']' [] (by decide) out
    | namedBracket => exact @Format.glue_sign '\\' "rbrack".toList (by decide) out
  have hjoin : Format.join [k.left.text, text, k.right.text] = Format.glue k.left.text text ++ k.right.text := by
    unfold Format.join
    rw [List.foldl_cons, List.foldl_cons, List.foldl_cons, List.foldl_nil, Format.glue_empty, hglue]
  have hfence : inFence (.tuple [.text k.left.text, .text k.right.text]) text =
      .ok (Format.glue k.left.text text ++ k.right.text) := by
    rw [← hjoin]
    cases k <;> rfl
  show guarded (groupLatex {} e (.tuple [.text k.left.text, .text k.right.text]) (e.latex {} .builtin) (.ok "")) = _
  unfold groupLatex
  rw [h, hsimple]
  show guarded (do
    let text ← inFence (.tuple [.text k.left.text, .text k.right.text]) text
    return text ++ "") = _
  rw [hfence]
  exact congrArg Except.ok String.append_empty

/-- The tokens of a text between the delimiters. -/
theorem scan_around {s : String} {tokens : List Token} (hne : s.toList ≠ []) (h : Token.ScansBefore s.toList tokens) :
    Token.scan (Format.glue k.left.text s ++ k.right.text) = k.left :: (tokens ++ [k.right]) := by
  obtain ⟨next, cs, hs⟩ := List.exists_cons_of_ne_nil hne
  have hfront := k.scansBefore_front hs h
  refine Token.ScansBefore.scan ?_
  rw [String.toList_append]
  cases k with
  | namedBracket =>
    exact hfront.append (by decide : isLetter '\\' = false)
      (Token.scansBefore_command (by decide : "rbrack".toList ≠ []) (by decide) (by decide))
  | parenthesis =>
    exact hfront.append (by decide : isLetter ')' = false)
      (Token.scans_char (by decide) (by decide) (by decide) (by decide)).before
  | bracket =>
    exact hfront.append (by decide : isLetter ']' = false)
      (Token.scans_char (by decide) (by decide) (by decide) (by decide)).before

/-- **A group around a sum is read as itself.** -/
theorem reread {a b : Char} (ha : isLetter a = true) (hb : isLetter b = true) : ∃ text,
    (k.around (letterSum a b)).latex {} .builtin = .ok text ∧ IsReadAs text (k.around (letterSum a b)) := by
  obtain ⟨first, x, hx, hlatex, hscan⟩ := isLetterToken_written ha
  obtain ⟨second, y, hy, hlatex', hscan'⟩ := isLetterToken_written hb
  have hne : (sumText first second).toList ≠ [] := by
    rw [sumText, String.toList_append, String.toList_append]
    exact List.append_ne_nil_of_right_ne_nil _ (List.cons_ne_nil _ _)
  have hsource := k.scan_around hne (scansBefore_sumText hscan hscan')
  obtain ⟨depth, hread⟩ := k.readTokens_between (yields_sum hx hy)
  have hatoms : Source.atoms .builtin (Format.glue k.left.text (sumText first second) ++ k.right.text) =
      .ok ([] ++ k.opening :: ([x, Infix.sum.atom, y] ++ k.closing :: [])) := by
    unfold Source.atoms Source.read
    rw [hsource, hread]
    rfl
  refine ⟨_, k.latex_around rfl (latex_letterSum hlatex hlatex'), _, hatoms, ?_⟩
  -- The plain delimiters are read like the atom of a fence, in which the sum is a row of its own.
  rw [(k.isFence _).ofAtoms_eq .builtin (wellFenced_sum hx hy) [] [] (by rw [List.append_nil]; exact keyed_sum hx hy)]
  have hchain := ((isWhole_sum hx hy).delimited (k.delimited_eq _) rfl).isPrimary.isChain
  rw [ofAtoms_eq]
  exact (IsChain.isWhole hchain (.leaf _)).read

end Bracket

/-! ### All delimiters that belong together -/

/-- Delimiters that belong together stand for a function or are brackets of a group, bare braces apart: a group between
these is written with the delimiters of a function. -/
theorem Glyph.partners_cases {left right : String} (h : (left, right) ∈ partners) (hbare : left ≠ "\x7b") :
    (∃ f : Enclosure, delimiterFunction? (.text left) (.text right) = .ok (some f.name)) ∨
      ∃ k : Bracket, left = k.left.text ∧ right = k.right.text := by
  simp only [partners, List.mem_cons, Prod.mk.injEq, List.not_mem_nil, or_false] at h
  rcases h with ⟨rfl, rfl⟩ | ⟨rfl, rfl⟩ | ⟨rfl, rfl⟩ | ⟨rfl, rfl⟩ | ⟨rfl, rfl⟩ | ⟨rfl, rfl⟩ | ⟨rfl, rfl⟩ | ⟨rfl, rfl⟩ |
    ⟨rfl, rfl⟩ | ⟨rfl, rfl⟩ | ⟨rfl, rfl⟩ | ⟨rfl, rfl⟩ | ⟨rfl, rfl⟩ | ⟨rfl, rfl⟩ | ⟨rfl, rfl⟩ | ⟨rfl, rfl⟩ | ⟨rfl, rfl⟩ |
    ⟨rfl, rfl⟩ | ⟨rfl, rfl⟩
  · exact .inr ⟨.parenthesis, rfl, rfl⟩
  · exact absurd rfl hbare
  · exact .inl ⟨.brace, rfl⟩
  · exact .inr ⟨.bracket, rfl, rfl⟩
  · exact .inl ⟨.abs, rfl⟩
  · exact .inl ⟨.norm, rfl⟩
  · exact .inl ⟨.brace, rfl⟩
  · exact .inl ⟨.angle, rfl⟩
  · exact .inl ⟨.floor, rfl⟩
  · exact .inl ⟨.ceil, rfl⟩
  · exact .inl ⟨.abs, rfl⟩
  · exact .inl ⟨.abs, rfl⟩
  · exact .inl ⟨.norm, rfl⟩
  · exact .inl ⟨.norm, rfl⟩
  · exact .inr ⟨.namedBracket, rfl, rfl⟩
  · exact .inl ⟨.upperCorner, rfl⟩
  · exact .inl ⟨.lowerCorner, rfl⟩
  · exact .inl ⟨.group, rfl⟩
  · exact .inl ⟨.moustache, rfl⟩

/-- **Delimiters that belong together survive their text.**  A sum of two letters between `\left` and `\right` with such
delimiters, bare braces apart, is read without an error, and the text of its tree is read as the same tree. -/
theorem fencedSum_reread {left right : Token} {a b : Char} {source : String}
    (hpair : (left.text, right.text) ∈ Glyph.partners) (hbare : left.text ≠ "\x7b") (ha : isLetter a = true)
    (hb : isLetter b = true)
    (hsource : Token.scan source = [.command "left", left, .char a, .char '+', .char b, .command "right", right]) :
    ∃ e text, IsReadAs source e ∧ e.errors = .ok [] ∧ e.latex {} .builtin = .ok text ∧ IsReadAs text e := by
  have hwritten : ∀ p ∈ Glyph.partners, (Datum.text p.1).isVoid = false ∧ (Datum.text p.2).isVoid = false := by decide
  obtain ⟨hleft, hright⟩ := hwritten _ hpair
  have hx := isLetterToken_char ha
  have hy := isLetterToken_char hb
  rcases Glyph.partners_cases hpair hbare with ⟨f, hf⟩ | ⟨k, hl, hr⟩
  · obtain ⟨text, hlatex, hread⟩ := f.reread ha hb
    refine ⟨_, text, isReadAs_delimited hx hy hsource ?_ rfl, ((faultless_letterSum a b).apply _).errors, hlatex, hread⟩
    rw [Datum.orElse_of_not_isVoid hleft, Datum.orElse_of_not_isVoid hright]
    unfold delimited
    rw [hf]
    rfl
  · obtain ⟨text, hlatex, hread⟩ := k.reread ha hb
    refine ⟨_, text, isReadAs_delimited hx hy hsource ?_ rfl, Faultless.errors ?_, hlatex, hread⟩
    · rw [hl, hr]
      exact k.delimited_eq _
    · exact @Faultless.of_parts _ [letterSum a b] _ _ rfl rfl rfl (faultless_letterSum a b).one Faultless.missing Faultless.missing

/-- The sum of `α` and `b` in named brackets. -/
theorem fencedSum_reread_brackets : ("\\lbrack", "\\rbrack") ∈ Glyph.partners ∧ isLetter 'α' = true ∧ ∃ e text,
    IsReadAs "\\left\\lbrack α+b\\right\\rbrack" e ∧ e.errors = .ok [] ∧ e.latex {} .builtin = .ok text ∧
      IsReadAs text e :=
  ⟨by decide, by decide +kernel, @fencedSum_reread (.command "lbrack") (.command "rbrack") 'α' 'b' _ (by decide) (by decide)
    (by decide +kernel) (by decide) rfl⟩

/-- A parenthesis that nothing closes is written as one, and read as one that is closed at the end. -/
theorem fencedSum_unclosed : ∃ e, IsReadAs "\\left( a+b \\right." e ∧ e.errors = .ok [] ∧
    e.latex {} .builtin = .ok "(a+b" ∧ ¬IsReadAs "(a+b" e := by
  have ha : isLetter 'a' = true := by decide
  have hb : isLetter 'b' = true := by decide
  refine ⟨fenced (letterSum 'a' 'b') (.tuple ["(", "."]), ?_, ?_, rfl, ?_⟩
  · exact @isReadAs_delimited _ _ _ _ _ _ (isLetterToken_char ha) (isLetterToken_char hb) (.char '(') (.char '.') _ _ rfl rfl rfl
  · exact Faultless.errors (@Faultless.of_parts _ [letterSum 'a' 'b'] _ _ rfl rfl rfl (faultless_letterSum 'a' 'b').one
      Faultless.missing Faultless.missing)
  · rintro ⟨atoms, hatoms, he⟩
    have hread : Source.atoms .builtin "(a+b" >>= ofAtoms .builtin = .ok (fenced (letterSum 'a' 'b') parentheses) := rfl
    rw [hatoms] at hread
    have heq : Except.ok _ = Except.ok _ := he.symm.trans hread
    injection heq with heq
    injection heq with _ heq
    injection heq with heq
    injection heq with _ heq
    injection heq with heq
    exact absurd (Datum.text.inj heq) (by decide)

end Formula
