import Formula.Proofs.Expr.OperandMarks
import Formula.Proofs.Expr.Sums

/-!
# Calls that are written with marks

The reader knows some functions by a mark behind the operand, by a pair of delimiters or by a pair of marks in front.  Most
of them are written so that they are read back, with a superscript on the mark or on the right delimiter.  Those whose mark
is written as a superscript are not: what is read is their argument with a superscript.
-/

namespace Formula

open Text Atom Expr

/-- The functions that the reader knows by marks behind an operand, by delimiters and by pairs of marks. -/
def markedFunctions : List String :=
  Glyph.postfixFunctions.map (·.2) ++ Glyph.delimiterFunctions.map (·.2) ++ Glyph.digraphs.map (·.2)

/-- The mark of the function is written as a superscript of the argument. -/
def isRaised (name : String) : Bool := (Catalog.builtinFunctionTemplates.lookup name).any (beginsWith · "% ^")

/-- No superscript, or a letter. -/
inductive IsLetterScript : Expr → Prop
  | absent : IsLetterScript missing
  | letter {d : Char} : isLetter d = true → IsLetterScript (letterSymbol d)

/-! ### Superscripts -/

theorem apply_attach (name : String) (e sup : Expr) :
    (apply name e).attach sup missing = call (.text name) e parentheses sup missing := by
  unfold attach
  cases h : sup.isMissing with
  | true =>
    obtain rfl : sup = missing := by cases sup <;> first | rfl | cases h
    rfl
  | false => rfl

/-- **Behind a text whose last atom takes a superscript, the superscript is written as that of the atom.** -/
theorem IsLetterScript.written {sup : Expr} (h : IsLetterScript sup) {s : String} {row : List Atom} {a : Atom}
    (hspells : Source.SpellsBefore .builtin s (row ++ [a])) (htype : a.type ∉ Source.Script.refused)
    (hsup : a.superscript = none) (hsub : a.subscript = none) :
    ∃ t inner, IsSuperText {} sup t ∧ Source.SpellsBefore .builtin (s ++ t) (row ++ [a.scripted inner none]) ∧
      ∀ e : Expr, Carries .builtin (a.scripted inner none) e (e.attach sup missing) := by
  cases h with
  | absent =>
    refine ⟨"", none, isSuperText_missing, ?_, fun e => .plain rfl e⟩
    rwa [String.append_empty, scripted_none hsup hsub]
  | @letter d hd =>
    obtain ⟨token, b, htoken, hlatex, hscan⟩ := isLetterToken_written hd
    have hset : Source.Script.super.set a [b] = a.scripted (some [b]) none := by
      unfold Source.Script.set Atom.scripted
      rw [← hsub]
    have hscripted := hspells.script .super ⟨hsup, htype⟩ ⟨[token], hscan, htoken.yields⟩
    rw [hset] at hscripted
    have hspacing : b.type ≠ .spacing := by
      rw [htoken.type]
      decide
    have hchain : IsChain .builtin (unspaced [b]) (letterSymbol d) [] := by
      rw [unspaced_singleton hspacing]
      exact htoken.operand.isPrimary.isChain
    exact ⟨_, some [b], isSuperText_of_latex rfl hlatex, hscripted.before, .super rfl rfl (hchain.isWhole (.leaf _))⟩

/-! ### How calls are written -/

/-- The argument of a loose function is in parentheses if it is a sum. -/
theorem IsSumOf.argument {e : Expr} {es : List Expr} (h : IsSumOf e es) {name template : String}
    (hloose : looseFunctions.contains name = true) (hopen : Format.enclosesArgument template = false) :
    ∃ s arg, argumentLatex {} (.text name) (.text template) e parentheses (e.latex {} .builtin) = .ok s ∧
      IsAddendText s arg ∧ (arg = joined "+" es ∨ arg = fenced (joined "+" es) parentheses) := by
  obtain ⟨s, -, hlatex, htext, -, -⟩ := h.written
  rw [hlatex]
  cases h with
  | term ht =>
    obtain ⟨s', hlatex', htext', -, hbare, -⟩ := ht.written
    obtain rfl := Except.ok.inj (hlatex.symm.trans hlatex')
    refine ⟨s, _, ?_, htext', .inl rfl⟩
    rw [argumentLatex_eq hopen hbare, hloose]
    rfl
  | sum =>
    refine ⟨_, _, ?_, htext.parenthesized.isAddendText, .inr rfl⟩
    rw [@argumentLatex_eq _ _ _ false _ hopen rfl, Bool.and_false]
    rfl

theorem IsSumOf.isNode {e : Expr} {es : List Expr} (h : IsSumOf e es) : e.isNode = true := by
  cases h with
  | term ht => cases ht <;> rfl
  | sum => rfl

/-! ### The three kinds of marks -/

variable {e sup : Expr} {es : List Expr}

/-- **A call with a mark behind its argument is read back**, with its superscript. -/
theorem PostfixMark.reread (m : PostfixMark) (he : IsSumOf e es) (hsup : IsLetterScript sup) :
    ∃ text arg, (call (.text m.name) e parentheses sup missing).latex {} .builtin = .ok text ∧
      IsReadAs text (call (.text m.name) arg parentheses sup missing) ∧
      (arg = joined "+" es ∨ arg = fenced (joined "+" es) parentheses) := by
  have hlast : m.last.type ∉ Source.Script.refused ∧ m.last.superscript = none ∧ m.last.subscript = none ∧
      ∀ inner, (m.last.scripted inner none).type ≠ .spacing := by
    cases m <;> exact ⟨by decide, rfl, rfl, fun _ h => by cases h⟩
  obtain ⟨htype, hnone, hnone', hspacing⟩ := hlast
  obtain ⟨s, arg, hargument, ⟨row, hspells, haddend⟩, harg⟩ := he.argument m.loose m.opens
  have hmarked := hspells.append (m.spells_sign) (by cases m <;> exact ⟨_, _, rfl, by decide⟩)
  rw [← List.append_assoc] at hmarked
  obtain ⟨t, inner, ht, hall, hcarries⟩ := hsup.written hmarked.before htype hnone hnone'
  refine ⟨s ++ m.sign ++ t, arg, m.latex he.isNode hargument ht, IsWhole.isReadAs (IsPrimary.isWhole ?_) hall, harg⟩
  have hfront : unspaced m.front = m.front := by cases m <;> rfl
  have hprimary := haddend.postfixed m (hcarries (apply m.name arg)) (by rw [apply_attach]; rfl)
  rw [apply_attach] at hprimary
  rwa [unspaced_append, unspaced_append, hfront, unspaced_singleton (hspacing inner), List.append_assoc]

/-- **A call that encloses its argument is read back**, with its superscript. -/
theorem Enclosure.reread_call (f : Enclosure) (he : IsSumOf e es) (hsup : IsLetterScript sup) :
    ∃ text, (call (.text f.name) e parentheses sup missing).latex {} .builtin = .ok text ∧
      IsReadAs text (call (.text f.name) (joined "+" es) parentheses sup missing) := by
  obtain ⟨s, -, hlatex, ⟨row, hspells, hsum⟩, -, -⟩ := he.written
  have hdelimited : delimited ((Datum.text f.left.text).orElse ".") ((Datum.text f.right.text).orElse ".") (joined "+" es) =
      .ok (apply f.name (joined "+" es)) := by
    unfold delimited
    rw [f.delimiterFunction?_eq]
    rfl
  obtain ⟨t, inner, ht, hall, hcarries⟩ := @IsLetterScript.written _ hsup _ [] _ (f.spells_around hspells).before
    (show AtomType.fenced ∉ Source.Script.refused by decide) rfl rfl
  refine ⟨_, latex_enclosure_super f he.isNode hlatex ht, IsWhole.isReadAs (IsPrimary.isWhole ?_) hall⟩
  have hprimary := (hsum.isInner.isWhole.delimited_scripts hdelimited (hcarries _) (by rw [apply_attach]; rfl)).isPrimary
  rw [apply_attach] at hprimary
  rwa [List.nil_append, unspaced_singleton (by exact fun h => by cases h)]

/-- **A call with marks in front of its argument is read back**, if it has no superscript. -/
theorem PrefixMark.reread (m : PrefixMark) (he : IsSumOf e es) :
    ∃ text arg, (apply m.name e).latex {} .builtin = .ok text ∧ IsReadAs text (apply m.name arg) ∧
      (arg = joined "+" es ∨ arg = fenced (joined "+" es) parentheses) := by
  obtain ⟨s, arg, hargument, ⟨row, hspells, haddend⟩, harg⟩ := he.argument m.loose m.opens
  refine ⟨m.sign ++ s, arg, m.latex he.isNode hargument, IsWhole.isReadAs (IsInner.isWhole ?_) (m.spells_sign.append_before hspells),
    harg⟩
  have hmarks : unspaced [nablaAtom, m.second] = [nablaAtom, m.second] := by cases m <;> rfl
  rw [unspaced_append, hmarks]
  exact haddend.prefixed m

/-! ### All of them -/

/-- A function that the reader knows by its marks is written by them, or as a superscript. -/
theorem markedFunctions_cases {name : String} (h : name ∈ markedFunctions) (hraised : isRaised name = false) :
    (∃ m : PostfixMark, m.name = name) ∨ (∃ f : Enclosure, f.name = name) ∨ ∃ m : PrefixMark, m.name = name := by
  have hcases : ∀ s ∈ markedFunctions, isRaised s = true ∨
      (∃ m ∈ [PostfixMark.factorial, .doubleFactorial, .maltese, .dollar, .percent, .underscore], m.name = s) ∨
      (∃ f ∈ [Enclosure.abs, .norm, .floor, .ceil, .angle, .upperCorner, .lowerCorner, .group, .moustache, .brace],
        f.name = s) ∨ ∃ m ∈ [PrefixMark.curl, .divergence], m.name = s := by decide +kernel
  rcases hcases name h with hr | ⟨m, -, hm⟩ | ⟨f, -, hf⟩ | ⟨m, -, hm⟩
  · rw [hraised] at hr
    cases hr
  · exact .inl ⟨m, hm⟩
  · exact .inr (.inl ⟨f, hf⟩)
  · exact .inr (.inr ⟨m, hm⟩)

/-- **A call of a function with marks is read back**, with its name, its superscript and its argument, unless the mark is
written as a superscript, or stands in front of the argument and the call has a superscript. -/
theorem marked_call_reread {name : String} (hname : name ∈ markedFunctions) (hraised : isRaised name = false)
    (he : IsSumOf e es) (hsup : IsLetterScript sup) (hbare : name ∈ Glyph.prefixDigraphs → sup = missing) :
    ∃ text arg, (call (.text name) e parentheses sup missing).latex {} .builtin = .ok text ∧
      IsReadAs text (call (.text name) arg parentheses sup missing) ∧
      (arg = joined "+" es ∨ arg = fenced (joined "+" es) parentheses) := by
  rcases markedFunctions_cases hname hraised with ⟨m, rfl⟩ | ⟨f, rfl⟩ | ⟨m, rfl⟩
  · exact m.reread he hsup
  · obtain ⟨text, hlatex, hread⟩ := f.reread_call he hsup
    exact ⟨text, _, hlatex, hread, .inl rfl⟩
  · obtain rfl := hbare (by cases m <;> decide)
    exact m.reread he

/-- A double factorial of a sum with a superscript. -/
theorem marked_call_reread_doubleFactorial :
    ∃ text arg, (call "factorial2" (between "+" (letterSymbol 'α') (ofNumber (.int 12))) parentheses (letterSymbol 'n')
        missing).latex {} .builtin = .ok text ∧
      IsReadAs text (call "factorial2" arg parentheses (letterSymbol 'n') missing) ∧
      (arg = joined "+" [letterSymbol 'α', ofNumber (.float (.ofInt 12))] ∨
        arg = fenced (joined "+" [letterSymbol 'α', ofNumber (.float (.ofInt 12))]) parentheses) :=
  @marked_call_reread _ _ _ "factorial2" (by decide) (by decide +kernel)
    (.sum (.term (.symbol (.inr (by decide +kernel)))) (.term (@IsTerm.number _ 12 (.int 12) (by decide))))
    (.letter (by decide)) (fun h => absurd h (by decide))

/-- **A prime is read as a superscript of its argument, and so is the superscript of a curl**, so that neither call is
read back. -/
theorem raised_call_lost :
    (∃ text, (apply "prime" (letterSymbol 'x')).latex {} .builtin = .ok text ∧ ¬ ∃ arg, IsReadAs text (apply "prime" arg)) ∧
      ∃ text, (call "curl" (letterSymbol 'x') parentheses (letterSymbol 'n') missing).latex {} .builtin = .ok text ∧
        ¬ ∃ arg, IsReadAs text (call "curl" arg parentheses (letterSymbol 'n') missing) := by
  have script : ∀ {source : String} {b : Bool} {e : Expr},
      (do ofAtoms .builtin (← Source.atoms .builtin source) : Outcome Expr).toOption.map (·.sup.isMissing) = some b →
        IsReadAs source e → e.sup.isMissing = b := by
    intro source b e h hread
    rw [isReadAs_iff.mp hread] at h
    exact Option.some.inj h
  have hprime : ((apply "prime" (letterSymbol 'x')).latex {} .builtin).toOption = some "x ^\x7b\\prime\x7d" := by
    decide +kernel
  have hcurl : ((call "curl" (letterSymbol 'x') parentheses (letterSymbol 'n') missing).latex {} .builtin).toOption =
      some "\\nabla\\times x^\x7bn\x7d" := by
    decide +kernel
  refine ⟨⟨_, Outcome.eq_ok_of_toOption hprime, fun ⟨arg, h⟩ => ?_⟩, _, Outcome.eq_ok_of_toOption hcurl, fun ⟨arg, h⟩ => ?_⟩
  · cases script (b := false) (by decide +kernel) h
  · cases script (b := true) (by decide +kernel) h

end Formula
