import Formula.Proofs.Expr.LetterSymbols
import Formula.Proofs.Expr.MarkedCalls
import Formula.Proofs.Source.Attaching

/-!
# Places for scripts

A node is written with its scripts behind it, and each of them needs a place at the last atom of the text in front.  The text
of a node may have used up places of its own: a power of ten is a superscript, and so is the mark of a prime, which is put
behind an argument that may have scripts.  The scripts of a curl stand behind its argument, too.

`Expr.scriptsFit` says of a tree that no script of it comes to a place that is taken.
-/

namespace Formula

open Number Text Atom

/-! ### Trees -/

namespace Expr

/-- The number ends in a power of ten, which it does not if it is in parentheses because of its scripts. -/
def endsInPower (value : Datum) (decorated : Bool) : Bool :=
  (({} : Format).number value).toOption.any fun text =>
    text.toList.contains '^' && !(decorated && (beginsWith text "-" || holds text "\\"))

/-- Behind the text of the node there is a place for a script. -/
def hasPlace (e : Expr) : Source.Script → Bool
  | .super => e.sup.isMissing && match e with
    | number value _ t => !endsInPower value (!t.isMissing)
    | _ => true
  | .sub => e.sub.isMissing

/-- Behind the text of the node as an argument, which is in parentheses unless it is bare, there is a place for a script. -/
def leavesPlace (e : Expr) (kind : Source.Script) : Bool :=
  !(e.isBareArgument {}).toOption.getD false || e.hasPlace kind

/-- The function is written with places for the scripts of a call of its own, at its name, at delimiters around the argument or
at a mark behind it: it is neither a mark that is a superscript of the argument nor a pair of marks in front of it. -/
def hasOwnPlaces (name : String) : Bool := !isRaised name && !Glyph.prefixDigraphs.contains name

/-- The scripts of a call have places.  A mark that is a superscript of the argument needs the place of one, and leaves none for
that of the call; behind a pair of marks in front of the argument, all scripts come to the places of the argument. -/
def callFits (name : String) (argument s t : Expr) : Bool :=
  hasOwnPlaces name ||
    (if isRaised name then s.isMissing && argument.leavesPlace .super else s.isMissing || argument.leavesPlace .super) &&
      (t.isMissing || argument.leavesPlace .sub)

/-- The token that a delimiter is written as. -/
def glyphToken (s : String) : Token := (Token.scan ((delimiterLatex (.text s)).toOption.getD "")).headD default

/-- The right delimiter takes scripts, which one that opens fences does not. -/
def takesScripts : Datum → Bool
  | .tuple [_, .text right] => Source.takesScripts (glyphToken right)
  | _ => true

mutual

/-- Every script of the tree has a place.  There is none for a superscript behind a power of ten and for scripts behind a
delimiter that takes none, and those of a call may come to the places of its argument. -/
def scriptsFit : Expr → Bool
  | missing | foreign _ => true
  | tuple items => scriptsFitEach items
  | number value s t => s.scriptsFit && t.scriptsFit && (s.isMissing || !endsInPower value true)
  | symbol _ _ s t | text _ s t | complex _ _ s t | error _ _ s t => s.scriptsFit && t.scriptsFit
  | group inner fence s t =>
    s.scriptsFit && t.scriptsFit && inner.scriptsFit &&
      ((s.isMissing && t.isMissing) || takesScripts fence || (inner.isSimple {}).toOption.getD false)
  | unary _ operand s t => s.scriptsFit && t.scriptsFit && operand.scriptsFit
  | binary _ left right s t => s.scriptsFit && t.scriptsFit && left.scriptsFit && right.scriptsFit
  | fraction numerator denominator s t =>
    s.scriptsFit && t.scriptsFit && numerator.scriptsFit && denominator.scriptsFit
  | root radicand index s t => s.scriptsFit && t.scriptsFit && radicand.scriptsFit && index.scriptsFit
  | call name argument _ s t =>
    s.scriptsFit && t.scriptsFit && argument.scriptsFit && name.text?.all fun name => callFits name argument s t

/-- Every script of the trees has a place. -/
def scriptsFitEach : List Expr → Bool
  | [] => true
  | e :: rest => e.scriptsFit && scriptsFitEach rest

end

/-- The scripts of a call and in its parts. -/
theorem scriptsFit_call_iff {name : String} {e s t : Expr} : (call (.text name) e parentheses s t).scriptsFit = true ↔
    (e.scriptsFit = true ∧ s.scriptsFit = true ∧ t.scriptsFit = true) ∧ callFits name e s t = true := by
  have hname : (Datum.text name).text?.all (fun name => callFits name e s t) = callFits name e s t := rfl
  rw [scriptsFit, hname]
  simp only [Bool.and_eq_true]
  tauto

/-- The scripts of a call at places of its own fit if those in its parts do. -/
theorem scriptsFit_call {name : String} {e s t : Expr} (hplaces : hasOwnPlaces name = true) :
    (call (.text name) e parentheses s t).scriptsFit = true ↔
      e.scriptsFit = true ∧ s.scriptsFit = true ∧ t.scriptsFit = true := by
  rw [scriptsFit_call_iff, callFits, hplaces]
  exact and_iff_left rfl

/-! ### Texts of scripts -/

/-- The text of a script with its sign, of which there is none for a missing one. -/
def scriptText (kind : Source.Script) (s : Expr) (text : String) : String :=
  if s.isMissing then "" else kind.sign ++ braced text

section

variable {s t : Expr} {above below : String}

theorem scriptsLatex_super (h : s.latex {} .builtin = .ok above) :
    scriptsLatex (present s (s.latex {} .builtin)) none = .ok (scriptText .super s above) := by
  unfold present scriptText
  cases s.isMissing with
  | true => rfl
  | false =>
    rw [if_neg Bool.false_ne_true, if_neg Bool.false_ne_true, h]
    exact congrArg Except.ok String.empty_append

theorem scriptsLatex_sub (h : t.latex {} .builtin = .ok below) :
    scriptsLatex none (present t (t.latex {} .builtin)) = .ok (scriptText .sub t below) := by
  unfold present scriptText
  cases t.isMissing with
  | true => rfl
  | false =>
    rw [if_neg Bool.false_ne_true, if_neg Bool.false_ne_true, h]
    exact congrArg Except.ok String.append_empty

theorem areScriptTexts (hs : s.latex {} .builtin = .ok above) (ht : t.latex {} .builtin = .ok below) :
    AreScriptTexts {} s t (scriptText .sub t below ++ scriptText .super s above) := by
  unfold AreScriptTexts present scriptText
  cases s.isMissing <;> cases t.isMissing <;>
    simp only [Bool.false_eq_true, if_true, if_false, hs, ht] <;> rfl

end

end Expr

open Expr

namespace Source

variable {x text above below : String} {p q : Prop} {free : Script → Prop} {s t : Expr}

/-- **The script of a node behind a text**: if there is one, its place has to be free. -/
theorem EndsFree.script? (kind : Script) (h : EndsFree x p free) (hs : SpellsAttached text (s.scriptsFit = true)) :
    EndsFree (x ++ scriptText kind s text) (p ∧ s.scriptsFit = true ∧ (s.isMissing = false → free kind))
      fun k => (k = kind → s.isMissing = true) ∧ free k := by
  unfold scriptText
  cases hmissing : s.isMissing with
  | true =>
    rw [if_pos rfl, String.append_empty]
    have hfit : s.scriptsFit = true := by
      rw [eq_missing hmissing]
      rfl
    refine h.congr ?_ fun k _ => ?_
    · simp [hfit]
    · simp
  | false =>
    rw [if_neg Bool.false_ne_true]
    refine (h.script kind hs).congr ?_ fun k _ => ?_
    · simp
    · simp

/-- **Both scripts behind a text.** -/
theorem EndsFree.scripts (h : EndsFree x p free) (hs : SpellsAttached above (s.scriptsFit = true))
    (ht : SpellsAttached below (t.scriptsFit = true)) :
    EndsFree (x ++ (scriptText .sub t below ++ scriptText .super s above))
      (p ∧ (s.scriptsFit = true ∧ t.scriptsFit = true) ∧ (s.isMissing = false → free .super) ∧ (t.isMissing = false → free .sub))
      fun kind => free kind ∧ (kind = .super → s.isMissing = true) ∧ (kind = .sub → t.isMissing = true) := by
  have hall := (h.script? .sub ht).script? .super hs
  rw [String.append_assoc] at hall
  refine hall.congr ?_ fun kind _ => ?_
  · constructor
    · rintro ⟨⟨hp, hbelow, hsub⟩, habove, hsuper⟩
      exact ⟨hp, ⟨habove, hbelow⟩, fun hthere => (hsuper hthere).2, hsub⟩
    · rintro ⟨hp, ⟨habove, hbelow⟩, hsuper, hsub⟩
      have hother : Script.super = .sub → t.isMissing = true := fun h => by cases h
      exact ⟨⟨hp, hbelow, hsub⟩, habove, fun hthere => ⟨hother, hsuper hthere⟩⟩
  · exact ⟨fun ⟨hs, ht, hf⟩ => ⟨hf, hs, ht⟩, fun ⟨hf, hs, ht⟩ => ⟨hs, ht, hf⟩⟩

end Source

open Source (SpellsAttached EndsFree)

/-! ### Symbols -/

/-- A letter of any script, or one of the four symbols of the vocabulary that are no letters. -/
def IsSymbolLetter (d : Char) : Prop := isLetter d = true ∨ d ∈ ['∞', '∂', '∅', '∇']

theorem IsSymbolLetter.spelled {d : Char} (h : IsSymbolLetter d) : ∃ text,
    symbolLatex .builtin (.text d.toString) .null = .ok (.text text) ∧ EndsFree text True fun _ => True := by
  rcases h with hletter | hother
  · obtain ⟨token, a, htoken, hspelled, hscan⟩ := isLetterToken_spelled hletter
    have hspells : Source.SpellsBefore .builtin token.text [a] := ⟨[token], hscan, htoken.yields⟩
    have hne : d ≠ '\u200b' := by
      rintro rfl
      exact absurd hletter (by decide +kernel)
    have hordinary : a.type ∉ Source.Script.refused := by
      rw [htoken.type]
      decide
    have hattached : Attached [a] := by
      rcases htoken.atom with rfl | ⟨command, rfl⟩ <;> exact attached_leaf (Source.isLeaf_character hne)
    refine ⟨token.text, hspelled, Source.endsFree_single hspells (iff_of_true hattached trivial) hordinary ?_ ?_⟩ <;>
      rcases htoken.atom with rfl | ⟨command, rfl⟩ <;> rfl
  · have command : ∀ {name : String}, name ∈ ["infty", "partial", "emptyset", "nabla"] →
        EndsFree ("\\" ++ name) True fun _ => True := by
      intro name hname
      have hfacts : ∀ s ∈ ["infty", "partial", "emptyset", "nabla"], (Token.command s).isName = true ∧
          Source.HasLeaf (.command s) ∧ Source.takesScripts (.command s) = true := by decide +kernel
      obtain ⟨htoken, hleaf, htakes⟩ := hfacts name hname
      exact (hleaf.endsFree (.inr htoken)).congr Iff.rfl fun _ _ => iff_of_true htakes trivial
    simp only [List.mem_cons, List.not_mem_nil, or_false] at hother
    rcases hother with rfl | rfl | rfl | rfl
    · exact ⟨_, rfl, @command "infty" (by decide)⟩
    · exact ⟨_, rfl, @command "partial" (by decide)⟩
    · exact ⟨_, rfl, @command "emptyset" (by decide)⟩
    · exact ⟨_, rfl, @command "nabla" (by decide)⟩

/-- A name that is no symbol of the vocabulary and refers to no character stands for itself. -/
theorem symbolLatex_self {s : String} (hreference : holds s "&#" = false) (hforeign : s ∉ Catalog.builtinSymbols.map (·.2)) :
    symbolLatex .builtin (.text s) .null = .ok (.text s) := by
  have hresolved : resolvedName (.text s) = .ok (.text s) := by
    show (if holds s "&#" = true then _ else pure (Datum.text s)) = _
    rw [hreference, if_neg Bool.false_ne_true]
    rfl
  have hspelling : Catalog.builtin.latexForSymbol (.text s) = .null := by
    rcases latexForSymbol_cases s with ⟨-, hnone⟩ | ⟨p, hp, heq, -⟩
    · exact hnone
    · exact absurd (List.mem_map.mpr ⟨p, hp, heq⟩) hforeign
  unfold symbolLatex
  rw [hresolved]
  show Except.ok ((Catalog.builtin.latexForSymbol (.text s)).orElse (.text s)) = _
  rw [hspelling]
  rfl

/-- Letters and digits refer to no character. -/
theorem holdsChars_reference : ∀ {cs : List Char}, (∀ d ∈ cs, isLetterOrDigit d = true) → holdsChars ['&', '#'] cs = false
  | [], _ => rfl
  | d :: cs, h => by
    have hne : ('&' == d) = false := by
      rw [beq_eq_false_iff_ne]
      rintro rfl
      exact absurd (h _ List.mem_cons_self) (by decide)
    rw [holdsChars, List.isPrefixOf_cons_cons, hne, holdsChars_reference fun e he => h e (List.mem_cons_of_mem _ he)]
    rfl

/-- The names of symbols, with their variants: letters, other characters and commands that the catalog takes for symbols, both
in all variants, and words of letters and digits of any script in a variant. -/
inductive IsSymbolName : Datum → Datum → Prop
  | letter {d : Char} : IsSymbolLetter d → IsSymbolName (.text d.toString) .null
  | token {token : Token} : token.isSign = true ∨ token.isName = true → Source.HasLeaf token → Source.takesScripts token = true →
    token.text ∉ Catalog.builtinSymbols.map (·.2) → holds token.text "&#" = false → IsSymbolName (.text token.text) .null
  | inVariant {name : Datum} (v : Variant) : IsSymbolName name .null → IsSymbolName name (.text v.name)
  | word {cs : List Char} (v : Variant) : (∀ d ∈ cs, isLetterOrDigit d = true) →
    String.ofList cs ∉ Catalog.builtinSymbols.map (·.2) → IsSymbolName (.text (String.ofList cs)) (.text v.name)

theorem IsSymbolName.spelled {name variant : Datum} (h : IsSymbolName name variant) : ∃ text,
    symbolLatex .builtin name variant = .ok (.text text) ∧ EndsFree text True fun _ => True := by
  induction h with
  | letter hd => exact hd.spelled
  | token htoken hleaf htakes hforeign hreference =>
    exact ⟨_, symbolLatex_self hreference hforeign,
      (hleaf.endsFree htoken).congr Iff.rfl fun _ _ => iff_of_true htakes trivial⟩
  | inVariant v _ ih =>
    obtain ⟨text, hspelled, hends⟩ := ih
    exact ⟨_, symbolLatex_inFont hspelled v, hends.spellsAttached.font v.mem_fonts⟩
  | @word cs v hcs hforeign =>
    have hreference : holds (String.ofList cs) "&#" = false := by
      rw [holds, @String.toList_ofList cs]
      exact holdsChars_reference hcs
    have hattached : Attached (cs.map ofCharacter) :=
      Source.attached_characters fun hd => absurd (hcs _ hd) (by decide +kernel)
    exact ⟨_, symbolLatex_inFont (symbolLatex_self hreference hforeign) v,
      SpellsAttached.font v.mem_fonts ⟨_, (Source.spells_characters hcs).before, iff_of_true hattached trivial⟩⟩

/-! ### Fences -/

/-- A delimiter is written as one token, which the catalog takes for a symbol, but not as a letter. -/
structure IsGlyph (s : String) : Prop where
  latex : delimiterLatex (.text s) = .ok (glyphToken s).text
  token : (glyphToken s).isSign = true ∨ (glyphToken s).isName = true ∧ Format.endsInCommand (glyphToken s).text = true
  leaf : Source.HasLeaf (glyphToken s)
  apart : Source.StartsApart (glyphToken s).text

/-- The delimiters that open or close a fence. -/
theorem isGlyph_partner {p : String × String} (h : p ∈ Glyph.partners) : IsGlyph p.1 ∧ IsGlyph p.2 := by
  have hfacts : ∀ s ∈ Glyph.partners.flatMap fun p => [p.1, p.2], (delimiterLatex (.text s)).toOption = some (glyphToken s).text ∧
      ((glyphToken s).isSign = true ∨ (glyphToken s).isName = true ∧ Format.endsInCommand (glyphToken s).text = true) ∧
      Source.HasLeaf (glyphToken s) ∧ (glyphToken s).text.toList.head?.any (fun d => !isLetter d) = true := by decide +kernel
  have glyph : ∀ s ∈ [p.1, p.2], IsGlyph s := by
    intro s hs
    obtain ⟨hlatex, htoken, hleaf, hapart⟩ := hfacts s (List.mem_flatMap.mpr ⟨p, h, hs⟩)
    refine ⟨Outcome.eq_ok_of_toOption hlatex, htoken, hleaf, ?_⟩
    obtain ⟨d, hd, hletter⟩ := (Option.any_eq_true ..).mp hapart
    obtain ⟨ds, hds⟩ := List.head?_eq_some_iff.mp hd
    exact ⟨d, ds, hds, Bool.not_eq_true' _ ▸ hletter⟩
  exact ⟨glyph _ List.mem_cons_self, glyph _ (List.mem_cons_of_mem _ (List.mem_singleton_self _))⟩

section

variable {body left right : String} {p : Prop}

/-- A text behind a left delimiter. -/
theorem IsGlyph.before (hl : IsGlyph left) (h : SpellsAttached body p) :
    SpellsAttached (Format.glue (glyphToken left).text body) p := by
  have hends := hl.leaf.endsFree (hl.token.imp_right (·.1))
  have htrue : True ∧ p ↔ p := and_iff_right trivial
  -- The blank between a command and a letter is no part of what is spelled.
  unfold Format.glue
  split
  · rename_i hempty
    rw [String.toList_eq_nil_iff.mp hempty] at h
    exact hends.spellsAttached.congr (iff_of_true trivial h.of_empty)
  · rename_i d ds hbody
    have blank := (hends.spellsAttached.spaced h).congr htrue
    cases hletter : isLetter d with
    | false =>
      rw [Bool.false_and, if_neg Bool.false_ne_true]
      exact (hends.spellsAttached.append h ⟨d, ds, hbody, hletter⟩).congr htrue
    | true =>
      rcases hl.token with hsign | ⟨-, hcommand⟩
      · split
        · exact blank
        · obtain ⟨a, hspells, hattached⟩ := hl.leaf.spells hsign
          exact h.behind hspells hattached
      · rw [hcommand, Bool.true_and, if_pos rfl]
        exact blank

/-- A right delimiter behind a text. -/
theorem IsGlyph.behind (hr : IsGlyph right) (h : SpellsAttached body p) :
    EndsFree (Format.glue body (glyphToken right).text) p fun _ => Source.takesScripts (glyphToken right) = true := by
  obtain ⟨d, ds, htext, hd⟩ := hr.apart
  have hglue : Format.glue body (glyphToken right).text = body ++ (glyphToken right).text := by
    rw [← String.ofList_toList (s := (glyphToken right).text), htext]
    exact Format.glue_sign hd body
  have hends := EndsFree.append h (hr.leaf.endsFree (hr.token.imp_right (·.1))) hr.apart
  rw [hglue]
  exact hends.congr (and_iff_left trivial) fun _ _ => Iff.rfl

/-- The left delimiter may be left out. -/
def IsLeftGlyph (s : String) : Prop := IsGlyph s ∨ s = "."

theorem IsLeftGlyph.before (hl : IsLeftGlyph left) (h : SpellsAttached body p) :
    ∃ l, delimiterLatex (.text left) = .ok l ∧ SpellsAttached (Format.glue l body) p := by
  rcases hl with hl | rfl
  · exact ⟨_, hl.latex, hl.before h⟩
  · refine ⟨"", rfl, ?_⟩
    rwa [Format.glue_empty]

theorem inFence_glue {l r : String} (hl : delimiterLatex (.text left) = .ok l) (hr : delimiterLatex (.text right) = .ok r)
    (body : String) : inFence (.tuple [.text left, .text right]) body = .ok (Format.glue (Format.glue l body) r) := by
  have hjoin : Format.join [l, body, r] = Format.glue (Format.glue l body) r := by
    unfold Format.join
    rw [List.foldl_cons, List.foldl_cons, List.foldl_cons, List.foldl_nil, Format.glue_empty]
  have hdelimiters : fenceDelimiters (.tuple [.text left, .text right]) = .ok (.text left, .text right) := rfl
  unfold inFence
  rw [hdelimiters, ← hjoin]
  simp only [bind, Except.bind, hl, hr]
  rfl

/-- **A text in a fence**: behind the right delimiter there are places if it takes scripts. -/
theorem inFence_closed (hl : IsLeftGlyph left) (hr : IsGlyph right) (h : SpellsAttached body p) :
    ∃ text, inFence (.tuple [.text left, .text right]) body = .ok text ∧
      EndsFree text p fun _ => Source.takesScripts (glyphToken right) = true := by
  obtain ⟨l, hlatex, hbefore⟩ := hl.before h
  exact ⟨_, inFence_glue hlatex hr.latex body, hr.behind hbefore⟩

/-- A text in a fence without a right delimiter. -/
theorem inFence_unclosed (hl : IsLeftGlyph left) (h : SpellsAttached body p) :
    ∃ text, inFence (.tuple [.text left, .text "."]) body = .ok text ∧ SpellsAttached text p := by
  obtain ⟨l, hlatex, hbefore⟩ := hl.before h
  have hnone : delimiterLatex (.text ".") = .ok "" := rfl
  exact ⟨_, inFence_glue hlatex hnone body, hbefore⟩

end

end Formula
