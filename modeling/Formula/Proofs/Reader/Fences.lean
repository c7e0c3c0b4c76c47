import Formula.Proofs.Reader.Operands

/-!
# Fences, marks, signs and names of functions

What is put around a row: a chain in parentheses is an operand, and so is a whole sequence between `\left` and `\right`
whose delimiters stand for a function; an operand with an exclamation mark is a primary, and a primary with a sign or
the name of a function in front stays one.
-/

namespace Formula

open Text Atom Expr

variable {c : Catalog}

/-! ### Parentheses -/

/-- The atom of an opening parenthesis. -/
def openingAtom : Atom := { type := .opening, value := "(" }

/-- The atom of a closing parenthesis. -/
def closingAtom : Atom := { type := .closing, value := ")" }

theorem opener?_openingAtom : openingAtom.opener? = .ok (some ("(", closingParenthesis)) := rfl

theorem closes_closingAtom (sup sub : Option (List Atom)) :
    (closingAtom.scripted sup sub).closes closingParenthesis = .ok true := rfl

theorem text_closingAtom (sup sub : Option (List Atom)) : (closingAtom.scripted sup sub).text = .ok (.text ")") := rfl

theorem worded_closingAtom (sup sub : Option (List Atom)) : (closingAtom.scripted sup sub).Worded :=
  ⟨⟨_, rfl⟩, .inl rfl, .inl rfl, .inl rfl, .inl rfl, .inl rfl⟩

theorem startsNoun_openingAtom : StartsNoun openingAtom where
  worded := ⟨⟨_, rfl⟩, .inl rfl, .inl rfl, .inl rfl, .inl rfl, .inl rfl⟩
  spelling t ht := by
    have : t = "(" := (Datum.text.inj (Except.ok.inj ht)).symm
    subst this
    decide
  type := by decide
  placeholder := rfl

/-- A closing parenthesis closes the innermost fence. -/
theorem InParentheses.closesAny_closing {closers : List Closer} (h : InParentheses closers)
    (sup sub : Option (List Atom)) :
    (closingAtom.scripted sup sub).closesAny (closers ++ [closingParenthesis]) = .ok true := by
  cases closers with
  | nil => rfl
  | cons k rest =>
    have hk : k = closingParenthesis := h k List.mem_cons_self
    rw [List.cons_append, Atom.closesAny, hk, closes_closingAtom]
    rfl

/-- A closing parenthesis ends what stands in the innermost fence. -/
theorem InParentheses.edge_closing {closers : List Closer} (h : InParentheses closers) (sup sub : Option (List Atom))
    {rest : List Atom} (hrest : ∀ a ∈ rest, a.Worded) :
    Edge c (closers ++ [closingParenthesis]) (closingAtom.scripted sup sub :: rest) where
  worded := by
    intro a ha
    rcases List.mem_cons.mp ha with rfl | ha
    · exact worded_closingAtom sup sub
    · exact hrest a ha
  type := by
    rintro _ ⟨⟩
    exact .inr (.inr (.inl rfl))
  stops := {
    text := by
      rintro _ ⟨⟩
      exact ⟨_, rfl⟩
    placeholder := by
      rintro _ ⟨⟩
      rfl
    digraph := startsWithDigraph?_none (fun b hb => (hrest b (List.mem_of_mem_head? hb)).text)
      (text_closingAtom sup sub) (by decide) (by decide)
    mark := by
      rintro _ ⟨⟩
      rfl
    operand := by
      rintro _ ⟨⟩
      unfold Atom.startsOperand
      rw [h.closesAny_closing sup sub]
      rfl }
  spelling := by
    rintro _ ⟨⟩ h
    rw [text_closingAtom] at h
    exact absurd (Datum.text.inj (Except.ok.inj h)) (by decide)
  exponent := rfl

/-- **An expression in parentheses is read as a group**, with the scripts of the closing parenthesis. -/
theorem IsInner.fence {row : List Atom} {e e' : Expr} (h : IsInner c row e) {sup sub : Option (List Atom)}
    {closers : List Closer} (hclosers : InParentheses closers) {rest : List Atom} (hrest : ∀ a ∈ rest, a.Worded)
    (hscripts : Grammar.scripts c (some (closingAtom.scripted sup sub)) (fenced e parentheses) rest = .ok ⟨rest, e'⟩) :
    Grammar.operand c closers openingAtom (row ++ closingAtom.scripted sup sub :: rest) = Grammar.marks c e' rest := by
  have hnoun := startsNoun_openingAtom
  have hedge : Edge c (closers ++ [closingParenthesis]) (closingAtom.scripted sup sub :: rest) :=
    hclosers.edge_closing sup sub hrest
  -- inside, one more fence is open, and the closing parenthesis ends the expression
  have hinner : Grammar.sequence c (closers ++ [closingParenthesis]) (row ++ closingAtom.scripted sup sub :: rest) =
      .ok ⟨closingAtom.scripted sup sub :: rest, e⟩ := by
    have he := h.read _ _ hclosers.snoc hedge (undotted_cons (text_closingAtom sup sub) (by decide) rest) rfl
    have hstray : Grammar.stray c (closers ++ [closingParenthesis]) e (closingAtom.scripted sup sub :: rest) =
        .ok ⟨closingAtom.scripted sup sub :: rest, e⟩ := by
      rw [Grammar.stray_cons, hclosers.closesAny_closing sup sub]
      rfl
    rw [Grammar.sequence_eq, ← bind_assoc]
    exact (congrArg (· >>= _) he).trans hstray
  have hclosing : Grammar.closing c "(" closingParenthesis e (closingAtom.scripted sup sub :: rest) = .ok ⟨rest, e'⟩ := by
    rw [Grammar.closing_cons c opener?_openingAtom, closes_closingAtom]
    exact hscripts
  have hfence : Grammar.fence c closers openingAtom (row ++ closingAtom.scripted sup sub :: rest) =
      Grammar.marks c e' rest := by
    rw [Grammar.fence_eq, if_neg (by decide), opener?_openingAtom]
    show (Grammar.sequence c (closers ++ [closingParenthesis]) _ >>= _) = _
    rw [hinner]
    show (Grammar.closing c "(" closingParenthesis e (closingAtom.scripted sup sub :: rest) >>= _) = _
    rw [hclosing]
    rfl
  have htext := (h.toBegins.append hedge.worded).text
  rw [← hfence, Grammar.operand_eq, hnoun.digraph htext, hnoun.sign, hnoun.placeholder, startsNumber_of_ne (by decide)]
  rfl

/-- **An expression in parentheses is an operand**, with the scripts of the closing parenthesis. -/
theorem IsInner.isOperand {row : List Atom} {e e' : Expr} (h : IsInner c row e) {sup sub : Option (List Atom)}
    (hcarries : Carries c (closingAtom.scripted sup sub) (fenced e parentheses) e') (hnode : e'.isMissing = false) :
    IsOperand c (openingAtom :: (row ++ [closingAtom.scripted sup sub])) e' := by
  have hworded : ∀ a ∈ row ++ [closingAtom.scripted sup sub], a.Worded := by
    intro a ha
    rcases List.mem_append.mp ha with ha | ha
    · exact h.worded a ha
    · rw [List.mem_singleton.mp ha]
      exact worded_closingAtom sup sub
  refine ⟨startsNoun_openingAtom.begins.append hworded, hnode, fun closers rest hclosers hrest => ⟨openingAtom, _, rfl, ?_⟩⟩
  rw [List.append_assoc, List.singleton_append]
  exact h.fence hclosers hrest.worded (Grammar.scripts_trailing hcarries hrest)

theorem IsChain.isOperand {row : List Atom} {first e e' : Expr} {links : List Link} (h : IsChain c row first links)
    (harranged : Arranges first links e) {sup sub : Option (List Atom)}
    (hcarries : Carries c (closingAtom.scripted sup sub) (fenced e parentheses) e') (hnode : e'.isMissing = false) :
    IsOperand c (openingAtom :: (row ++ [closingAtom.scripted sup sub])) e' :=
  (h.isExpression harranged).isInner.isOperand hcarries hnode

/-! ### Fences that stand for functions -/

/-- **A sequence between `\left` and `\right` is an operand**, whatever its delimiters make of it, with its scripts. -/
theorem IsWhole.delimited_scripts {body : List Atom} {e e' t : Expr} (h : IsWhole c body e) {left right : String}
    (hdelimited : Expr.delimited ((Datum.text left).orElse ".") ((Datum.text right).orElse ".") e = .ok e')
    {sup sub : Option (List Atom)} (hcarries : Carries c ((Source.fencedAtom left right body).scripted sup sub) e' t)
    (hnode : t.isMissing = false) : IsOperand c [(Source.fencedAtom left right body).scripted sup sub] t := by
  obtain ⟨a, ha⟩ : ∃ a, (Source.fencedAtom left right body).scripted sup sub = a := ⟨_, rfl⟩
  have htext : a.text = .ok (.text "") := by
    rw [← ha]
    rfl
  have hnoun : StartsNoun a := by
    refine ⟨?_, fun t ht => ?_, ?_, ?_⟩
    · rw [← ha]
      exact ⟨⟨"", rfl⟩, .inl rfl, .inl rfl, .inr ⟨_, rfl⟩, .inr ⟨_, rfl⟩, .inl rfl⟩
    · rw [htext] at ht
      rw [← Datum.text.inj (Except.ok.inj ht)]
      decide
    · rw [← ha]
      exact ⟨fun h => (by cases h), fun h => (by cases h)⟩
    · rw [← ha]
      rfl
  rw [ha] at hcarries ⊢
  refine ⟨hnoun.begins, hnode, fun closers rest _ hrest => ⟨_, [], rfl, ?_⟩⟩
  have hnested : Grammar.nested c (some body) = .ok e := by
    obtain ⟨b, more, rfl⟩ := List.exists_cons_of_ne_nil h.ne_nil
    rw [Grammar.nested_cons, h.read]
  have htype : a.type = .fenced := by
    rw [← ha]
    rfl
  have hfields : a.body = some body ∧ a.leftDelim = .text left ∧ a.rightDelim = .text right := by
    rw [← ha]
    exact ⟨rfl, rfl, rfl⟩
  have hfence : Grammar.fence c closers a rest = Grammar.marks c t rest := by
    rw [Grammar.fence_eq, if_pos htype, hfields.1, hfields.2.1, hfields.2.2, hnested]
    show (Expr.delimited ((Datum.text left).orElse ".") ((Datum.text right).orElse ".") e >>= _) = _
    rw [hdelimited]
    show (Grammar.scripts c (some a) e' rest >>= _) = _
    rw [Grammar.scripts_trailing hcarries hrest]
    rfl
  rw [List.nil_append, ← hfence, Grammar.operand_eq, hnoun.digraph hrest.text, hnoun.sign, hnoun.placeholder,
    startsNumber_of_ne (by rw [htype]; decide), htype]
  rfl

theorem IsWhole.delimited {body : List Atom} {e e' : Expr} (h : IsWhole c body e) {left right : String}
    (hdelimited : Expr.delimited ((Datum.text left).orElse ".") ((Datum.text right).orElse ".") e = .ok e')
    (hnode : e'.isMissing = false) : IsOperand c [Source.fencedAtom left right body] e' :=
  @IsWhole.delimited_scripts _ _ _ _ _ h _ _ hdelimited none none (.plain rfl e') hnode

/-- Delimiters that stand for a function apply it. -/
theorem IsWhole.isOperand {body : List Atom} {e : Expr} (h : IsWhole c body e) {left right name : String}
    (hname : delimiterFunction? ((Datum.text left).orElse ".") ((Datum.text right).orElse ".") = .ok (some name)) :
    IsOperand c [Source.fencedAtom left right body] (apply name e) := by
  refine h.delimited ?_ rfl
  unfold Expr.delimited
  rw [hname]
  rfl

/-! ### Marks behind operands -/

/-- **An addend with marks behind it is a primary**, if the marks make one expression of it. -/
theorem IsAddend.marked {row marks : List Atom} {e e' : Expr} (h : IsAddend c row e) (hworded : ∀ a ∈ marks, a.Worded)
    (hmark : ∃ a more t, marks = a :: more ∧ a.type = .textual ∧ a.text = .ok (.text t) ∧ (t ≠ "\\cdot" ∧ t ≠ "\\times"))
    (hread : ∀ closers rest, Border c closers rest → Grammar.marks c e (marks ++ rest) = .ok ⟨rest, e'⟩)
    (hnode : e'.isMissing = false) : IsPrimary c (row ++ marks) e' := by
  refine ⟨h.toBegins.append hworded, hnode, fun closers rest hclosers hrest => ?_⟩
  obtain ⟨b, more, t, rfl, htype, htext, hsign⟩ := hmark
  have htrailing : Trailing (b :: more ++ rest) := by
    refine ⟨fun a ha => ?_, ?_⟩
    · rcases List.mem_append.mp ha with ha | ha
      · exact hworded a ha
      · exact hrest.worded a ha
    · rintro _ ⟨⟩
      exact .inr (.inr (.inr htype))
  obtain ⟨a, front, rfl, hoperand⟩ := h.read closers _ hclosers htrailing (undotted_cons htext hsign _)
  rw [hread closers rest hrest] at hoperand
  rw [List.append_assoc]
  exact Grammar.primary_operand hclosers h.type_ne hnode hrest.stops hoperand

/-- The atom of an exclamation mark. -/
def exclamationAtom : Atom := { type := .textual, value := "!" }

theorem worded_exclamationAtom (sup sub : Option (List Atom)) : (exclamationAtom.scripted sup sub).Worded :=
  ⟨⟨_, rfl⟩, .inl rfl, .inl rfl, .inl rfl, .inl rfl, .inl rfl⟩

/-- An exclamation mark makes a digraph with another one only. -/
theorem Border.digraph_exclamation {closers : List Closer} {rest : List Atom} (h : Border c closers rest)
    (sup sub : Option (List Atom)) :
    startsWithDigraph? Glyph.postfixDigraphs (exclamationAtom.scripted sup sub :: rest) = .ok none := by
  cases rest with
  | nil => rfl
  | cons b rest =>
    obtain ⟨u, hu⟩ := (h.worded b List.mem_cons_self).text
    have hne : u ≠ "!" := fun heq => h.spelling b rfl (by rw [hu, heq])
    have hlookup : Glyph.digraphs.lookup ("!", u) = none := by
      refine List.lookup_eq_none_iff.mpr fun p hp => ?_
      simp only [Glyph.digraphs, List.mem_cons, List.not_mem_nil, or_false] at hp
      rcases hp with rfl | rfl | rfl <;> simp [hne]
    have hnone : Atom.digraph? (exclamationAtom.scripted sup sub) b = .ok none := by
      unfold Atom.digraph?
      split
      · rfl
      · rw [hu]
        exact congrArg Except.ok hlookup
    rw [startsWithDigraph?, hnone]
    rfl

/-- A mark with its scripts makes the call of its function of the operand in front. -/
theorem Grammar.marks_single {a : Atom} {name : String} {e e' : Expr} {closers : List Closer} {rest : List Atom}
    (hrest : Border c closers rest) (hdigraph : startsWithDigraph? Glyph.postfixDigraphs (a :: rest) = .ok none)
    (hname : a.postfixFunction? = .ok (some name)) (hcarries : Carries c a (apply name e) e') :
    Grammar.marks c e (a :: rest) = .ok ⟨rest, e'⟩ := by
  rw [Grammar.marks_cons, hdigraph, hname]
  show (Grammar.scripts c (some a) (apply name e) rest >>= _) = _
  rw [Grammar.scripts_trailing hcarries hrest.toTrailing]
  exact Grammar.marks_quiet hrest.stops.toQuiet

/-- **An operand with an exclamation mark is a primary.** -/
theorem IsOperand.factorial {row : List Atom} {e : Expr} (h : IsOperand c row e) :
    IsPrimary c (row ++ [exclamationAtom]) (apply "factorial" e) := by
  refine h.isAddend.marked (fun a ha => ?_) ⟨_, [], "!", rfl, rfl, rfl, by decide⟩
    (fun closers rest hrest => Grammar.marks_single hrest (hrest.digraph_exclamation none none) rfl (.plain rfl _)) rfl
  rw [List.mem_singleton.mp ha]
  exact worded_exclamationAtom none none

/-! ### Signs -/

/-- **A primary with a sign in front is a primary.** -/
theorem IsPrimary.sign {row : List Atom} {e : Expr} (h : IsPrimary c row e) (s : SignAtom c) :
    IsPrimary c (s.atom :: row) (withSign s.name e) := by
  have hnode := isMissing_withSign s.name e
  have hplaceholder : s.atom.isPlaceholder = false := by
    unfold Atom.isPlaceholder
    rw [s.type_eq]
    rfl
  refine ⟨⟨fun a ha => ?_, s.atom, row, rfl, by rw [s.type_eq]; decide, hplaceholder⟩, hnode,
    fun closers rest hclosers hrest => ?_⟩
  · rcases List.mem_cons.mp ha with rfl | ha
    · exact s.plain.worded
    · exact h.worded a ha
  · have htext := (h.toBegins.append hrest.worded).text
    exact s.primary hclosers.fenceClosers htext (h.read closers rest hclosers hrest) hnode hrest.stops

/-! ### Names of functions -/

/-- The name of a function. -/
structure FunctionAtom (c : Catalog) where
  atom : Atom
  name : String
  plain : atom.IsPlain
  type_eq : atom.type = .operator
  name_eq : atom.name c = .ok (.text name)
  function : atom.isFunction c = .ok true

/-- Without a script on its name a call stays what it is. -/
theorem applyInverse_apply (name : String) (e : Expr) : applyInverse (apply name e) = .ok (apply name e) := by
  have hinverse : inverseName? name missing = .ok none := by
    have hlookup : (Datum.text name).lookup inverses = .ok (inverses.lookup name) := rfl
    unfold inverseName?
    rw [hlookup]
    cases inverses.lookup name with
    | none => rfl
    | some inverse => rfl
  show (inverseName? name missing >>= _) = _
  rw [hinverse]
  rfl

/-- **A primary with the name of a function in front is a primary.** -/
theorem IsPrimary.function {row : List Atom} {e : Expr} (h : IsPrimary c row e) (f : FunctionAtom c) :
    IsPrimary c (f.atom :: row) (apply f.name e) := by
  have hplaceholder : f.atom.isPlaceholder = false := by
    unfold Atom.isPlaceholder
    rw [f.type_eq]
    rfl
  have htype : f.atom.type ≠ .closing := by
    rw [f.type_eq]
    decide
  refine ⟨⟨fun a ha => ?_, f.atom, row, rfl, htype, hplaceholder⟩, rfl, fun closers rest hclosers hrest => ?_⟩
  · rcases List.mem_cons.mp ha with rfl | ha
    · exact f.plain.worded
    · exact h.worded a ha
  have htext := (h.toBegins.append hrest.worded).text
  have hscripts : Grammar.scripts c (some f.atom) (apply f.name missing) (row ++ rest) =
      .ok ⟨row ++ rest, apply f.name missing⟩ := by
    obtain ⟨a, more, rfl, -, hplace⟩ := h.head
    rw [Grammar.scripts_some, f.plain.unscripted, if_neg Bool.false_ne_true, List.cons_append, Grammar.placeholders, hplace]
    rfl
  have hfunction : Grammar.function c closers f.atom (row ++ rest) = .ok ⟨rest, apply f.name e⟩ := by
    rw [Grammar.function_eq c closers _ f.function, f.name_eq]
    show (Grammar.scripts c (some f.atom) (apply f.name missing) (row ++ rest) >>= _) = _
    rw [hscripts]
    show (Grammar.primary c closers (row ++ rest) >>= _) = _
    rw [h.read closers rest hclosers hrest]
    show (do
      let e' ← applyInverse (apply f.name e)
      return (⟨rest, e'⟩ : Reading)) = _
    rw [applyInverse_apply]
    rfl
  have hsign : f.atom.sign? c = .ok none := by
    unfold Atom.sign?
    rw [if_neg (by rw [f.type_eq]; decide)]
    rfl
  have hoperand : Grammar.operand c closers f.atom (row ++ rest) = .ok ⟨rest, apply f.name e⟩ := by
    rw [Grammar.operand_eq, f.plain.digraph htext, hsign, hplaceholder,
      startsNumber_of_ne (by rw [f.type_eq]; decide), f.type_eq, f.function, hfunction]
    rfl
  exact Grammar.primary_operand hclosers htype rfl hrest.stops hoperand

end Formula
