import Formula.Proofs.Reader.Factors

/-!
# Products with few signs

A product is written with a sign between two numbers and nothing between other factors, and may have signs in front.  The
signs of the product cut it into runs of factors side by side.  Each run is a primary, and the runs make a chain of
products; where no factor is read as something else, the whole is read as an expression.
-/

namespace Formula

open Number Text Atom Expr

/-- Behind a number the factors keep it, wherever one stands. -/
def FactorKind.keeps : List FactorKind → Bool
  | [] => true
  | k :: more => (k != digits || keepNumber more) && keeps more

/-- The factors are two numbers, which have a sign between them. -/
def FactorKind.meets (k k' : FactorKind) : Bool := k == digits && k' == digits

/-! ### Runs -/

namespace Factor

/-- What stands between two factors. -/
def separator (f g : Factor) : String := if f.kind.meets g.kind then Operation.product.sign else ""

/-- The atoms between two factors. -/
def separatorRow (f g : Factor) : List Atom := if f.kind.meets g.kind then [Operation.product.atom] else []

/-- The text of a product. -/
def glued (f : Factor) : List Factor → String
  | [] => f.text
  | g :: more => f.text ++ (f.separator g ++ glued g more)

/-- The atoms of a product. -/
def gluedRow (f : Factor) : List Factor → List Atom
  | [] => f.row
  | g :: more => f.row ++ (f.separatorRow g ++ gluedRow g more)

/-- The factors behind the first one up to a sign, and the runs behind the signs. -/
def runs (f : Factor) : List Factor → List Factor × List (Factor × List Factor)
  | [] => ([], [])
  | g :: more =>
    if f.kind.meets g.kind then ([], (g, (runs g more).1) :: (runs g more).2)
    else (g :: (runs g more).1, (runs g more).2)

/-- A run behind a sign as a link of a chain. -/
def link (run : Factor × List Factor) : Link :=
  ⟨Operation.product.atom, rows (run.1 :: run.2), .text Operation.product.name, Operation.product.precedence,
    run.1.product run.2⟩

/-- A run goes on as the product does, or ends. -/
theorem runs_head (f : Factor) (more : List Factor) : (runs f more).1 = [] ∨ (runs f more).1.head? = more.head? := by
  cases more with
  | nil => exact .inl rfl
  | cons g more =>
    rw [runs]
    split
    · exact .inl rfl
    · exact .inr rfl

theorem gluedRow_eq : ∀ (f : Factor) (more : List Factor),
    gluedRow f more = rows (f :: (runs f more).1) ++ Link.rows [] ((runs f more).2.map link)
  | f, [] => by rw [gluedRow, runs, List.map_nil, Link.rows, List.append_nil, rows, List.flatMap_singleton]
  | f, g :: more => by
    rw [gluedRow, gluedRow_eq g more, runs, separatorRow]
    split
    · show _ = rows [f] ++ _
      rw [rows, rows, List.flatMap_singleton]
      rfl
    · show _ = rows (f :: g :: (runs g more).1) ++ _
      rw [rows_cons f, rows_cons g, List.nil_append]

/-- The runs of a product that keeps its numbers are factors that join, and every run behind a sign begins with a number. -/
theorem joins_runs : ∀ (f : Factor) (more : List Factor), FactorKind.keeps ((f :: more).map kind) = true →
    FactorKind.joins ((f :: (runs f more).1).map kind) = true ∧
      ∀ run ∈ (runs f more).2, run.1.kind = .digits ∧ FactorKind.joins ((run.1 :: run.2).map kind) = true
  | f, [], _ => by
    refine ⟨?_, fun _ h => by cases h⟩
    simp [runs, FactorKind.joins, FactorKind.keepNumber]
  | f, g :: more, h => by
    rw [List.map_cons, FactorKind.keeps, Bool.and_eq_true] at h
    obtain ⟨hown, hmore⟩ := joins_runs g more h.2
    rw [runs]
    by_cases hmeets : f.kind.meets g.kind = true
    · rw [if_pos hmeets]
      simp only [FactorKind.meets, Bool.and_eq_true, beq_iff_eq] at hmeets
      refine ⟨by simp [FactorKind.joins, FactorKind.keepNumber], fun run hrun => ?_⟩
      rcases List.mem_cons.mp hrun with rfl | hrun
      · exact ⟨hmeets.2, hown⟩
      · exact hmore run hrun
    · rw [if_neg hmeets]
      refine ⟨?_, hmore⟩
      rw [List.map_cons, FactorKind.joins, hown, Bool.and_true]
      by_cases hdigits : f.kind = .digits
      · have hkeep := h.1
        have hne : g.kind ≠ .digits := fun hg => hmeets (by simp [FactorKind.meets, hdigits, hg])
        simp only [hdigits, bne_self_eq_false, Bool.false_or, List.map_cons, FactorKind.keepNumber, Bool.and_eq_true,
          bne_iff_ne, Bool.not_eq_true', Bool.and_eq_false_iff, beq_eq_false_iff_ne] at hkeep
        simp only [hdigits, bne_self_eq_false, Bool.false_or, List.map_cons, FactorKind.keepNumber, Bool.and_eq_true,
          bne_iff_ne, Bool.not_eq_true', Bool.and_eq_false_iff, beq_eq_false_iff_ne, List.head?_cons, ne_eq,
          Option.some.injEq]
        refine ⟨hne, hkeep.1, hkeep.2.imp id fun hhead heq => hhead ?_⟩
        rcases runs_head g more with hnil | hsame
        · rw [hnil] at heq
          cases heq
        · rwa [List.head?_map, hsame, ← List.head?_map] at heq
      · simp [hdigits]

/-- The first run calls no function if the product does not. -/
theorem calls_runs : ∀ (f : Factor) (more : List Factor), FactorKind.calls ((f :: more).map kind) = false →
    FactorKind.calls ((f :: (runs f more).1).map kind) = false
  | _, [], h => h
  | f, g :: more, h => by
    have hpair : ∀ ks ks', FactorKind.calls (f.kind :: g.kind :: ks) = FactorKind.calls (f.kind :: g.kind :: ks') := by
      intro ks ks'
      cases f.kind with
      | letter name => cases g.kind <;> rfl
      | _ => rfl
    rw [runs]
    split
    · show FactorKind.calls [f.kind] = false
      cases f.kind <;> rfl
    · exact (hpair _ _).trans h

end Factor

/-! ### Products -/

/-- A product of factors with signs in front. -/
structure FactorProduct where
  signs : List Sign
  first : Factor
  more : List Factor

namespace FactorProduct

/-- The kinds of the factors. -/
def kinds (p : FactorProduct) : List FactorKind := (p.first :: p.more).map Factor.kind

/-- The text of the product. -/
def text (p : FactorProduct) : String := p.signs.foldr (fun s t => s.name ++ t) (p.first.glued p.more)

/-- The atoms of the product. -/
def row (p : FactorProduct) : List Atom := p.signs.map (fun s => s.signAtom.atom) ++ p.first.gluedRow p.more

/-- The product of the first run with the signs in front. -/
def start (p : FactorProduct) : Expr :=
  p.signs.foldr (fun s e => withSign (.text s.name) e) (p.first.product (p.first.runs p.more).1)

/-- The other runs. -/
def links (p : FactorProduct) : List Link := (p.first.runs p.more).2.map Factor.link

end FactorProduct

theorem spells_glued : ∀ (f : Factor) (more : List Factor), Source.Spells .builtin (f.glued more) (f.gluedRow more)
  | f, [] => f.spells
  | f, g :: more => by
    have hseparator : Source.Spells .builtin (f.separator g) (f.separatorRow g) := by
      unfold Factor.separator Factor.separatorRow
      split
      · exact Operation.spells_sign .product
      · exact ⟨[], Token.Scans.nil, Source.Yields.nil⟩
    exact f.spells.append (hseparator.append (spells_glued g more))

/-- **A product spells its atoms.** -/
theorem FactorProduct.spells (p : FactorProduct) : Source.Spells .builtin p.text p.row := by
  obtain ⟨signs, first, more⟩ := p
  induction signs with
  | nil => exact spells_glued first more
  | cons s signs ih => exact s.spells_name.append ih

theorem unspaced_glued : ∀ (f : Factor) (more : List Factor), ∀ a ∈ f.gluedRow more, a.type ≠ .spacing
  | f, [] => f.unspaced
  | f, g :: more => by
    intro a ha
    rcases List.mem_append.mp ha with ha | ha
    · exact f.unspaced a ha
    · rcases List.mem_append.mp ha with ha | ha
      · unfold Factor.separatorRow at ha
        split at ha
        · rw [List.mem_singleton.mp ha]
          decide
        · cases ha
      · exact unspaced_glued g more a ha

theorem FactorProduct.unspaced (p : FactorProduct) : ∀ a ∈ p.row, a.type ≠ .spacing := by
  intro a ha
  rcases List.mem_append.mp ha with ha | ha
  · obtain ⟨s, -, rfl⟩ := List.mem_map.mp ha
    rw [s.signAtom.type_eq]
    decide
  · exact unspaced_glued p.first p.more a ha

/-! ### The reading of a product -/

/-- The sign of a product ends a run. -/
theorem Edge.product {closers : List Closer} (hclosers : InParentheses closers) {rest : List Atom}
    (hrest : ∀ a ∈ rest, a.Worded) : Edge .builtin closers (Operation.product.atom :: rest) where
  toBorder := Operation.product.operator.border hclosers hrest
  exponent := rfl

section

variable {closers : List Closer} {rest : List Atom}

theorem worded_links {tail : List Atom} (htail : ∀ a ∈ tail, a.Worded) : ∀ {runs : List (Factor × List Factor)},
    ∀ a ∈ Link.rows tail (runs.map Factor.link), a.Worded
  | [] => htail
  | run :: runs => by
    intro a ha
    rcases List.mem_cons.mp ha with rfl | ha
    · exact Operation.product.isPlain_atom.worded
    · rcases List.mem_append.mp ha with ha | ha
      · obtain ⟨f, -, ha⟩ := List.mem_flatMap.mp ha
        exact f.begins.worded a ha
      · exact worded_links htail a ha

/-- The runs behind signs are read one by one, up to where an expression may end. -/
theorem chainEnd_links (hclosers : InParentheses closers) {tail : List Atom} (htail : Edge .builtin closers tail)
    (hop : operator? .builtin tail = .ok none) (runs : List (Factor × List Factor)) :
    ChainEnd .builtin (Edge .builtin closers) (runs.map Factor.link) tail := by
  refine ⟨hop, fun more hmore => ?_⟩
  obtain ⟨before, hbefore⟩ := hmore
  obtain ⟨front, runs', rfl, -, rfl⟩ := List.map_eq_append_iff.mp hbefore.symm
  cases runs' with
  | nil => exact htail
  | cons run runs' =>
    refine Edge.product hclosers fun a ha => ?_
    rcases List.mem_append.mp ha with ha | ha
    · obtain ⟨f, -, ha⟩ := List.mem_flatMap.mp ha
      exact f.begins.worded a ha
    · exact worded_links htail.worded a ha

theorem reads_link (hclosers : InParentheses closers) {run : Factor × List Factor} (hdigits : run.1.kind = .digits)
    (hjoins : FactorKind.joins ((run.1 :: run.2).map Factor.kind) = true) :
    (Factor.link run).Reads .builtin closers (Edge .builtin closers) := by
  refine ⟨rfl, rfl, fun rest hrest => primary_rows hclosers hrest hjoins ?_⟩
  rw [List.map_cons, hdigits]
  rfl

/-- Signs in front of a row that begins as a factor or a sign does. -/
theorem primary_signs (hclosers : InParentheses closers) (hrest : Edge .builtin closers rest) {row : List Atom} {e : Expr}
    (htext : ∀ b, row.head? = some b → ∃ u, b.text = .ok (.text u))
    (hread : Grammar.primary .builtin closers row = .ok ⟨rest, e⟩) : ∀ signs : List Sign,
    Grammar.primary .builtin closers (signs.map (fun s => s.signAtom.atom) ++ row) =
      .ok ⟨rest, signs.foldr (fun s e => withSign (.text s.name) e) e⟩
  | [] => hread
  | s :: signs => by
    refine s.signAtom.primary hclosers.fenceClosers (fun b hb => ?_) (primary_signs hclosers hrest htext hread signs)
      (isMissing_withSign _ _) hrest.stops
    cases signs with
    | nil => exact htext b hb
    | cons s' signs =>
      obtain rfl := Option.some.inj hb
      exact s'.signAtom.plain.worded.text

end

namespace FactorProduct

theorem begins (p : FactorProduct) : Begins p.row := by
  have hfactors : Begins (p.first.gluedRow p.more) := by
    rw [Factor.gluedRow_eq, rows_cons]
    exact p.first.begins.append (worded_rows _ (worded_links fun _ h => by cases h))
  obtain ⟨signs, first, more⟩ := p
  cases signs with
  | nil => exact hfactors
  | cons s signs =>
    refine ⟨fun a ha => ?_, s.signAtom.atom, _, rfl, by rw [s.signAtom.type_eq]; decide, by cases s <;> rfl⟩
    rcases List.mem_append.mp ha with ha | ha
    · obtain ⟨s', -, rfl⟩ := List.mem_map.mp ha
      exact s'.signAtom.plain.worded
    · exact hfactors.worded a ha

/-- **A product is read as the chain of its runs**, if its factors keep what they are. -/
theorem isExpression (p : FactorProduct) (hkeeps : FactorKind.keeps p.kinds = true)
    (hcalls : FactorKind.calls p.kinds = false) :
    ∃ e, Arranges p.start p.links e ∧ IsExpression .builtin p.row e := by
  obtain ⟨hjoins, hruns⟩ := Factor.joins_runs p.first p.more hkeeps
  have hfirst := Factor.calls_runs p.first p.more hcalls
  have hreads : ∀ {closers}, InParentheses closers → ∀ link ∈ p.links, link.Reads .builtin closers (Edge .builtin closers) := by
    intro closers hclosers link hl
    obtain ⟨run, hrun, rfl⟩ := List.mem_map.mp hl
    exact reads_link hclosers (hruns run hrun).1 (hruns run hrun).2
  have hleast : ∀ link ∈ p.links, 0 ≤ link.precedence := by
    intro link hl
    obtain ⟨run, -, rfl⟩ := List.mem_map.mp hl
    exact Operation.product.operator.nonneg
  have hnone : InParentheses [] := fun _ h => by cases h
  -- the tree of the chain is the same wherever the chain stands
  obtain ⟨e, -, harranged⟩ := @expression_chain _ _ _ p.start _ _ _ (hreads hnone)
    (chainEnd_links hnone (.nil []) rfl _) hleast
  refine ⟨e, harranged, p.begins, fun closers tail hclosers htail hop => ?_⟩
  have hend := chainEnd_links hclosers htail hop (p.first.runs p.more).2
  obtain ⟨e', he, harranged'⟩ := @expression_chain _ _ _ p.start _ _ _ (hreads hclosers) hend hleast
  have hedge : Edge .builtin closers (Link.rows tail p.links) := hend.rows _ List.suffix_rfl
  have hrow : p.row ++ tail = p.signs.map (fun s => s.signAtom.atom) ++
      (Factor.rows (p.first :: (p.first.runs p.more).1) ++ Link.rows tail p.links) := by
    rw [row, Factor.gluedRow_eq, Link.rows_tail tail, List.append_assoc, List.append_assoc]
    rfl
  have htext : ∀ b, (Factor.rows (p.first :: (p.first.runs p.more).1) ++ Link.rows tail p.links).head? = some b →
      ∃ u, b.text = .ok (.text u) :=
    fun b hb => (worded_rows _ hedge.worded b (List.mem_of_mem_head? hb)).text
  rw [hrow, primary_signs hclosers hedge htext (primary_rows hclosers hedge hjoins hfirst), harranged.unique harranged']
  exact he

end FactorProduct

end Formula
