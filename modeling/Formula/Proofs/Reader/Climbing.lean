import Formula.Proofs.Reader.Grammar
import Mathlib.Data.List.TakeWhile

/-!
# Climbing over operators

A chain of operands with operators between them is put together by precedence.  `Arranges` says what the tree of a chain
ought to be: the operators to the left of the root bind at least as tightly as the root, and those to its right more
tightly.  There is one such tree, since the root has to be the last of the loosest operators.

The reader finds it with two loops that call each other.  A loop that reads operators from the precedence `least` on
takes the operators in front up to the first looser one, and what it has put together so far is arranged; the invariant
is that no operator read so far is looser than the one to be read next.
-/

namespace Formula

open Atom Expr

/-! ### Chains and their trees -/

/-- An operator with the operand behind it: the atoms, and what they are read as. -/
structure Link where
  atom : Atom
  row : List Atom
  op : Datum
  precedence : Int
  operand : Expr

/-- The tree of an operand and the links behind it, by the precedences of the operators. -/
inductive Arranges : Expr → List Link → Expr → Prop
  | leaf (e : Expr) : Arranges e [] e
  | node {first : Expr} {before after : List Link} {link : Link} {left right : Expr} :
    Arranges first before left → Arranges link.operand after right →
    (∀ k ∈ before, link.precedence ≤ k.precedence) → (∀ k ∈ after, link.precedence < k.precedence) →
    Arranges first (before ++ link :: after) (between link.op left right)

/-- Of two operators that may be the root, neither stands in front of the other. -/
theorem root_unique {before after before' after' : List Link} {link link' : Link}
    (heq : before ++ link :: after = before' ++ link' :: after')
    (hafter : ∀ k ∈ after, link.precedence < k.precedence)
    (hbefore' : ∀ k ∈ before', link'.precedence ≤ k.precedence) : before'.length ≤ before.length := by
  rcases List.append_eq_append_iff.mp heq with ⟨t, rfl, ht⟩ | ⟨t, rfl, -⟩
  · cases t with
    | nil => simp
    | cons k t =>
      obtain ⟨rfl, rfl⟩ := List.cons.inj ht
      have h1 := hafter link' (by simp)
      have h2 := hbefore' link (by simp)
      exact absurd h1 (Int.not_lt.mpr h2)
  · simp

/-- **A chain has one tree.** -/
theorem Arranges.unique {first : Expr} {links : List Link} {e e' : Expr} (h : Arranges first links e)
    (h' : Arranges first links e') : e = e' := by
  induction h generalizing e' with
  | leaf e =>
    generalize hl : ([] : List Link) = links at h'
    cases h' with
    | leaf => rfl
    | node => simp at hl
  | @node first before after link left right hleft hright hbefore hafter ihleft ihright =>
    generalize hl : before ++ link :: after = links at h'
    cases h' with
    | leaf => simp at hl
    | @node _ before' after' link' left' right' hleft' hright' hbefore' hafter' =>
      have hlen : before.length = before'.length :=
        Nat.le_antisymm (root_unique hl.symm hafter' hbefore) (root_unique hl hafter hbefore')
      obtain ⟨rfl, htail⟩ := List.append_inj hl hlen
      obtain ⟨rfl, rfl⟩ := List.cons.inj htail
      rw [ihleft hleft', ihright hright']

/-! ### Rows of chains -/

/-- The atoms of the links in front of what follows them. -/
def Link.rows (tail : List Atom) : List Link → List Atom
  | [] => tail
  | link :: links => link.atom :: (link.row ++ Link.rows tail links)

/-- The operator is one of the catalog, and its operand is read up to any row in `S`. -/
structure Link.Reads (c : Catalog) (closers : List Closer) (S : List Atom → Prop) (link : Link) : Prop where
  precedence : link.atom.precedence c = .ok (some link.precedence)
  name : link.atom.name c = .ok link.op
  operand : ∀ rest, S rest → Grammar.primary c closers (link.row ++ rest) = .ok ⟨rest, link.operand⟩

/-- No operator stands behind the chain, and an operand may end there and in front of every operator. -/
structure ChainEnd (c : Catalog) (S : List Atom → Prop) (links : List Link) (tail : List Atom) : Prop where
  operator : operator? c tail = .ok none
  rows : ∀ more, more <:+ links → S (Link.rows tail more)

theorem ChainEnd.of_suffix {c : Catalog} {S : List Atom → Prop} {links more : List Link} {tail : List Atom}
    (h : ChainEnd c S links tail) (hs : more <:+ links) : ChainEnd c S more tail :=
  ⟨h.operator, fun more' hs' => h.rows more' (hs'.trans hs)⟩

section

variable {α : Type} {p q : α → Bool}

/-- Taking more in a second go is taking more at once. -/
theorem takeWhile_append_takeWhile (h : ∀ x, p x = true → q x = true) : ∀ l : List α,
    l.takeWhile p ++ (l.dropWhile p).takeWhile q = l.takeWhile q
  | [] => rfl
  | x :: l => by
    by_cases hp : p x = true
    · rw [List.takeWhile_cons_of_pos hp, List.dropWhile_cons_of_pos hp, List.takeWhile_cons_of_pos (h x hp),
        List.cons_append, takeWhile_append_takeWhile h l]
    · rw [List.takeWhile_cons_of_neg hp, List.dropWhile_cons_of_neg hp, List.nil_append]

theorem dropWhile_dropWhile (h : ∀ x, p x = true → q x = true) : ∀ l : List α,
    (l.dropWhile p).dropWhile q = l.dropWhile q
  | [] => rfl
  | x :: l => by
    by_cases hp : p x = true
    · rw [List.dropWhile_cons_of_pos hp, List.dropWhile_cons_of_pos (h x hp), dropWhile_dropWhile h l]
    · rw [List.dropWhile_cons_of_neg hp]

end

/-! ### The two loops -/

/-- The link binds at least as tightly as `least`. -/
def Link.atLeast (least : Int) (link : Link) : Bool := decide (least ≤ link.precedence)

/-- The link binds more tightly than `precedence`. -/
def Link.above (precedence : Int) (link : Link) : Bool := decide (precedence < link.precedence)

/-- What was put together so far is arranged, and no operator in it is looser than the next one. -/
structure Climbed (first : Expr) (done links : List Link) (e : Expr) : Prop where
  arranged : Arranges first done e
  next : ∀ link, links.head? = some link → ∀ k ∈ done, link.precedence ≤ k.precedence

theorem Climbed.start (first : Expr) (links : List Link) : Climbed first [] links first :=
  ⟨.leaf first, fun _ _ k hk => by cases hk⟩

/-- The links that the loop from `least` on reads, with the tree that it makes of them. -/
def ExpressionClimbs (c : Catalog) (closers : List Closer) (S : List Atom → Prop) (links : List Link) : Prop :=
  ∀ (first left : Expr) (done : List Link) (least : Int) (tail : List Atom), (∀ link ∈ links, link.Reads c closers S) →
    ChainEnd c S links tail → Climbed first done links left →
    ∃ e, Grammar.expression c closers least left (Link.rows tail links) =
        .ok ⟨Link.rows tail (links.dropWhile (Link.atLeast least)), e⟩ ∧
      Arranges first (done ++ links.takeWhile (Link.atLeast least)) e

/-- The links that the loop behind an operator reads, with the tree that it makes of them. -/
def TighterClimbs (c : Catalog) (closers : List Closer) (S : List Atom → Prop) (links : List Link) : Prop :=
  ∀ (first right : Expr) (done : List Link) (precedence : Int) (tail : List Atom),
    (∀ link ∈ links, link.Reads c closers S) → ChainEnd c S links tail → Climbed first done links right →
    ∃ e, Grammar.tighter c closers precedence right (Link.rows tail links) =
        .ok ⟨Link.rows tail (links.dropWhile (Link.above precedence)), e⟩ ∧
      Arranges first (done ++ links.takeWhile (Link.above precedence)) e

section

variable {c : Catalog} {closers : List Closer} {S : List Atom → Prop}

theorem expressionClimbs_nil : ExpressionClimbs c closers S [] := by
  intro first left done least tail _ hend h
  refine ⟨left, ?_, by simpa using h.arranged⟩
  show Grammar.expression c closers least left tail = .ok ⟨tail, left⟩
  cases tail with
  | nil => exact Grammar.expression_nil c closers least left
  | cons a rest =>
    have hnone : a.precedence c = .ok none := hend.operator
    rw [Grammar.expression_cons, hnone]
    rfl

theorem tighterClimbs_nil : TighterClimbs c closers S [] := by
  intro first right done precedence tail _ hend h
  refine ⟨right, ?_, by simpa using h.arranged⟩
  show Grammar.tighter c closers precedence right tail = .ok ⟨tail, right⟩
  rw [Grammar.tighter_eq, hend.operator]
  rfl

/-- One operator with its operand: the loop from `least` on goes on behind what the tighter operators take. -/
theorem expressionClimbs_cons {link : Link} {links : List Link} (htighter : TighterClimbs c closers S links)
    (hmore : ∀ more, more <:+ links → ExpressionClimbs c closers S more) :
    ExpressionClimbs c closers S (link :: links) := by
  intro first left done least tail hreads hend h
  have hlink := hreads link List.mem_cons_self
  have hreads' : ∀ k ∈ links, k.Reads c closers S := fun k hk => hreads k (List.mem_cons_of_mem _ hk)
  have hend' := hend.of_suffix (List.suffix_cons link links)
  have hprimary := hlink.operand _ (hend'.rows links List.suffix_rfl)
  by_cases hlt : link.precedence < least
  · have hneg : ¬Link.atLeast least link = true := by
      rw [Link.atLeast, decide_eq_true_eq]
      exact Int.not_le.mpr hlt
    rw [List.takeWhile_cons_of_neg hneg, List.dropWhile_cons_of_neg hneg, List.append_nil]
    refine ⟨left, ?_, h.arranged⟩
    rw [Link.rows, Grammar.expression_cons, hlink.precedence]
    show (if link.precedence < least then _ else _) = _
    rw [if_pos hlt]
    rfl
  · have hpos : Link.atLeast least link = true := by
      rw [Link.atLeast, decide_eq_true_eq]
      exact Int.not_lt.mp hlt
    obtain ⟨right, hright, harranged⟩ := htighter _ _ _ link.precedence _ hreads' hend'
      (.start link.operand links)
    rw [List.nil_append] at harranged
    have hstep : Grammar.expression c closers least left (Link.rows tail (link :: links)) =
        Grammar.expression c closers least (between link.op left right)
          (Link.rows tail (links.dropWhile (Link.above link.precedence))) := by
      rw [Link.rows, Grammar.expression_cons, hlink.precedence]
      show (if link.precedence < least then _ else _) = _
      rw [if_neg hlt, hlink.name, hprimary]
      show (Grammar.tighter c closers link.precedence link.operand (Link.rows tail links) >>= _) = _
      rw [hright]
      rfl
    have hdone : ∀ k ∈ done, link.precedence ≤ k.precedence := h.next link rfl
    have htaken : ∀ k ∈ links.takeWhile (Link.above link.precedence), link.precedence < k.precedence :=
      fun k hk => of_decide_eq_true (List.all_eq_true.mp (List.all_takeWhile) k hk)
    have hclimbed : Climbed first (done ++ link :: links.takeWhile (Link.above link.precedence))
        (links.dropWhile (Link.above link.precedence)) (between link.op left right) := by
      refine ⟨.node h.arranged harranged hdone htaken, fun next hnext k hk => ?_⟩
      have hle : next.precedence ≤ link.precedence := by
        have := List.head?_dropWhile_not (Link.above link.precedence) links
        rw [hnext] at this
        have hnot : ¬link.precedence < next.precedence := by simpa [Link.above] using this
        exact Int.not_lt.mp hnot
      rcases List.mem_append.mp hk with hk | hk
      · exact Int.le_trans hle (hdone k hk)
      · rcases List.mem_cons.mp hk with rfl | hk
        · exact hle
        · exact Int.le_trans hle (Int.le_of_lt (htaken k hk))
    have hsuffix := List.dropWhile_suffix (Link.above link.precedence) (l := links)
    obtain ⟨e, he, harranged'⟩ := hmore _ hsuffix _ _ _ least _ (fun k hk => hreads' k (hsuffix.subset hk))
      (hend'.of_suffix hsuffix) hclimbed
    have himp : ∀ k : Link, Link.above link.precedence k = true → Link.atLeast least k = true := by
      intro k hk
      rw [Link.above, decide_eq_true_eq] at hk
      rw [Link.atLeast, decide_eq_true_eq]
      exact Int.le_trans (Int.not_lt.mp hlt) (Int.le_of_lt hk)
    rw [dropWhile_dropWhile himp] at he
    rw [List.append_assoc, List.cons_append, takeWhile_append_takeWhile himp] at harranged'
    rw [List.takeWhile_cons_of_pos hpos, List.dropWhile_cons_of_pos hpos]
    exact ⟨e, by rw [hstep, he], harranged'⟩

/-- Behind an operator the next tighter one sets the precedence from which on the loop reads. -/
theorem tighterClimbs_cons {link : Link} {links : List Link} (hexpression : ExpressionClimbs c closers S (link :: links))
    (hmore : ∀ more, more <:+ links → TighterClimbs c closers S more) :
    TighterClimbs c closers S (link :: links) := by
  intro first right done precedence tail hreads hend h
  have hlink := hreads link List.mem_cons_self
  have hoperator : operator? c (Link.rows tail (link :: links)) = .ok (some link.precedence) := hlink.precedence
  by_cases hle : link.precedence ≤ precedence
  · have hneg : ¬Link.above precedence link = true := by
      rw [Link.above, decide_eq_true_eq]
      exact Int.not_lt.mpr hle
    rw [List.takeWhile_cons_of_neg hneg, List.dropWhile_cons_of_neg hneg, List.append_nil]
    refine ⟨right, ?_, h.arranged⟩
    rw [Grammar.tighter_eq, hoperator]
    show (if link.precedence ≤ precedence then _ else _) = _
    rw [if_pos hle]
    rfl
  · have hpos : Link.above precedence link = true := by
      rw [Link.above, decide_eq_true_eq]
      exact Int.not_le.mp hle
    have hself : Link.atLeast link.precedence link = true := decide_eq_true (Int.le_refl _)
    obtain ⟨e, he, harranged⟩ := hexpression _ _ _ link.precedence _ hreads hend h
    rw [List.takeWhile_cons_of_pos hself] at harranged
    rw [List.dropWhile_cons_of_pos hself] at he
    have hstep : Grammar.tighter c closers precedence right (Link.rows tail (link :: links)) =
        Grammar.tighter c closers precedence e (Link.rows tail (links.dropWhile (Link.atLeast link.precedence))) := by
      rw [Grammar.tighter_eq, hoperator]
      show (if link.precedence ≤ precedence then _ else _) = _
      rw [if_neg hle]
      show (Grammar.expression c closers link.precedence right (Link.rows tail (link :: links)) >>= _) = _
      rw [he]
      rfl
    have hclimbed : Climbed first (done ++ link :: links.takeWhile (Link.atLeast link.precedence))
        (links.dropWhile (Link.atLeast link.precedence)) e := by
      refine ⟨harranged, fun next hnext k hk => ?_⟩
      have hlt : next.precedence ≤ link.precedence := by
        have := List.head?_dropWhile_not (Link.atLeast link.precedence) links
        rw [hnext] at this
        have hnot : ¬link.precedence ≤ next.precedence := by simpa [Link.atLeast] using this
        exact Int.le_of_lt (Int.not_le.mp hnot)
      rcases List.mem_append.mp hk with hk | hk
      · exact Int.le_trans hlt (h.next link rfl k hk)
      · rcases List.mem_cons.mp hk with rfl | hk
        · exact hlt
        · exact Int.le_trans hlt (of_decide_eq_true (List.all_eq_true.mp (List.all_takeWhile) k hk))
    have hsuffix := List.dropWhile_suffix (Link.atLeast link.precedence) (l := links)
    have hreads' : ∀ k ∈ links, k.Reads c closers S := fun k hk => hreads k (List.mem_cons_of_mem _ hk)
    obtain ⟨e', he', harranged'⟩ := hmore _ hsuffix _ _ _ precedence _ (fun k hk => hreads' k (hsuffix.subset hk))
      (hend.of_suffix (hsuffix.trans (List.suffix_cons link links))) hclimbed
    have himp : ∀ k : Link, Link.atLeast link.precedence k = true → Link.above precedence k = true := by
      intro k hk
      rw [Link.atLeast, decide_eq_true_eq] at hk
      rw [Link.above, decide_eq_true_eq]
      exact Int.lt_of_lt_of_le (Int.not_le.mp hle) hk
    rw [dropWhile_dropWhile himp] at he'
    rw [List.append_assoc, List.cons_append, takeWhile_append_takeWhile himp] at harranged'
    rw [List.takeWhile_cons_of_pos hpos, List.dropWhile_cons_of_pos hpos]
    exact ⟨e', by rw [hstep, he'], harranged'⟩

/-- Both loops climb over chains of any length: the induction is on the length, the loop behind an operator above the loop
that begins with it. -/
theorem climbs : ∀ (n : Nat) (links : List Link), links.length ≤ n →
    ExpressionClimbs c closers S links ∧ TighterClimbs c closers S links
  | _, [], _ => ⟨expressionClimbs_nil, tighterClimbs_nil⟩
  | n + 1, link :: links, h => by
    have hlen : links.length ≤ n := Nat.le_of_succ_le_succ h
    have hmore : ∀ more, more <:+ links → ExpressionClimbs c closers S more ∧ TighterClimbs c closers S more :=
      fun more hs => climbs n more (Nat.le_trans hs.length_le hlen)
    have hexpression : ExpressionClimbs c closers S (link :: links) :=
      expressionClimbs_cons (climbs n links hlen).2 fun more hs => (hmore more hs).1
    exact ⟨hexpression, tighterClimbs_cons hexpression fun more hs => (hmore more hs).2⟩

/-- **A chain is read as its tree**, if no operator of it is looser than `least`. -/
theorem expression_chain {first : Expr} {links : List Link} {least : Int} {tail : List Atom}
    (hreads : ∀ link ∈ links, link.Reads c closers S) (hend : ChainEnd c S links tail)
    (hleast : ∀ link ∈ links, least ≤ link.precedence) :
    ∃ e, Grammar.expression c closers least first (Link.rows tail links) = .ok ⟨tail, e⟩ ∧ Arranges first links e := by
  obtain ⟨e, he, harranged⟩ := (climbs links.length links (Nat.le_refl _)).1 _ _ _ least _ hreads hend
    (.start first links)
  have hall : ∀ link ∈ links, Link.atLeast least link = true := fun link hl => decide_eq_true (hleast link hl)
  rw [List.takeWhile_eq_self_iff.mpr hall, List.nil_append] at harranged
  rw [List.dropWhile_eq_nil_iff.mpr hall] at he
  exact ⟨e, he, harranged⟩

end

end Formula
