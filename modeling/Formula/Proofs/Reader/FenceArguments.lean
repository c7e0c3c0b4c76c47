import Mathlib.Data.List.Forall2
import Formula.Proofs.Reader.FencePair

/-!
# Arguments in rows with a fence

The arguments of a call are cut out of a row by counting fences: up to the atom that closes the first of them, and at the
commas that no fence is around.  `levelAfter` is this count.  A fence in its two forms is on one level, and so the rows
are cut at the same places in both forms, into pieces that differ in nothing but the form of the fence.
-/

namespace Formula

open Atom Expr Outcome

/-! ### Levels -/

/-- The level behind an atom, none if it closes a fence that was not opened. -/
def levelBehind (depth : Nat) (a : Atom) : Option Nat :=
  if a.type = .opening then some (depth + 1)
  else if a.type = .closing then
    match depth with
    | 0 => none
    | outer + 1 => some outer
  else some depth

/-- The level behind a row, none if an atom of it closes a fence that was not opened. -/
def levelAfter (depth : Nat) : List Atom → Option Nat
  | [] => some depth
  | a :: rest => (levelBehind depth a).bind fun next => levelAfter next rest

theorem levelAfter_append (depth : Nat) (row more : List Atom) :
    levelAfter depth (row ++ more) = (levelAfter depth row).bind fun next => levelAfter next more := by
  induction row generalizing depth with
  | nil => rfl
  | cons a row ih =>
    rw [List.cons_append, levelAfter, levelAfter, Option.bind_assoc]
    exact Option.bind_congr fun next _ => ih next

theorem levelBehind_add {depth next : Nat} {a : Atom} (h : levelBehind depth a = some next) (outer : Nat) :
    levelBehind (outer + depth) a = some (outer + next) := by
  unfold levelBehind at h ⊢
  by_cases ho : a.type = .opening
  · rw [if_pos ho] at h ⊢
    cases h
    rfl
  · rw [if_neg ho] at h ⊢
    by_cases hc : a.type = .closing
    · rw [if_pos hc] at h ⊢
      cases depth with
      | zero => cases h
      | succ depth =>
        cases h
        rfl
    · rw [if_neg hc] at h ⊢
      cases h
      rfl

/-- More fences around a row are still around what is behind it. -/
theorem levelAfter_add {row : List Atom} {depth last : Nat} (h : levelAfter depth row = some last) (outer : Nat) :
    levelAfter (outer + depth) row = some (outer + last) := by
  induction row generalizing depth with
  | nil =>
    cases h
    rfl
  | cons a row ih =>
    obtain ⟨next, hnext, h⟩ := Option.bind_eq_some_iff.mp h
    rw [levelAfter, levelBehind_add hnext outer]
    exact ih h

/-- Rows that nest close the fences of their stack. -/
theorem levelAfter_of_nests {row : List Atom} {stack : List String} (h : nests stack row = true) :
    levelAfter stack.length row = some 0 := by
  induction row generalizing stack with
  | nil =>
    have hnil : stack = [] := List.isEmpty_iff.mp h
    rw [hnil]
    rfl
  | cons a row ih =>
    unfold levelAfter levelBehind
    by_cases ho : a.type = .opening
    · obtain ⟨t, p, -, -, hnests⟩ := FencePair.nests_opening ho h
      rw [if_pos ho]
      exact ih hnests
    · rw [if_neg ho]
      by_cases hc : a.type = .closing
      · obtain ⟨p, more, rfl, -, hnests⟩ := FencePair.nests_closing hc h
        rw [if_pos hc]
        exact ih hnests
      · rw [if_neg hc]
        exact ih (FencePair.nests_other ho hc h)

/-! ### Up to a closer -/

namespace Expr

/-- The next level as the reader counts it. -/
theorem nextDepth_of_levelBehind {depth next : Nat} {a : Atom} (h : levelBehind depth a = some next) :
    ¬(a.type = .closing ∧ depth = 0) ∧
      (if a.type = .opening then depth + 1 else if a.type = .closing then depth - 1 else depth) = next := by
  unfold levelBehind at h
  by_cases ho : a.type = .opening
  · rw [if_pos ho] at h
    cases h
    rw [if_pos ho]
    refine ⟨fun hc => ?_, rfl⟩
    rw [ho] at hc
    cases hc.1
  · rw [if_neg ho] at h
    rw [if_neg ho]
    by_cases hc : a.type = .closing
    · rw [if_pos hc] at h
      rw [if_pos hc]
      cases depth with
      | zero => cases h
      | succ depth =>
        cases h
        exact ⟨by omega, rfl⟩
    · rw [if_neg hc] at h
      cases h
      rw [if_neg hc]
      exact ⟨fun h => hc h.1, rfl⟩

/-- The closer of a fence is looked for behind a row that does not close it. -/
theorem splitAtCloser_through {row : List Atom} {depth last : Nat} (h : levelAfter depth row = some last)
    (rest : List Atom) :
    splitAtCloser depth (row ++ rest) = (splitAtCloser last rest).map fun s => (row ++ s.1, s.2) := by
  induction row generalizing depth with
  | nil =>
    cases h
    simp
  | cons a row ih =>
    obtain ⟨next, hnext, h⟩ := Option.bind_eq_some_iff.mp h
    obtain ⟨hopen, hdepth⟩ := nextDepth_of_levelBehind hnext
    rw [List.cons_append, splitAtCloser, if_neg hopen]
    dsimp only
    rw [hdepth, ih h, Option.map_map]
    rfl

theorem splitAtCloser_closing {a : Atom} (h : a.type = .closing) (rest : List Atom) :
    splitAtCloser 0 (a :: rest) = some ([], a, rest) := by
  rw [splitAtCloser, if_pos ⟨h, rfl⟩]

/-- A row that does not keep the level has the closer in it. -/
theorem splitAtCloser_of_levelAfter {row : List Atom} {depth : Nat} (h : levelAfter depth row = none) :
    ∃ inner last rest, row = inner ++ last :: rest ∧
      ∀ more, splitAtCloser depth (row ++ more) = some (inner, last, rest ++ more) := by
  induction row generalizing depth with
  | nil => cases h
  | cons a row ih =>
    cases hnext : levelBehind depth a with
    | none =>
      unfold levelBehind at hnext
      split at hnext
      · cases hnext
      · split at hnext
        · rename_i hc
          cases depth with
          | zero => exact ⟨[], a, row, rfl, fun more => splitAtCloser_closing hc _⟩
          | succ depth => cases hnext
        · cases hnext
    | some next =>
      rw [levelAfter, hnext] at h
      obtain ⟨inner, last, rest, rfl, hsplit⟩ := ih h
      refine ⟨a :: inner, last, rest, rfl, fun more => ?_⟩
      have hone : levelAfter depth [a] = some next := by rw [levelAfter, hnext]; rfl
      have hthrough := splitAtCloser_through hone ((inner ++ last :: rest) ++ more)
      rw [hsplit more] at hthrough
      exact hthrough

/-! ### At commas -/

/-- The level behind an atom, as it is counted at commas. -/
def depthBehind (depth : Int) (a : Atom) : Int :=
  if a.type = .opening then depth + 1 else if a.type = .closing then depth - 1 else depth

theorem depthBehind_eq {depth next : Nat} {a : Atom} (h : levelBehind depth a = some next) (outer : Int) :
    depthBehind (outer + depth) a = outer + next := by
  unfold levelBehind at h
  unfold depthBehind
  split at h
  · cases h
    simp [*, Int.add_assoc]
  · split at h
    · cases depth with
      | zero => cases h
      | succ depth =>
        cases h
        simp only [*, if_true, if_false, reduceCtorEq]
        omega
    · cases h
      simp [*]

/-- The atom is a comma that ends a part. -/
def endsPart (depth : Int) (a : Atom) : Outcome Bool :=
  if depthBehind depth a = 0 ∧ a.type = .punctuation then a.text.map (·.isText ",") else pure false

/-- Whether an atom ends a part does not hang on the part, nor on what is behind the atom. -/
theorem splitAtCommas_step (depth : Int) (part : List Atom) (a : Atom) (rest : List Atom) :
    splitAtCommas depth part (a :: rest) = (do
      let comma ← endsPart depth a
      if comma then return part.reverse :: (← splitAtCommas (depthBehind depth a) [] rest)
      else splitAtCommas (depthBehind depth a) (a :: part) rest) := by
  rw [splitAtCommas]
  change (if depthBehind depth a = 0 ∧ a.type = .punctuation then _ else _) = _
  by_cases h : depthBehind depth a = 0 ∧ a.type = .punctuation
  · rw [if_pos h]
    exact congrArg (· >>= _) (if_pos h).symm
  · rw [if_neg h]
    exact congrArg (· >>= _) (if_neg h).symm

theorem splitAtCommas_skip {depth : Int} {part rest : List Atom} {a : Atom}
    (h : depthBehind depth a ≠ 0 ∨ a.type ≠ .punctuation) :
    splitAtCommas depth part (a :: rest) = splitAtCommas (depthBehind depth a) (a :: part) rest := by
  have hends : endsPart depth a = .ok false := if_neg fun hc => h.elim (· hc.1) (· hc.2)
  rw [splitAtCommas_step, hends]
  rfl

/-- Within a fence no row is split. -/
theorem splitAtCommas_through {row : List Atom} {depth last : Nat} (h : levelAfter depth row = some last) {outer : Int}
    (ho : 0 < outer) (part rest : List Atom) :
    splitAtCommas (outer + depth) part (row ++ rest) = splitAtCommas (outer + last) (row.reverse ++ part) rest := by
  induction row generalizing depth part with
  | nil =>
    cases h
    rfl
  | cons a row ih =>
    obtain ⟨next, hnext, h⟩ := Option.bind_eq_some_iff.mp h
    have hdepth := depthBehind_eq hnext outer
    rw [List.cons_append, splitAtCommas_skip (.inl (by omega)), hdepth, ih h, List.reverse_cons, List.append_assoc]
    rfl

/-- What was read before the first comma stays in front of it. -/
theorem splitAtCommas_part {F : Fault → Prop} {R : List Atom → List Atom → Prop} (hR : ∀ p, R p p) {row : List Atom}
    {depth : Int} {part part' : List Atom}
    (h : ∀ x, (∀ a ∈ x, a ∈ row) → R (part.reverse ++ x) (part'.reverse ++ x)) :
    Agree F (List.Forall₂ R) (splitAtCommas depth part row) (splitAtCommas depth part' row) := by
  induction row generalizing depth part part' with
  | nil =>
    rw [splitAtCommas, splitAtCommas]
    have hnil := h [] (fun a ha => ha)
    rw [List.append_nil, List.append_nil] at hnil
    exact List.Forall₂.cons hnil .nil
  | cons a row ih =>
    rw [splitAtCommas_step, splitAtCommas_step]
    refine .ask fun comma _ => .choice (fun _ => ?_) fun _ => ?_
    · refine .ask fun more _ => List.Forall₂.cons ?_ (List.forall₂_same.mpr fun p _ => hR p)
      have hnil := h [] (fun a ha => absurd ha List.not_mem_nil)
      rwa [List.append_nil, List.append_nil] at hnil
    · refine ih fun x hx => ?_
      rw [List.reverse_cons, List.reverse_cons, List.append_assoc, List.append_assoc]
      refine h (a :: x) fun b hb => ?_
      rcases List.mem_cons.mp hb with rfl | hb
      · exact List.mem_cons_self
      · exact List.mem_cons_of_mem _ (hx b hb)

/-- Spaces are in the pieces and nowhere else. -/
theorem splitAtCommas_unspaced (row : List Atom) : ∀ (depth : Int) (part : List Atom),
    splitAtCommas depth (unspaced part) (unspaced row) = Except.map (List.map unspaced) (splitAtCommas depth part row) := by
  have hreverse : ∀ part : List Atom, (unspaced part).reverse = unspaced part.reverse :=
    fun _ => List.filter_reverse.symm
  induction row with
  | nil =>
    intro depth part
    show Except.ok [(unspaced part).reverse] = .ok [unspaced part.reverse]
    rw [hreverse]
  | cons a row ih =>
    intro depth part
    by_cases hs : a.type = .spacing
    · have hrow : unspaced (a :: row) = unspaced row := unspaced_cons_of_spacing hs row
      have hpart : unspaced (a :: part) = unspaced part := unspaced_cons_of_spacing hs part
      have hdepth : depthBehind depth a = depth := by simp [depthBehind, hs]
      rw [splitAtCommas_skip (.inr (by simp [hs])), hdepth, hrow, ← ih, hpart]
    · have hrow : unspaced (a :: row) = a :: unspaced row := unspaced_cons_of_ne hs row
      have hpart : unspaced (a :: part) = a :: unspaced part := unspaced_cons_of_ne hs part
      have hnil := ih (depthBehind depth a) []
      rw [unspaced, List.filter_nil] at hnil
      rw [hrow, splitAtCommas_step, splitAtCommas_step, hnil, ← hpart, ih, hreverse]
      cases endsPart depth a with
      | error f => rfl
      | ok comma =>
        cases comma with
        | false => rfl
        | true => cases splitAtCommas (depthBehind depth a) [] row <;> rfl

end Expr

/-! ### Arguments -/

namespace FencePair

variable {F : Fault → Prop} (P : FencePair F) {c : Catalog}

/-- Rows of arguments: the same, or with the fence in its two forms, or what is between its atoms and inside of it. -/
inductive Arguments : List Atom → List Atom → Prop
  | same (row : List Atom) : Arguments row row
  | fence {front behind : List Atom} {level : Nat} : levelAfter 0 front = some level → (∀ a ∈ behind, a.Keyed F) →
      Arguments (front ++ P.opening :: (P.row ++ P.closing :: behind)) (front ++ P.fenced :: behind)
  | body : Arguments P.row P.body

theorem levelAfter_row : levelAfter 0 P.row = some 0 := levelAfter_of_nests P.nests

/-- The level is the same behind the fence in both forms. -/
theorem levelAfter_fence (depth : Nat) : levelAfter depth (P.opening :: (P.row ++ [P.closing])) = some depth := by
  have hrow : levelAfter (depth + 1 + 0) P.row = some (depth + 1 + 0) := levelAfter_add P.levelAfter_row (depth + 1)
  have hopening : levelBehind depth P.opening = some (depth + 1) := if_pos P.opening_type
  rw [levelAfter, hopening]
  show levelAfter (depth + 1) (P.row ++ [P.closing]) = _
  rw [levelAfter_append, hrow]
  show (levelBehind (depth + 1) P.closing).bind _ = _
  unfold levelBehind
  rw [if_neg (by rw [P.closing_type]; decide), if_pos P.closing_type]
  rfl

theorem levelBehind_fenced (depth : Nat) : levelBehind depth P.fenced = some depth := by
  unfold levelBehind
  rw [if_neg (by rw [P.fenced_type]; decide), if_neg (by rw [P.fenced_type]; decide)]

/-- The pieces of a row of arguments have the fence in its two forms. -/
theorem Arguments.commas {l r : List Atom} (h : P.Arguments l r) :
    Agree F (List.Forall₂ fun p q => P.Sides (unspaced p) (unspaced q)) (splitAtCommas 0 [] l) (splitAtCommas 0 [] r) := by
  cases h with
  | same row => exact .refl (fun parts => List.forall₂_same.mpr fun p _ => .inl rfl) _
  | body =>
    have hbody : splitAtCommas 0 [] P.row = _ := splitAtCommas_unspaced P.body 0 []
    rw [hbody]
    refine Agree.map_left fun parts => ?_
    rw [List.forall₂_map_left_iff]
    refine List.forall₂_same.mpr fun p _ => ?_
    rw [unspaced_unspaced]
    exact .inl rfl
  | @fence front behind level hlevel hkeyed =>
    have on : ∀ (front : List Atom) {depth level : Nat}, levelAfter depth front = some level → ∀ part,
        Agree F (List.Forall₂ fun p q => P.Sides (unspaced p) (unspaced q))
          (splitAtCommas depth part (front ++ P.opening :: (P.row ++ P.closing :: behind)))
          (splitAtCommas depth part (front ++ P.fenced :: behind)) := by
      intro front
      induction front with
      | nil =>
        intro depth level _ part
        have hopening : depthBehind depth P.opening = depth + 1 + (0 : Nat) := by simp [depthBehind, P.opening_type]
        have hclosing : depthBehind (depth + 1 + (0 : Nat)) P.closing = depth := by simp [depthBehind, P.closing_type]
        have hfenced : depthBehind depth P.fenced = depth := by simp [depthBehind, P.fenced_type]
        rw [List.nil_append, List.nil_append, splitAtCommas_skip (.inr (by simp [P.opening_type])), hopening,
          splitAtCommas_through P.levelAfter_row (by omega), splitAtCommas_skip (.inr (by simp [P.closing_type])),
          hclosing, splitAtCommas_skip (.inr (by simp [P.fenced_type])), hfenced]
        refine splitAtCommas_part (fun p => .inl rfl) fun x hx => Sides.unspaced P (.inr ⟨part.reverse, x, ?_, ?_, ?_⟩)
        · simp
        · simp
        · exact fun a ha => hkeyed a (hx a ha)
      | cons a front ih =>
        intro depth level h part
        obtain ⟨next, hnext, h⟩ := Option.bind_eq_some_iff.mp h
        have hdepth : depthBehind depth a = next := by
          have := depthBehind_eq hnext 0
          rwa [Int.zero_add, Int.zero_add] at this
        rw [List.cons_append, List.cons_append, splitAtCommas_step, splitAtCommas_step, hdepth]
        refine .ask fun comma _ => .choice (fun _ => ?_) fun _ => ih h _
        exact Agree.bind (ih h []) fun more more' _ _ hmore => List.Forall₂.cons (.inl rfl) hmore
    exact on front hlevel []

/-- The scripts of an atom that the reader attaches. -/
def SameScripts (a b : Atom) : Prop := a.superscript = b.superscript ∧ a.subscript = b.subscript

/-- What is cut off two rows for a call. -/
inductive SameCut (m : Mode) : Option (List Atom × Atom × List Atom) → Option (List Atom × Atom × List Atom) → Prop
  | none : SameCut m none none
  | some {inner inner' rest rest' : List Atom} {last last' : Atom} : P.Arguments inner inner' → SameScripts last last' →
      P.Rows m rest rest' → SameCut m (some (inner, last, rest)) (some (inner', last', rest'))

/-- Outside of the fence its two forms are on one side of a closer. -/
theorem Sides.splitAtCloser {closers : List Closer} {l r : List Atom} (h : P.Sides l r) :
    P.SameCut (.outside closers) (splitAtCloser 0 l) (splitAtCloser 0 r) := by
  rcases h with rfl | ⟨front, behind, rfl, rfl, hkeyed⟩
  · cases Expr.splitAtCloser 0 l with
    | none => exact .none
    | some s => exact .some (.same _) ⟨rfl, rfl⟩ (.inl rfl)
  · cases hlevel : levelAfter 0 front with
    | none =>
      obtain ⟨inner, last, rest, -, hsplit⟩ := splitAtCloser_of_levelAfter hlevel
      rw [hsplit, hsplit]
      exact .some (.same _) ⟨rfl, rfl⟩ (.inr ⟨rest, behind, rfl, rfl, hkeyed⟩)
    | some level =>
      have hleft : levelAfter 0 (front ++ P.opening :: (P.row ++ [P.closing])) = some level := by
        rw [levelAfter_append, hlevel]
        exact P.levelAfter_fence level
      have hright : levelAfter 0 (front ++ [P.fenced]) = some level := by
        rw [levelAfter_append, hlevel]
        show (levelBehind level P.fenced).bind _ = _
        rw [P.levelBehind_fenced]
        rfl
      have hsplit := splitAtCloser_through hleft behind
      have hsplit' := splitAtCloser_through hright behind
      simp only [List.append_assoc, List.cons_append, List.nil_append] at hsplit hsplit'
      rw [hsplit, hsplit']
      cases hbehind : Expr.splitAtCloser level behind with
      | none => exact .none
      | some s =>
        obtain ⟨inner, last, rest⟩ := s
        refine .some ?_ ⟨rfl, rfl⟩ (.inl rfl)
        refine .fence hlevel fun a ha => hkeyed a ?_
        rw [splitAtCloser_eq hbehind]
        exact List.mem_append_left _ ha

/-- The fence that the stack waits for first is closed in the row. -/
theorem exists_closer {row : List Atom} {inner : List String} {p : String} {stack : List String}
    (h : Atom.nests (inner ++ p :: stack) row = true) : ∃ front last rest, row = front ++ last :: rest ∧
      levelAfter inner.length front = some 0 ∧ last.type = .closing ∧ Atom.nests stack rest = true := by
  induction row generalizing inner with
  | nil => simp [Atom.nests] at h
  | cons a row ih =>
    have level : ∀ {n : Nat} {front : List Atom}, levelBehind inner.length a = some n → levelAfter n front = some 0 →
        levelAfter inner.length (a :: front) = some 0 := by
      intro n front ha hfront
      rw [levelAfter, ha]
      exact hfront
    by_cases ho : a.type = .opening
    · obtain ⟨t, q, -, -, hnests⟩ := nests_opening ho h
      obtain ⟨front, last, rest, rfl, hlevel, hlast, hrest⟩ := @ih (q :: inner) hnests
      exact ⟨a :: front, last, rest, rfl, level (if_pos ho) hlevel, hlast, hrest⟩
    · by_cases hc : a.type = .closing
      · obtain ⟨q, more, heq, -, hnests⟩ := nests_closing hc h
        cases inner with
        | nil =>
          obtain ⟨rfl, rfl⟩ := List.cons.inj heq
          exact ⟨[], a, row, rfl, rfl, hc, hnests⟩
        | cons g inner =>
          obtain ⟨rfl, rfl⟩ := List.cons.inj heq
          obtain ⟨front, last, rest, rfl, hlevel, hlast, hrest⟩ := ih hnests
          exact ⟨a :: front, last, rest, rfl, level ((if_neg ho).trans (if_pos hc)) hlevel, hlast, hrest⟩
      · obtain ⟨front, last, rest, rfl, hlevel, hlast, hrest⟩ := ih (nests_other ho hc h)
        exact ⟨a :: front, last, rest, rfl, level ((if_neg ho).trans (if_neg hc)) hlevel, hlast, hrest⟩

variable {P}

/-- Inside of the fence what a fence around the rows waits for is in both of them. -/
theorem Inside.splitAtCloser {outer : List Closer} {p : String} {stack : List String} {behind l r : List Atom}
    (h : P.Inside (p :: stack) behind l r) :
    P.SameCut (.inside outer stack behind) (splitAtCloser 0 l) (splitAtCloser 0 r) := by
  obtain ⟨front, last, rest, rfl, hlevel, hlast, hnests⟩ := @exists_closer _ [] _ _ h.nests
  obtain rfl := h.eq
  have split : ∀ more : List Atom, Expr.splitAtCloser 0 (front ++ last :: more) = some (front, last, more) := by
    intro more
    have hthrough := splitAtCloser_through hlevel (last :: more)
    rw [splitAtCloser_closing hlast] at hthrough
    simpa using hthrough
  have hmem : ∀ {a : Atom}, a ∈ rest → a ∈ front ++ last :: rest :=
    fun ha => List.mem_append_right _ (List.mem_cons_of_mem _ ha)
  rw [List.append_assoc, List.cons_append, split, split]
  exact .some (.same _) ⟨rfl, rfl⟩ ⟨rfl, hnests, fun g hg => h.glyphs g (List.mem_cons_of_mem _ hg),
    fun a ha => h.plain a (hmem ha), fun a ha => h.keyed a (hmem ha), h.behind⟩

/-- The arguments behind the name of a function. -/
theorem Rows.callArguments {m : Mode} {l r : List Atom} (h : P.Rows m l r) :
    Agree F (P.SameCut m) (callArguments? l) (callArguments? r) := by
  cases h.view with
  | nil => exact .none
  | stop =>
    rw [callArguments?_none (by rw [P.closing_type]; decide) (by rw [P.closing_type]; decide)]
    exact .none
  | @fence closers behind hm hkeyed =>
    subst hm
    rw [callArguments?, callArguments?, P.opening_type, P.fenced_type]
    dsimp only
    rw [P.opening_text, P.leftDelim, P.rightDelim]
    by_cases hleft : P.left = "("
    · have hright : P.right = ")" := by
        have hpartner := P.partner
        rw [hleft] at hpartner
        exact (Option.some.inj hpartner).symm
      have hsplit := splitAtCloser_through P.levelAfter_row (P.closing :: behind)
      rw [splitAtCloser_closing P.closing_type] at hsplit
      rw [hleft, hright, P.fenced_body]
      show Agree F _ (.ok (Expr.splitAtCloser 0 (P.row ++ P.closing :: behind))) (.ok (some (P.body, P.fenced, behind)))
      rw [hsplit]
      refine .some ?_ ⟨P.superscript.symm, P.subscript.symm⟩ (.inl rfl)
      rw [List.append_nil]
      exact .body
    · have hleft' : (Datum.text P.left).isText "(" = false := beq_eq_false_iff_ne.mpr hleft
      simp only [bind, Except.bind, hleft', Bool.false_and, Bool.false_eq_true, if_false]
      exact .none
  | same a l r =>
    rw [callArguments?, callArguments?]
    split
    · rename_i ht
      refine .choice (fun _ => ?_) fun _ => .none
      exact .some (.same _) ⟨rfl, rfl⟩ (h.tail (by rw [ht]; decide) (by rw [ht]; decide))
    · rename_i ht
      refine .ask fun text _ => .choice (fun _ => ?_) fun _ => .none
      cases m with
      | outside closers => exact Sides.splitAtCloser P h.tail_outside
      | inside outer stack behind =>
        obtain ⟨t, p, -, -, hin⟩ := Inside.opening h ht
        exact hin.splitAtCloser
    · exact .none

end FencePair

end Formula
