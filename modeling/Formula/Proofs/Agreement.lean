import Formula.Proofs.Settling

/-!
# Outcomes that agree

Two readings of two rows are compared step by step.  They agree if both have values that are related, or both have the
same fault; faults in `F` may stand on one side alone.  That there is not enough fuel is such a fault, and a question
that only one of the two readings asks is answered up to faults in `F`.
-/

namespace Formula.Outcome

variable {α β γ δ : Type} {F : Fault → Prop}

/-- Related values, or the same fault, or a fault in `F` on either side. -/
def Agree (F : Fault → Prop) (R : α → β → Prop) : Outcome α → Outcome β → Prop
  | .ok v, .ok w => R v w
  | .ok _, .error g => F g
  | .error f, .ok _ => F f
  | .error f, .error g => F f ∨ F g ∨ f = g

theorem Agree.imp {R Q : α → β → Prop} {r : Outcome α} {s : Outcome β} (h : Agree F R r s)
    (hR : ∀ v w, r = .ok v → s = .ok w → R v w → Q v w) : Agree F Q r s := by
  cases r with
  | ok v =>
    cases s with
    | ok w => exact hR v w rfl rfl h
    | error g => exact h
  | error f =>
    cases s with
    | ok w => exact h
    | error g => exact h

theorem Agree.of_left {R : α → β → Prop} {f : Fault} (h : F f) (s : Outcome β) : Agree F R (.error f) s := by
  cases s with
  | ok w => exact h
  | error g => exact .inl h

theorem Agree.of_right {R : α → β → Prop} {g : Fault} (h : F g) (r : Outcome α) : Agree F R r (.error g) := by
  cases r with
  | ok v => exact h
  | error f => exact .inr (.inl h)

theorem Agree.refl {R : α → α → Prop} (hR : ∀ v, R v v) (r : Outcome α) : Agree F R r r := by
  cases r with
  | ok v => exact hR v
  | error f => exact .inr (.inr rfl)

theorem Agree.of_eq {r s : Outcome α} (h : r = s) : Agree F Eq r s := h ▸ .refl (fun _ => rfl) r

/-- One step after another on both sides. -/
theorem Agree.bind {R : α → β → Prop} {Q : γ → δ → Prop} {r : Outcome α} {s : Outcome β} {g : α → Outcome γ}
    {k : β → Outcome δ} (h : Agree F R r s) (hg : ∀ v w, r = .ok v → s = .ok w → R v w → Agree F Q (g v) (k w)) :
    Agree F Q (r >>= g) (s >>= k) := by
  cases r with
  | ok v =>
    cases s with
    | ok w => exact hg v w rfl rfl h
    | error f => exact .of_right h _
  | error f =>
    cases s with
    | ok w => exact .of_left h _
    | error g => exact h

/-- A question that both sides ask. -/
theorem Agree.ask {Q : γ → δ → Prop} {r : Outcome α} {g : α → Outcome γ} {k : α → Outcome δ}
    (hg : ∀ v, r = .ok v → Agree F Q (g v) (k v)) : Agree F Q (r >>= g) (r >>= k) := by
  cases r with
  | ok v => exact hg v rfl
  | error f => exact .inr (.inr rfl)

/-- A question that the left side alone asks. -/
theorem Agree.left {P : α → Prop} {Q : γ → δ → Prop} {r : Outcome α} {g : α → Outcome γ} {s : Outcome δ}
    (h : r.Within F P) (hg : ∀ v, r = .ok v → P v → Agree F Q (g v) s) : Agree F Q (r >>= g) s := by
  cases r with
  | ok v => exact hg v rfl h
  | error f => exact .of_left h s

/-- A question that the right side alone asks. -/
theorem Agree.right {P : β → Prop} {Q : γ → δ → Prop} {r : Outcome γ} {s : Outcome β} {k : β → Outcome δ}
    (h : s.Within F P) (hk : ∀ w, s = .ok w → P w → Agree F Q r (k w)) : Agree F Q r (s >>= k) := by
  cases s with
  | ok w => exact hk w rfl h
  | error f => exact .of_right h r

/-- Questions with the same answer, each up to faults in `F`. -/
theorem Agree.of_within {v : α} {r s : Outcome α} (hr : r.Within F (· = v)) (hs : s.Within F (· = v)) : Agree F Eq r s := by
  cases r with
  | ok a =>
    cases s with
    | ok b => exact Eq.trans hr (Eq.symm hs)
    | error g => exact hs
  | error f => exact .of_left hr s

theorem Agree.map {R : α → β → Prop} {Q : γ → δ → Prop} {r : Outcome α} {s : Outcome β} {g : α → γ} {k : β → δ}
    (h : Agree F R r s) (hg : ∀ v w, R v w → Q (g v) (k w)) : Agree F Q (Except.map g r) (Except.map k s) := by
  cases r with
  | ok v =>
    cases s with
    | ok w => exact hg v w h
    | error f => exact h
  | error f =>
    cases s with
    | ok w => exact h
    | error g => exact h

/-- A value, and what is made of it. -/
theorem Agree.map_left {R : β → α → Prop} {r : Outcome α} {g : α → β} (h : ∀ v, R (g v) v) : Agree F R (Except.map g r) r := by
  cases r with
  | ok v => exact h v
  | error f => exact .inr (.inr rfl)

/-- What agrees when it is made of the values agrees of the values. -/
theorem Agree.of_map {R : γ → δ → Prop} {r : Outcome α} {s : Outcome β} {g : α → γ} {k : β → δ}
    (h : Agree F R (Except.map g r) (Except.map k s)) : Agree F (fun v w => R (g v) (k w)) r s := by
  cases r with
  | ok v => cases s <;> exact h
  | error f => cases s <;> exact h

/-- A choice that is made alike on both sides. -/
theorem Agree.choice {Q : γ → δ → Prop} {b : Prop} [Decidable b] {r r' : Outcome γ} {s s' : Outcome δ}
    (h : b → Agree F Q r s) (h' : ¬b → Agree F Q r' s') : Agree F Q (if b then r else r') (if b then s else s') := by
  by_cases hb : b
  · simpa only [if_pos hb] using h hb
  · simpa only [if_neg hb] using h' hb

/-- Values on both sides are related. -/
theorem Agree.of_ok {R : α → β → Prop} {r : Outcome α} {s : Outcome β} {v : α} {w : β} (h : Agree F R r s)
    (hr : r = .ok v) (hs : s = .ok w) : R v w := by
  subst hr hs
  exact h

/-- Where no fault in `F` occurs, agreement is equality. -/
theorem Agree.eq {r s : Outcome α} (h : Agree F Eq r s) (hr : ∀ f, r = .error f → ¬F f) (hs : ∀ f, s = .error f → ¬F f) :
    r = s := by
  cases r with
  | ok v =>
    cases s with
    | ok w => exact congrArg Except.ok h
    | error g => exact absurd h (hs g rfl)
  | error f =>
    cases s with
    | ok w => exact absurd h (hr f rfl)
    | error g =>
      rcases h with hf | hg | rfl
      · exact absurd hf (hr f rfl)
      · exact absurd hg (hs g rfl)
      · rfl

end Formula.Outcome
