import Formula.Preview
import Formula.Proofs.Settling

/-!
# Framed pictures

A preview is a drawn formula without its margins, in the middle of a canvas.  The rectangle that is cut out is the least
one that holds all ink, `Box.Encloses`; nothing of it is clipped by the canvas, and so a framed picture holds the ink of
the drawing, moved by one offset, with margins that depend on the look alone.  Framing it again finds the same rectangle.
-/

namespace Formula.Preview

open Outcome

/-! ### Ink -/

/-- The picture shows something else than the background at a place. -/
def Picture.HasInkAt (p : Picture) (background : Color) (x y : Nat) : Prop :=
  x < p.width ∧ y < p.height ∧ p.color x y ≠ background

/-- All ink lies in the rectangle, and there is ink at each of its sides. -/
structure Picture.Box.Encloses (box : Picture.Box) (p : Picture) (background : Color) : Prop where
  inside : ∀ x y, p.HasInkAt background x y →
    box.left ≤ x ∧ x < box.left + box.width ∧ box.top ≤ y ∧ y < box.top + box.height
  left : ∃ y, p.HasInkAt background box.left y
  right : ∃ y, p.HasInkAt background (box.left + box.width - 1) y
  top : ∃ x, p.HasInkAt background x box.top
  bottom : ∃ x, p.HasInkAt background x (box.top + box.height - 1)

/-- The rectangle that is kept of a picture: the least one that holds all ink, or the whole picture if there is none. -/
def Picture.Box.IsKept (box : Picture.Box) (p : Picture) (background : Color) : Prop :=
  box.Encloses p background ∨
    (∀ x y, ¬p.HasInkAt background x y) ∧ box = ⟨0, 0, p.width, p.height⟩

namespace Picture

variable {p : Picture} {background : Color}

theorem mem_inkColumns {x : Nat} : x ∈ p.inkColumns background ↔ ∃ y, p.HasInkAt background x y := by
  simp only [inkColumns, List.mem_filter, List.mem_range, List.any_eq_true, hasInk, bne_iff_ne, HasInkAt]
  exact ⟨fun ⟨hx, y, hy, hne⟩ => ⟨y, hx, hy, hne⟩, fun ⟨y, hx, hy, hne⟩ => ⟨hx, y, hy, hne⟩⟩

theorem mem_inkRows {y : Nat} : y ∈ p.inkRows background ↔ ∃ x, p.HasInkAt background x y := by
  simp only [inkRows, List.mem_filter, List.mem_range, List.any_eq_true, hasInk, bne_iff_ne, HasInkAt]
  exact ⟨fun ⟨hy, x, hx, hne⟩ => ⟨x, hx, hy, hne⟩, fun ⟨x, hx, hy, hne⟩ => ⟨hy, x, hx, hne⟩⟩

/-- The first and the last of increasing numbers are the least and the greatest. -/
theorem ends_of_increasing : ∀ {x : Nat} {xs : List Nat}, (x :: xs).Pairwise (· < ·) →
    (x :: xs).getLastD x ∈ x :: xs ∧ ∀ n ∈ x :: xs, x ≤ n ∧ n ≤ (x :: xs).getLastD x
  | x, [], _ => by simp
  | x, y :: xs, h => by
    obtain ⟨hx, h⟩ := List.pairwise_cons.mp h
    obtain ⟨hlast, hall⟩ := ends_of_increasing h
    have heq : (x :: y :: xs).getLastD x = (y :: xs).getLastD y := rfl
    rw [heq]
    refine ⟨List.mem_cons_of_mem _ hlast, fun n hn => ?_⟩
    rcases List.mem_cons.mp hn with rfl | hn
    · have := hx _ hlast
      omega
    · have := hx n hn
      exact ⟨by omega, (hall n hn).2⟩

theorem increasing_inkColumns : (p.inkColumns background).Pairwise (· < ·) := List.pairwise_lt_range.filter _

theorem increasing_inkRows : (p.inkRows background).Pairwise (· < ·) := List.pairwise_lt_range.filter _

/-- The box of the ink is the least rectangle that holds it. -/
theorem encloses_inkBox {box : Box} (h : p.inkBox background = some box) : box.Encloses p background := by
  unfold inkBox at h
  split at h
  · next x xs y ys hcolumns hrows =>
    cases h
    obtain ⟨hright, hx⟩ := ends_of_increasing (hcolumns ▸ @increasing_inkColumns p background)
    obtain ⟨hbottom, hy⟩ := ends_of_increasing (hrows ▸ @increasing_inkRows p background)
    have hleft : x ∈ x :: xs := List.mem_cons_self
    have htop : y ∈ y :: ys := List.mem_cons_self
    have hwidth := hx _ hright
    have hheight := hy _ hbottom
    refine ⟨fun x' y' hink => ?_, ?_, ?_, ?_, ?_⟩
    · have hx' := hx x' (hcolumns ▸ mem_inkColumns.mpr ⟨y', hink⟩)
      have hy' := hy y' (hrows ▸ mem_inkRows.mpr ⟨x', hink⟩)
      dsimp only
      omega
    · exact mem_inkColumns.mp (hcolumns ▸ hleft)
    · dsimp only
      rw [show x + ((x :: xs).getLastD x + 1 - x) - 1 = (x :: xs).getLastD x by omega]
      exact mem_inkColumns.mp (hcolumns ▸ hright)
    · exact mem_inkRows.mp (hrows ▸ htop)
    · dsimp only
      rw [show y + ((y :: ys).getLastD y + 1 - y) - 1 = (y :: ys).getLastD y by omega]
      exact mem_inkRows.mp (hrows ▸ hbottom)
  · cases h

theorem inkBox_eq_none (h : p.inkBox background = none) : ∀ x y, ¬p.HasInkAt background x y := by
  intro x y hink
  obtain ⟨x', xs, hcolumns⟩ := List.exists_cons_of_ne_nil (List.ne_nil_of_mem (mem_inkColumns.mpr ⟨y, hink⟩))
  obtain ⟨y', ys, hrows⟩ := List.exists_cons_of_ne_nil (List.ne_nil_of_mem (mem_inkRows.mpr ⟨x, hink⟩))
  unfold inkBox at h
  rw [hcolumns, hrows] at h
  cases h

/-- There is one least rectangle only. -/
theorem Box.Encloses.unique {box box' : Box} (h : box.Encloses p background) (h' : box'.Encloses p background) :
    box = box' := by
  obtain ⟨y₁, hleft⟩ := h.left
  obtain ⟨y₂, hleft'⟩ := h'.left
  obtain ⟨y₃, hright⟩ := h.right
  obtain ⟨y₄, hright'⟩ := h'.right
  obtain ⟨x₁, htop⟩ := h.top
  obtain ⟨x₂, htop'⟩ := h'.top
  obtain ⟨x₃, hbottom⟩ := h.bottom
  obtain ⟨x₄, hbottom'⟩ := h'.bottom
  have h1 := h.inside _ _ hleft'
  have h2 := h'.inside _ _ hleft
  have h3 := h.inside _ _ hright'
  have h4 := h'.inside _ _ hright
  have h5 := h.inside _ _ htop'
  have h6 := h'.inside _ _ htop
  have h7 := h.inside _ _ hbottom'
  have h8 := h'.inside _ _ hbottom
  cases box
  cases box'
  simp only [Box.mk.injEq] at *
  omega

theorem Box.IsKept.unique {box box' : Box} (h : box.IsKept p background) (h' : box'.IsKept p background) : box = box' := by
  rcases h with h | ⟨hnone, rfl⟩ <;> rcases h' with h' | ⟨hnone', rfl⟩
  · exact h.unique h'
  · obtain ⟨y, hink⟩ := h.left
    exact absurd hink (hnone' _ _)
  · obtain ⟨y, hink⟩ := h'.left
    exact absurd hink (hnone _ _)
  · rfl

/-- There is always a rectangle that is kept. -/
theorem exists_kept (p : Picture) (background : Color) : ∃ box : Box, box.IsKept p background := by
  cases h : p.inkBox background with
  | some box => exact ⟨box, .inl (encloses_inkBox h)⟩
  | none => exact ⟨_, .inr ⟨inkBox_eq_none h, rfl⟩⟩

/-- The margins are cut off around the rectangle that is kept. -/
theorem Box.IsKept.trim {box : Box} (h : box.IsKept p background) :
    (p.trim background).width = box.width ∧ (p.trim background).height = box.height ∧
      ∀ x y, (p.trim background).color x y = p.color (box.left + x) (box.top + y) := by
  unfold Picture.trim
  cases hbox : p.inkBox background with
  | some box' =>
    obtain rfl := h.unique (.inl (encloses_inkBox hbox))
    exact ⟨rfl, rfl, fun _ _ => rfl⟩
  | none =>
    obtain rfl := h.unique (.inr ⟨inkBox_eq_none hbox, rfl⟩)
    exact ⟨rfl, rfl, fun x y => by simp only [Nat.zero_add]⟩

/-- What is kept has pixels, and all of them are pixels of the picture. -/
theorem Box.IsKept.within {box : Box} (h : box.IsKept p background) (hwidth : 0 < p.width) (hheight : 0 < p.height) :
    0 < box.width ∧ 0 < box.height ∧ box.left + box.width ≤ p.width ∧ box.top + box.height ≤ p.height := by
  rcases h with h | ⟨-, rfl⟩
  · obtain ⟨y₁, hleft⟩ := h.left
    obtain ⟨y₂, hright⟩ := h.right
    obtain ⟨x₁, hbottom⟩ := h.bottom
    have h1 := h.inside _ _ hleft
    have h2 := hright.1
    have h3 := hbottom.2.1
    omega
  · exact ⟨hwidth, hheight, by simp, by simp⟩

theorem Box.IsKept.inside {box : Box} (h : box.IsKept p background) {x y : Nat} (hink : p.HasInkAt background x y) :
    box.left ≤ x ∧ x < box.left + box.width ∧ box.top ≤ y ∧ y < box.top + box.height := by
  rcases h with h | ⟨h, -⟩
  · exact h.inside x y hink
  · exact absurd hink (h x y)

end Picture

/-! ### Framing -/

/-- The empty canvas with the kept part of a drawing on it. -/
def framed (drawn : Picture) (background : Color) (box : Picture.Box) (width padding : Nat) : Picture :=
  (Picture.plain width (box.height + 2 * padding) background).paste (drawn.trim background)
    ((width - box.width) / 2 : Nat) padding

section

variable {look : Look} {background : Color}

/-- A canvas of a known color is refused for its sides only. -/
theorem canvas_eq {d : Datum} (hbackground : Color.ofDatum d = .ok background) (columns rows : Nat) :
    canvas (.int columns) (.int rows) d =
      (sides (.int columns) (.int rows)).map fun size => .plain size.1 size.2 background := by
  have hsign : ∀ n : Nat, checkSign (.int n) = .ok () := fun n => by
    unfold checkSign
    rw [show (Datum.int n).isBelow 0 = .ok false from congrArg Except.ok (decide_eq_false (by omega))]
    rfl
  unfold canvas
  rw [hsign, hsign]
  generalize sides (.int columns) (.int rows) = size
  cases d with
  | text name =>
    obtain ⟨parts, hparts, hcolor⟩ := bind_eq_ok.mp hbackground
    dsimp only
    rw [hparts]
    cases size with
    | error f => rfl
    | ok size =>
      show (parts.toColor >>= fun color => Except.ok (Picture.plain size.1 size.2 color)) = _
      rw [hcolor]
      rfl
  | _ =>
    dsimp only
    rw [hbackground]
    cases size <;> rfl

theorem sides_eq_ok {columns rows : Nat} {size : Nat × Nat} :
    sides (.int columns) (.int rows) = .ok size ↔
      columns ≤ longestRow ∧ rows < Number.twoTo 31 ∧ size = (columns, rows) := by
  have hlongest : longestRow < Number.twoTo 31 := by decide
  have hside : ∀ n : Nat, side (.int n) = if n < Number.twoTo 31 then .ok n else .error .sizeTooLarge := fun n => by
    simp only [side, Int.ofNat_lt, Int.toNat_natCast]
  unfold sides
  rw [hside, hside]
  by_cases hcolumns : columns < Number.twoTo 31
  · by_cases hrows : rows < Number.twoTo 31
    · rw [if_pos hcolumns, if_pos hrows]
      by_cases hlong : longestRow < columns
      · exact iff_of_false (fun h => by simp [hlong, Bind.bind, Except.bind] at h) fun h => by omega
      · simp only [Bind.bind, Except.bind, if_neg hlong, Pure.pure, Except.pure, Except.ok.injEq]
        exact ⟨fun h => ⟨by omega, hrows, h.symm⟩, fun h => h.2.2.symm⟩
    · rw [if_pos hcolumns, if_neg hrows]
      exact iff_of_false (fun h => by cases h) fun h => hrows h.2.1
  · rw [if_neg hcolumns]
    exact iff_of_false (fun h => by cases h) fun h => by omega

variable {padding width : Nat}

/-- Without round corners a picture is finished. -/
theorem finish_plain (hradius : look.borderRadius.isVoid = true) {p : Picture} (hp : 0 < p.width) (hp' : 0 < p.height) :
    finish look p = .ok p := by
  unfold finish
  rw [if_pos hradius, if_neg (by omega)]
  rfl

/-- The kept part of the drawing is put on a canvas of the background. -/
theorem frame_kept {drawn : Picture} (hpadding : look.padding = .int padding) (hwidth : look.imageWidth = .int width)
    (hbackground : Color.ofDatum look.background = .ok background) {box : Picture.Box} (hbox : box.IsKept drawn background) :
    frame look drawn =
      (canvas (.int (max width box.width : Nat)) (.int (box.height + 2 * padding : Nat)) look.background >>= fun empty =>
        finish look (empty.paste (drawn.trim background) ((empty.width - box.width) / 2 : Nat) padding)) := by
  obtain ⟨hinkWidth, hinkHeight, -⟩ := hbox.trim
  have hbelow : look.imageWidth.isBelow box.width = .ok (decide (width < box.width)) := by
    rw [hwidth]
    exact congrArg Except.ok (decide_eq_decide.mpr Int.ofNat_lt)
  have hside : (if decide (width < box.width) = true then Datum.int box.width else look.imageWidth) =
      .int (max width box.width : Nat) := by
    rw [hwidth]
    by_cases hlt : width < box.width
    · rw [if_pos (decide_eq_true hlt), Nat.max_eq_right (Nat.le_of_lt hlt)]
    · rw [if_neg (by rwa [decide_eq_true_eq]), Nat.max_eq_left (Nat.le_of_not_lt hlt)]
  have hmargins : margins look = .ok (.int (2 * padding)) := by
    unfold margins
    rw [hpadding]
    rfl
  have hheight : plus box.height (.int (2 * padding)) = .ok (.int (box.height + 2 * padding : Nat)) := by
    exact congrArg (fun n => Except.ok (Datum.int n)) (by simp)
  have hplaced : look.padding.toWhole = .ok padding := by
    rw [hpadding]
    rfl
  unfold frame
  rw [hbackground]
  dsimp only [Bind.bind, Except.bind]
  rw [hinkWidth, hbelow]
  dsimp only
  rw [hside, hmargins, hinkHeight]
  dsimp only
  rw [hheight, hplaced]

/-- A drawing is framed if the sides are within the limits of the pictures, and then in one way. -/
theorem frame_eq_ok {drawn : Picture} (hpadding : look.padding = .int padding) (hwidth : look.imageWidth = .int width)
    (hradius : look.borderRadius.isVoid = true) (hbackground : Color.ofDatum look.background = .ok background)
    {box : Picture.Box} (hbox : box.IsKept drawn background) (hdrawn : 0 < drawn.width ∧ 0 < drawn.height) {r : Picture} :
    frame look drawn = .ok r ↔ max width box.width ≤ longestRow ∧ box.height + 2 * padding < Number.twoTo 31 ∧
      r = framed drawn background box (max width box.width) padding := by
  obtain ⟨hpositive, hpositive', -⟩ := hbox.within hdrawn.1 hdrawn.2
  have hfinish : finish look (framed drawn background box (max width box.width) padding) =
      .ok (framed drawn background box (max width box.width) padding) :=
    finish_plain hradius (show 0 < max width box.width by omega) (show 0 < box.height + 2 * padding by omega)
  rw [frame_kept hpadding hwidth hbackground hbox, canvas_eq hbackground, bind_eq_ok]
  constructor
  · rintro ⟨empty, hempty, hfinished⟩
    obtain ⟨size, hsize, rfl⟩ := map_eq_ok.mp hempty
    obtain ⟨hlong, hhigh, rfl⟩ := sides_eq_ok.mp hsize
    exact ⟨hlong, hhigh, (Except.ok.inj (hfinish.symm.trans hfinished)).symm⟩
  · rintro ⟨hlong, hhigh, rfl⟩
    exact ⟨_, map_eq_ok.mpr ⟨_, sides_eq_ok.mpr ⟨hlong, hhigh, rfl⟩, rfl⟩, hfinish⟩

/-! ### What is framed -/

/-- The kept part of the drawing stands in the middle of the background. -/
theorem color_framed {drawn : Picture} {box : Picture.Box} (hbox : box.IsKept drawn background) (x y : Nat) :
    (framed drawn background box width padding).color x y =
      if (width - box.width) / 2 ≤ x ∧ x < (width - box.width) / 2 + box.width ∧ padding ≤ y ∧ y < padding + box.height then
        drawn.color (box.left + (x - (width - box.width) / 2)) (box.top + (y - padding))
      else background := by
  obtain ⟨hinkWidth, hinkHeight, hcolor⟩ := hbox.trim
  unfold framed Picture.paste
  dsimp only
  rw [hinkWidth, hinkHeight, hcolor]
  by_cases hinside : (width - box.width) / 2 ≤ x ∧ x < (width - box.width) / 2 + box.width ∧ padding ≤ y ∧ y < padding + box.height
  · rw [if_pos (by omega), if_pos hinside]
    congr 1 <;> omega
  · rw [if_neg (by omega), if_neg hinside]
    rfl

/-- A framed picture shows the ink of the drawing, moved by the distance of the rectangle that is kept. -/
theorem hasInkAt_framed {drawn : Picture} {box : Picture.Box} (hbox : box.IsKept drawn background) (hwidth : box.width ≤ width)
    (hdrawn : 0 < drawn.width ∧ 0 < drawn.height) (x y : Nat) :
    (framed drawn background box width padding).HasInkAt background x y ↔ ∃ x' y', drawn.HasInkAt background x' y' ∧
      x + box.left = x' + (width - box.width) / 2 ∧ y + box.top = y' + padding := by
  obtain ⟨-, -, hright, hbottom⟩ := hbox.within hdrawn.1 hdrawn.2
  constructor
  · rintro ⟨hx, hy, hcolor⟩
    rw [color_framed hbox] at hcolor
    split at hcolor
    · next hinside =>
      exact ⟨_, _, ⟨by omega, by omega, hcolor⟩, by omega, by omega⟩
    · exact absurd rfl hcolor
  · rintro ⟨x', y', hink, hx, hy⟩
    have hinside := hbox.inside hink
    refine ⟨show x < width by omega, show y < box.height + 2 * padding by omega, ?_⟩
    rw [color_framed hbox, if_pos (by omega)]
    rw [show box.left + (x - (width - box.width) / 2) = x' by omega, show box.top + (y - padding) = y' by omega]
    exact hink.2.2

/-- In a framed picture the same rectangle is kept, at its new place. -/
theorem encloses_framed {drawn : Picture} {box : Picture.Box} (hbox : box.Encloses drawn background) (hwidth : box.width ≤ width)
    (hdrawn : 0 < drawn.width ∧ 0 < drawn.height) :
    Picture.Box.Encloses ⟨(width - box.width) / 2, padding, box.width, box.height⟩ (framed drawn background box width padding)
      background := by
  have hmoved := @hasInkAt_framed background padding width drawn box (.inl hbox) hwidth hdrawn
  obtain ⟨hpositive, hpositive', -, -⟩ := Picture.Box.IsKept.within (.inl hbox) hdrawn.1 hdrawn.2
  refine ⟨fun x y hink => ?_, ?_, ?_, ?_, ?_⟩
  · obtain ⟨x', y', hink, hx, hy⟩ := (hmoved x y).mp hink
    have := hbox.inside x' y' hink
    dsimp only
    omega
  · obtain ⟨y', hink⟩ := hbox.left
    have := hbox.inside _ _ hink
    exact ⟨y' + padding - box.top, (hmoved _ _).mpr ⟨_, y', hink, by dsimp only; omega, by omega⟩⟩
  · obtain ⟨y', hink⟩ := hbox.right
    have := hbox.inside _ _ hink
    exact ⟨y' + padding - box.top, (hmoved _ _).mpr ⟨_, y', hink, by dsimp only; omega, by omega⟩⟩
  · obtain ⟨x', hink⟩ := hbox.top
    have := hbox.inside _ _ hink
    exact ⟨x' + (width - box.width) / 2 - box.left, (hmoved _ _).mpr ⟨x', _, hink, by omega, by dsimp only; omega⟩⟩
  · obtain ⟨x', hink⟩ := hbox.bottom
    have := hbox.inside _ _ hink
    exact ⟨x' + (width - box.width) / 2 - box.left, (hmoved _ _).mpr ⟨x', _, hink, by omega, by dsimp only; omega⟩⟩

/-- A framed picture with ink is framed as itself. -/
theorem framed_framed {drawn : Picture} {box : Picture.Box} (hbox : box.Encloses drawn background) (hwidth : box.width ≤ width)
    (hdrawn : 0 < drawn.width ∧ 0 < drawn.height) :
    framed (framed drawn background box width padding) background ⟨(width - box.width) / 2, padding, box.width, box.height⟩
      width padding = framed drawn background box width padding := by
  have hkept : Picture.Box.IsKept ⟨(width - box.width) / 2, padding, box.width, box.height⟩
      (framed drawn background box width padding) background := .inl (encloses_framed hbox hwidth hdrawn)
  have hcolor : (framed (framed drawn background box width padding) background
      ⟨(width - box.width) / 2, padding, box.width, box.height⟩ width padding).color =
        (framed drawn background box width padding).color := by
    funext x y
    rw [color_framed hkept]
    dsimp only
    split
    · next hinside =>
      rw [show (width - box.width) / 2 + (x - (width - box.width) / 2) = x by omega,
        show padding + (y - padding) = y by omega]
    · next hinside =>
      rw [color_framed (.inl hbox), if_neg hinside]
  exact congrArg (fun color => (⟨width, box.height + 2 * padding, color, none⟩ : Picture)) hcolor

/-- **A frame loses no ink and centres it.**  For every drawing with pixels and every look with a padding, a width, a color
that is known and no round corners: the drawing is framed if the sides stay within the limits of the pictures, and then the
picture has the width of the look, or that of the ink if it is wider, and the height of the ink with the padding twice.  Its
ink is that of the drawing, moved by one offset and of the same colors; above and below it there is just the padding, and
left and right of it there is the same space but for a pixel.  If there is ink, framing the picture again changes nothing. -/
theorem frame_centres {drawn : Picture} (hpadding : look.padding = .int padding) (hwidth : look.imageWidth = .int width)
    (hradius : look.borderRadius.isVoid = true) (hbackground : Color.ofDatum look.background = .ok background)
    (hdrawn : 0 < drawn.width ∧ 0 < drawn.height) :
    ∃ box : Picture.Box, box.IsKept drawn background ∧
      ((∃ r, frame look drawn = .ok r) ↔
        max width box.width ≤ longestRow ∧ box.height + 2 * padding < Number.twoTo 31) ∧
      ∀ r, frame look drawn = .ok r →
        r.width = max width box.width ∧ r.height = box.height + 2 * padding ∧ r.mask = none ∧
        (∃ across down : Int,
          (∀ x y : Nat, r.HasInkAt background x y ↔
            ∃ x' y' : Nat, drawn.HasInkAt background x' y' ∧ (x : Int) = x' + across ∧ (y : Int) = y' + down) ∧
          (∀ x y x' y' : Nat, drawn.HasInkAt background x' y' → (x : Int) = x' + across → (y : Int) = y' + down →
            r.color x y = drawn.color x' y') ∧
          box.top + down = padding ∧ r.height - (box.top + down + box.height) = padding ∧
          0 ≤ box.left + across ∧ box.left + across ≤ r.width - (box.left + across + box.width) ∧
          r.width - (box.left + across + box.width) ≤ box.left + across + 1) ∧
        ((∃ x y, drawn.HasInkAt background x y) → frame look r = .ok r) := by
  obtain ⟨box, hbox⟩ := drawn.exists_kept background
  have hframe := fun r => @frame_eq_ok look background padding width drawn hpadding hwidth hradius hbackground box hbox hdrawn r
  obtain ⟨hpositive, hpositive', -, -⟩ := hbox.within hdrawn.1 hdrawn.2
  refine ⟨box, hbox, ?_, fun r hr => ?_⟩
  · constructor
    · rintro ⟨r, hr⟩
      exact ⟨((hframe r).mp hr).1, ((hframe r).mp hr).2.1⟩
    · rintro ⟨hlong, hhigh⟩
      exact ⟨_, (hframe _).mpr ⟨hlong, hhigh, rfl⟩⟩
  obtain ⟨hlong, hhigh, rfl⟩ := (hframe r).mp hr
  have hle : box.width ≤ max width box.width := Nat.le_max_right _ _
  refine ⟨rfl, rfl, rfl, ⟨((max width box.width - box.width) / 2 : Nat) - box.left, padding - box.top, fun x y => ?_, ?_, ?_⟩, ?_⟩
  · rw [hasInkAt_framed hbox hle hdrawn]
    refine exists_congr fun x' => exists_congr fun y' => and_congr_right fun _ => ?_
    omega
  · intro x y x' y' hink hx hy
    have hinside := hbox.inside hink
    rw [color_framed hbox, if_pos (by omega)]
    rw [show box.left + (x - (max width box.width - box.width) / 2) = x' by omega,
      show box.top + (y - padding) = y' by omega]
  · have hwidth : (framed drawn background box (max width box.width) padding).width = max width box.width := rfl
    have hheight : (framed drawn background box (max width box.width) padding).height = box.height + 2 * padding := rfl
    rw [hwidth, hheight]
    omega
  · rintro ⟨x, y, hink⟩
    have henclosed : box.Encloses drawn background := hbox.resolve_right fun h => h.1 x y hink
    have hkept : Picture.Box.IsKept ⟨(max width box.width - box.width) / 2, padding, box.width, box.height⟩
        (framed drawn background box (max width box.width) padding) background := .inl (encloses_framed henclosed hle hdrawn)
    refine (frame_eq_ok hpadding hwidth hradius hbackground hkept ⟨show 0 < max width box.width by omega,
      show 0 < box.height + 2 * padding by omega⟩).mpr ⟨hlong, hhigh, ?_⟩
    exact (framed_framed henclosed hle hdrawn).symm

/-- A dot in the lower row of a picture, on a canvas that is wider. -/
theorem frame_centres_dot :
    ∃ dot r : Picture, dot.width = 3 ∧ dot.height = 2 ∧
      frame { padding := .int 1, imageWidth := .int 4 } dot = .ok r ∧ r.width = 4 ∧ r.height = 3 ∧
      frame { padding := .int 1, imageWidth := .int 4 } r = .ok r := by
  let white : Color := ⟨255, 255, 255⟩
  let dot : Picture := .ofRows #[#[white, white, white], #[white, ⟨0, 0, 0⟩, white]]
  have hwhite : Color.ofDatum "white" = .ok white := eq_ok_of_toOption (by decide +kernel)
  have hdot : Picture.Box.Encloses ⟨1, 1, 1, 1⟩ dot white := Picture.encloses_inkBox (by decide +kernel)
  obtain ⟨box, hbox, hlimits, hframed⟩ := @frame_centres { padding := .int 1, imageWidth := .int 4 } white 1 4 dot rfl rfl rfl hwhite
    ⟨by decide, by decide⟩
  obtain rfl := hbox.unique (.inl hdot)
  obtain ⟨r, hr⟩ := hlimits.mpr ⟨by decide, by decide⟩
  obtain ⟨hwidth, hheight, -, -, hagain⟩ := hframed r hr
  obtain ⟨y, hink⟩ := hdot.left
  exact ⟨dot, r, rfl, rfl, hr, hwidth, hheight, hagain ⟨_, y, hink⟩⟩

end

end Formula.Preview
