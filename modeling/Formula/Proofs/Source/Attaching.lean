import Formula.Proofs.Format.Written
import Formula.Proofs.Reader.Total

/-!
# Scripts and the atoms they are attached to

The reader of sources attaches a script to the atom in front of it.  Where that atom takes no scripts, or has one of the
kind already, a placeholder is put behind it to carry the script.  A row is attached if no placeholder stands in it, at any
depth.

Texts are followed by whether what they spell is attached, and by the places for scripts that their last atom has left.  What
a script makes of a text hangs on nothing else.
-/

namespace Formula

open Number Text Atom

/-! ### Rows without placeholders -/

namespace Atom

/-- No placeholder stands in the row, at any depth. -/
def Attached (row : List Atom) : Prop := ∀ a, Inside row a → a.isPlaceholder = false

/-- What is inside of an atom is inside of the row that the atom is in. -/
theorem Inside.trans {row : List Atom} {b : Atom} (hb : Inside row b) {field : Option (List Atom)} (hfield : field ∈ b.fields)
    {a : Atom} (ha : Inside (field.getD []) a) : Inside row a := by
  induction ha with
  | here hmem => exact .deeper hb hfield hmem
  | deeper _ hfield' hmem ih => exact .deeper ih hfield' hmem

theorem inside_iff {row : List Atom} {a : Atom} :
    Inside row a ↔ a ∈ row ∨ ∃ b ∈ row, ∃ field ∈ b.fields, Inside (field.getD []) a := by
  constructor
  · intro ha
    induction ha with
    | here hmem => exact .inl hmem
    | deeper _ hfield hmem ih =>
      rcases ih with hb | ⟨d, hd, outer, houter, hinside⟩
      · exact .inr ⟨_, hb, _, hfield, .here hmem⟩
      · exact .inr ⟨d, hd, outer, houter, .deeper hinside hfield hmem⟩
  · rintro (hmem | ⟨b, hb, field, hfield, hinside⟩)
    · exact .here hmem
    · exact Inside.trans (.here hb) hfield hinside

theorem attached_iff {row : List Atom} :
    Attached row ↔ ∀ a ∈ row, a.isPlaceholder = false ∧ ∀ field ∈ a.fields, Attached (field.getD []) := by
  constructor
  · intro h a ha
    exact ⟨h a (.here ha), fun field hfield b hb => h b (Inside.trans (.here ha) hfield hb)⟩
  · intro h b hb
    rcases inside_iff.mp hb with hmem | ⟨a, ha, field, hfield, hinside⟩
    · exact (h b hmem).1
    · exact (h a ha).2 field hfield b hinside

theorem attached_nil : Attached [] := attached_iff.mpr fun _ ha => by cases ha

theorem attached_append {row row' : List Atom} : Attached (row ++ row') ↔ Attached row ∧ Attached row' := by
  rw [attached_iff, attached_iff, attached_iff, List.forall_mem_append]

theorem attached_singleton {a : Atom} :
    Attached [a] ↔ a.isPlaceholder = false ∧ ∀ field ∈ a.fields, Attached (field.getD []) := by
  rw [attached_iff, List.forall_mem_singleton]

/-- The atom has nothing inside and is no placeholder. -/
def isLeaf (a : Atom) : Bool := !a.isPlaceholder && a.fields.all (·.isNone)

theorem attached_leaf {a : Atom} (h : a.isLeaf = true) : Attached [a] := by
  simp only [isLeaf, Bool.and_eq_true, Bool.not_eq_true', List.all_eq_true, Option.isNone_iff_eq_none] at h
  refine attached_singleton.mpr ⟨h.1, fun field hfield => ?_⟩
  rw [h.2 field hfield]
  exact attached_nil

theorem attached_fraction {numerator denominator : List Atom} :
    Attached [Source.fractionAtom numerator denominator] ↔ Attached numerator ∧ Attached denominator := by
  rw [attached_singleton]
  simp [Source.fractionAtom, fields, attached_nil, isPlaceholder]

theorem attached_radical {body : List Atom} : Attached [Source.radicalAtom body] ↔ Attached body := by
  rw [attached_singleton]
  simp [Source.radicalAtom, fields, attached_nil, isPlaceholder]

theorem attached_font {command font : String} {body : List Atom} :
    Attached [Source.fontAtom command font body] ↔ Attached body := by
  rw [attached_singleton]
  simp [Source.fontAtom, fields, attached_nil, isPlaceholder]

theorem attached_fenced {left right : String} {body : List Atom} :
    Attached [Source.fencedAtom left right body] ↔ Attached body := by
  rw [attached_singleton]
  simp [Source.fencedAtom, fields, attached_nil, isPlaceholder]

end Atom

namespace Source

/-- **A script is attached if the atom in front takes it.** -/
theorem Script.attached_attach (kind : Script) (a : Atom) (script : List Atom) :
    Attached (kind.attach [a] script).reverse ↔ Attached [a] ∧ Attached script ∧ kind.Fits a := by
  by_cases hfits : kind.Fits a
  · have hfields : (∀ field ∈ (kind.set a script).fields, Attached (field.getD [])) ↔
        (∀ field ∈ a.fields, Attached (field.getD [])) ∧ Attached script := by
      cases kind with
      | super =>
        have hnone : a.superscript = none := hfits.1
        simp only [Script.set, fields, hnone, List.forall_mem_cons, Option.getD_some, Option.getD_none, attached_nil,
          true_and]
        exact and_comm
      | sub =>
        have hnone : a.subscript = none := hfits.1
        simp only [Script.set, fields, hnone, List.forall_mem_cons, Option.getD_some, Option.getD_none, attached_nil,
          true_and]
        exact ⟨fun h => ⟨⟨h.1, h.2.2⟩, h.2.1⟩, fun h => ⟨h.1.1, h.2, h.1.2⟩⟩
    have hplaceholder : (kind.set a script).isPlaceholder = a.isPlaceholder := by cases kind <;> rfl
    rw [Script.attach_of_fits hfits, List.reverse_singleton, attached_singleton, attached_singleton, hfields,
      hplaceholder]
    exact ⟨fun h => ⟨⟨h.1, h.2.1⟩, h.2.2, hfits⟩, fun h => ⟨h.1.1, h.1.2, h.2.1⟩⟩
  · refine iff_of_false (fun h => ?_) fun h => hfits h.2.2
    have hplaceholder : (kind.set { type := .ordinary, value := zeroWidth } script).isPlaceholder = true := by
      cases kind <;> rfl
    rw [Script.attach_of_not_fits hfits] at h
    have hnone := h _ (.here (List.mem_reverse.mpr List.mem_cons_self))
    rw [hplaceholder] at hnone
    cases hnone

/-! ### Texts -/

/-- The text spells a row, where no letter follows, that is attached if and only if the condition holds. -/
def SpellsAttached (s : String) (p : Prop) : Prop := ∃ row, SpellsBefore .builtin s row ∧ (Attached row ↔ p)

/-- The same, and under the condition the last atom of the row takes scripts of these kinds. -/
def EndsFree (s : String) (p : Prop) (free : Script → Prop) : Prop :=
  ∃ row a, SpellsBefore .builtin s (row ++ [a]) ∧ (Attached (row ++ [a]) ↔ p) ∧ ∀ kind : Script, p → (kind.Fits a ↔ free kind)

variable {s t : String} {p q : Prop} {free : Script → Prop} {row : List Atom} {a : Atom}

theorem spellsAttached_empty : SpellsAttached "" True :=
  ⟨[], Spells.before ⟨[], Token.Scans.nil, Yields.nil⟩, iff_of_true attached_nil trivial⟩

namespace SpellsAttached

theorem atoms (h : SpellsAttached s p) : ∃ row, Source.atoms .builtin s = .ok row ∧ (Attached row ↔ p) := by
  obtain ⟨row, hspells, hattached⟩ := h
  exact ⟨row, hspells.atoms, hattached⟩

theorem congr (h : SpellsAttached s p) (hpq : p ↔ q) : SpellsAttached s q := by
  obtain ⟨row, hspells, hattached⟩ := h
  exact ⟨row, hspells, hattached.trans hpq⟩

theorem append (h : SpellsAttached s p) (h' : SpellsAttached t q) (ht : StartsApart t) : SpellsAttached (s ++ t) (p ∧ q) := by
  obtain ⟨row, hspells, hattached⟩ := h
  obtain ⟨row', hspells', hattached'⟩ := h'
  exact ⟨_, hspells.append_before hspells' ht, attached_append.trans (and_congr hattached hattached')⟩

/-- A piece of its own in front. -/
theorem behind (h : SpellsAttached t q) (hspells : Spells .builtin s row) (hrow : Attached row) : SpellsAttached (s ++ t) q := by
  obtain ⟨row', hspells', hattached⟩ := h
  exact ⟨_, hspells.append_before hspells', attached_append.trans (and_iff_right hrow |>.trans hattached)⟩

/-- A text behind a blank, which ends the name of a command. -/
theorem spaced (h : SpellsAttached s p) (h' : SpellsAttached t q) : SpellsAttached (s ++ " " ++ t) (p ∧ q) := by
  obtain ⟨row, hspells, hattached⟩ := h
  obtain ⟨row', hspells', hattached'⟩ := h'
  refine ⟨_, (hspells.append spells_blank ⟨' ', [], rfl, by decide⟩).append_before hspells', ?_⟩
  rw [List.append_nil, attached_append, hattached, hattached']

end SpellsAttached

/-- One atom without scripts of its own. -/
theorem endsFree_single (hspells : SpellsBefore .builtin s [a]) (hattached : Attached [a] ↔ p) (htype : a.type ∉ Script.refused)
    (hsup : a.superscript = none) (hsub : a.subscript = none) : EndsFree s p fun _ => True := by
  refine ⟨[], a, hspells, hattached, fun kind _ => iff_of_true ⟨?_, htype⟩ trivial⟩
  cases kind
  · exact hsup
  · exact hsub

namespace SpellsAttached

theorem fraction (h : SpellsAttached s p) (h' : SpellsAttached t q) :
    EndsFree ("\\frac" ++ Expr.braced s ++ Expr.braced t) (p ∧ q) fun _ => True := by
  obtain ⟨numerator, hspells, hattached⟩ := h
  obtain ⟨denominator, hspells', hattached'⟩ := h'
  exact endsFree_single (hspells.fraction hspells').before (attached_fraction.trans (and_congr hattached hattached'))
    (show AtomType.fraction ∉ Script.refused by decide) rfl rfl

theorem radical (h : SpellsAttached s p) : EndsFree ("\\sqrt" ++ Expr.braced s) p fun _ => True := by
  obtain ⟨body, hspells, hattached⟩ := h
  exact endsFree_single hspells.radical.before (attached_radical.trans hattached)
    (show AtomType.radical ∉ Script.refused by decide) rfl rfl

theorem font {name font : String} (hfont : ("\\" ++ name, font) ∈ fonts) (h : SpellsAttached s p) :
    EndsFree ("\\" ++ name ++ Expr.braced s) p fun _ => True := by
  obtain ⟨body, hspells, hattached⟩ := h
  exact endsFree_single (hspells.font hfont).before (attached_font.trans hattached)
    (show AtomType.font ∉ Script.refused by decide) rfl rfl

theorem around (h : SpellsAttached s p) (f : Enclosure) : EndsFree (f.around s) p fun _ => True := by
  obtain ⟨body, hspells, hattached⟩ := h
  exact endsFree_single (f.spells_around hspells).before (attached_fenced.trans hattached)
    (show AtomType.fenced ∉ Script.refused by decide) rfl rfl

/-- Parentheses close what stands in them: both places behind them are free. -/
theorem parenthesized (h : SpellsAttached s p) : EndsFree (Expr.parenthesized s) p fun _ => True := by
  obtain ⟨row, hspells, hattached⟩ := h
  have hopening : Attached [openingAtom] := attached_leaf rfl
  have hclosing : Attached [closingAtom] := attached_leaf rfl
  refine ⟨_, closingAtom, (spells_parenthesized hspells).before, ?_, fun kind _ => ?_⟩
  · rw [attached_append, attached_append, and_iff_right hopening, and_iff_left hclosing, hattached]
  · cases kind <;> exact iff_of_true ⟨rfl, by decide⟩ trivial

end SpellsAttached

namespace EndsFree

theorem spellsAttached (h : EndsFree s p free) : SpellsAttached s p := by
  obtain ⟨row, a, hspells, hattached, -⟩ := h
  exact ⟨_, hspells, hattached⟩

theorem congr {free' : Script → Prop} (h : EndsFree s p free) (hpq : p ↔ q) (hfree : ∀ kind, q → (free kind ↔ free' kind)) :
    EndsFree s q free' := by
  obtain ⟨row, a, hspells, hattached, hkinds⟩ := h
  exact ⟨row, a, hspells, hattached.trans hpq, fun kind hq => (hkinds kind (hpq.mpr hq)).trans (hfree kind hq)⟩

/-- A text that the last piece is put behind. -/
theorem append (h : SpellsAttached s p) (h' : EndsFree t q free) (ht : StartsApart t) : EndsFree (s ++ t) (p ∧ q) free := by
  obtain ⟨row, hspells, hattached⟩ := h
  obtain ⟨row', a, hspells', hattached', hkinds⟩ := h'
  have hall := hspells.append_before hspells' ht
  have hiff : Attached (row ++ (row' ++ [a])) ↔ p ∧ q := attached_append.trans (and_congr hattached hattached')
  rw [← List.append_assoc] at hall hiff
  exact ⟨_, a, hall, hiff, fun kind hpq => hkinds kind hpq.2⟩

/-- A blank is no part of the row. -/
theorem blank (h : EndsFree s p free) : EndsFree (s ++ " ") p free := by
  obtain ⟨row, a, hspells, hattached, hkinds⟩ := h
  have hall := hspells.append spells_blank ⟨' ', [], rfl, by decide⟩
  rw [List.append_nil] at hall
  exact ⟨row, a, hall.before, hattached, hkinds⟩

/-- **A script behind a text**: it has to be attached itself, and its place has to be free. -/
theorem script (kind : Script) (h : EndsFree s p free) (h' : SpellsAttached t q) :
    EndsFree (s ++ (kind.sign ++ Expr.braced t)) (p ∧ q ∧ free kind) fun k => k ≠ kind ∧ free k := by
  obtain ⟨row, a, hspells, hattached, hkinds⟩ := h
  obtain ⟨script, hspells', hattached'⟩ := h'
  have hall := hspells.attach kind hspells'
  have hiff : Attached (row ++ (kind.attach [a] script).reverse) ↔ p ∧ q ∧ free kind := by
    rw [attached_append, kind.attached_attach a script, hattached', ← and_assoc, ← attached_append, hattached]
    exact and_congr_right fun hp => and_congr_right fun _ => hkinds kind hp
  -- The last atom carries the script, or else a placeholder, which is not attached, is the last one now.
  by_cases hfits : kind.Fits a
  · rw [Script.attach_of_fits hfits, List.reverse_singleton] at hall hiff
    refine ⟨row, kind.set a script, hall.before, hiff, fun k hp => ?_⟩
    by_cases hk : k = kind
    · refine iff_of_false ?_ fun h => h.1 hk
      rw [hk]
      cases kind <;> exact fun h => by cases h.1
    · have hothers : k.Fits (kind.set a script) ↔ k.Fits a := by
        cases k <;> cases kind <;> first | exact Iff.rfl | exact absurd rfl hk
      rw [hothers, hkinds k hp.1]
      exact (and_iff_right hk).symm
  · have hplaceholder : (kind.attach [a] script).reverse =
        [a] ++ [kind.set { type := .ordinary, value := zeroWidth } script] := by
      rw [Script.attach_of_not_fits hfits]
      rfl
    rw [hplaceholder, ← List.append_assoc] at hall hiff
    exact ⟨_, _, hall.before, hiff, fun k hp => absurd ((hkinds kind hp.1).mpr hp.2.2) hfits⟩

end EndsFree

theorem SpellsAttached.of_empty (h : SpellsAttached "" p) : p := by
  obtain ⟨row, hatoms, hattached⟩ := h.atoms
  obtain rfl : [] = row := Except.ok.inj ((show Source.atoms .builtin "" = .ok [] from rfl).symm.trans hatoms)
  exact hattached.mp attached_nil

/-! ### Single tokens -/

/-- The token is its atom in the catalog, and that is a leaf. -/
def HasLeaf (token : Token) : Prop := IsSymbol token ∧ (symbolAtom .builtin token.text).toOption.any isLeaf = true

instance : DecidablePred HasLeaf := fun _ => inferInstanceAs (Decidable (_ ∧ _))

/-- The atom of the token takes scripts. -/
def takesScripts (token : Token) : Bool :=
  (symbolAtom .builtin token.text).toOption.any fun a => !Script.refused.contains a.type

theorem HasLeaf.yields {token : Token} (h : HasLeaf token) (hbare : isBare token = true) : ∃ a, Yields .builtin [token] [a] ∧
    Attached [a] ∧ ∀ kind : Script, kind.Fits a ↔ takesScripts token = true := by
  obtain ⟨hsymbol, hleaf⟩ := h
  obtain ⟨a, ha, hleaf⟩ := (Option.any_eq_true ..).mp hleaf
  have hatom := Outcome.eq_ok_of_toOption ha
  refine ⟨a, yields_symbol hsymbol hbare hatom, attached_leaf hleaf, fun kind => ?_⟩
  have hnone : kind.get a = none := by
    simp only [isLeaf, Bool.and_eq_true, List.all_eq_true, Option.isNone_iff_eq_none] at hleaf
    exact hleaf.2 _ (by cases kind <;> simp [Script.get, fields])
  rw [Script.Fits, and_iff_right hnone, takesScripts, ha, Option.any_some, Bool.not_eq_true', ← Bool.not_eq_true,
    List.contains_iff_mem]

theorem isBare_of_isSign {token : Token} (h : token.isSign = true) : isBare token = true := by
  cases token <;> first | rfl | cases h

theorem isBare_of_isName {token : Token} (h : token.isName = true) : isBare token = true := by
  cases token <;> first | rfl | cases h

/-- A sign is spelled wherever it stands. -/
theorem HasLeaf.spells {token : Token} (h : HasLeaf token) (hsign : token.isSign = true) :
    ∃ a, Spells .builtin token.text [a] ∧ Attached [a] := by
  obtain ⟨a, hyields, hattached, -⟩ := h.yields (isBare_of_isSign hsign)
  exact ⟨a, ⟨[token], Token.scans_text hsign, hyields⟩, hattached⟩

theorem HasLeaf.endsFree {token : Token} (h : HasLeaf token) (htoken : token.isSign = true ∨ token.isName = true) :
    EndsFree token.text True fun _ => takesScripts token = true := by
  have hscans : Token.ScansBefore token.text.toList [token] :=
    htoken.elim (fun hsign => (Token.scans_text hsign).before) Token.scansBefore_text
  obtain ⟨a, hyields, hattached, htakes⟩ := h.yields (htoken.elim isBare_of_isSign isBare_of_isName)
  exact ⟨[], a, ⟨[token], hscans, hyields⟩, iff_of_true hattached trivial, fun kind _ => htakes kind⟩

/-! ### Numbers -/

/-- A symbol of one character, but of zero width. -/
theorem isLeaf_character {d : Char} (h : d ≠ '\u200b') {latex : Datum} :
    isLeaf { type := .ordinary, value := .text d.toString, latex } = true := by
  have hplaceholder : isPlaceholder { type := .ordinary, value := .text d.toString, latex } = false := by
    show (AtomType.ordinary == .ordinary && d.toString == zeroWidth) = false
    refine beq_eq_false_iff_ne.mpr fun heq => h ?_
    have hlist := congrArg String.toList heq
    rw [Char.toString, String.toList_singleton] at hlist
    exact List.singleton_inj.mp hlist
  rw [isLeaf, hplaceholder]
  rfl

theorem attached_characters {cs : List Char} (h : '\u200b' ∉ cs) : Attached (cs.map ofCharacter) := by
  induction cs with
  | nil => exact attached_nil
  | cons d cs ih =>
    rw [List.mem_cons, not_or] at h
    rw [List.map_cons, ← List.singleton_append]
    exact attached_append.mpr ⟨attached_leaf (isLeaf_character (Ne.symm h.1)), ih h.2⟩

theorem attached_minus : Attached [minusAtom] := attached_leaf rfl

theorem attached_powerRow (n : Int) : Attached (powerRow n) := by
  have hdigits : Attached ((Nat.toDigits 10 n.natAbs).map ofCharacter) :=
    attached_characters fun hd => absurd (List.all_eq_true.mp (Format.all_toDigits n.natAbs) _ hd) (by decide)
  have hexponent : Attached (intRow n) := by
    unfold intRow
    split
    · exact attached_append.mpr ⟨attached_minus, hdigits⟩
    · exact hdigits
  refine attached_append.mpr ⟨attached_leaf (@isLeaf_character '1' (by decide) .null), attached_singleton.mpr ⟨rfl, ?_⟩⟩
  simp [scripted, ofCharacter, fields, attached_nil, hexponent]

theorem attached_readRow {l : Format.Layout} (h : l.Sound) : Attached (l.readRow .cdot) := by
  have hchars : '\u200b' ∉ l.readChars := by
    have hdigits : ∀ {cs : List Char}, (∀ d ∈ cs, d.isDigit = true) → '\u200b' ∉ cs :=
      fun hcs hd => absurd (hcs _ hd) (by decide)
    unfold Format.Layout.readChars
    split
    · exact hdigits h.whole
    · simp only [List.mem_append, List.mem_cons, not_or]
      exact ⟨hdigits h.whole, by decide, hdigits h.fraction, hdigits (isDigit_of_mem_blocks h.block)⟩
  have hsign : Attached [ProductSign.cdot.atom] := attached_leaf rfl
  unfold Format.Layout.readRow
  split
  · exact attached_characters hchars
  · split
    · exact attached_powerRow l.shift
    · exact attached_append.mpr ⟨attached_characters hchars, attached_append.mpr ⟨hsign, attached_powerRow l.shift⟩⟩

/-- The last atom of the row of a layout is a digit, which carries the exponent if there is a power of ten. -/
theorem last_readRow {l : Format.Layout} {row : List Atom} {a : Atom} (h : l.readRow .cdot = row ++ [a]) :
    a.type = .ordinary ∧ a.subscript = none ∧ (a.superscript = none ↔ l.shift = 0) := by
  have hpower : ∀ front : List Atom, front ++ powerRow l.shift = row ++ [a] →
      a = (ofCharacter '0').scripted (some (intRow l.shift)) none := by
    intro front hfront
    have hend : front ++ powerRow l.shift =
        front ++ [ofCharacter '1'] ++ [(ofCharacter '0').scripted (some (intRow l.shift)) none] := by
      rw [List.append_assoc]
      rfl
    rw [hend] at hfront
    exact (List.singleton_inj.mp (List.append_inj' hfront rfl).2).symm
  unfold Format.Layout.readRow at h
  by_cases hzero : l.shift = 0
  · rw [if_pos hzero] at h
    have hmem : a ∈ l.readChars.map ofCharacter := h ▸ List.mem_append_right _ (List.mem_singleton_self _)
    obtain ⟨d, -, rfl⟩ := List.mem_map.mp hmem
    exact ⟨rfl, rfl, iff_of_true rfl hzero⟩
  · obtain rfl : a = (ofCharacter '0').scripted (some (intRow l.shift)) none := by
      rw [if_neg hzero] at h
      split at h
      · exact hpower [] h
      · exact hpower (l.readChars.map ofCharacter ++ [ProductSign.cdot.atom]) (by rw [← h, List.append_assoc]; rfl)
    exact ⟨rfl, rfl, iff_of_false (fun h => by cases h) hzero⟩

/-- **A number is attached, and takes a superscript if no power of ten stands in it.** -/
theorem endsFree_number {v : Datum} (hv : v.IsNumeric) : ∃ text, ({} : Format).number v = .ok text ∧
    EndsFree text True fun kind => kind = .super → '^' ∉ text.toList := by
  obtain ⟨negative, l, hl, htext⟩ := Format.number_sound hv
  obtain ⟨row, a, hspells, hrow, hspacing, hthin⟩ := l.spells_row hl .cdot
  rw [unspaced_append, unspaced_singleton hspacing] at hrow
  obtain ⟨htype, hsub, hsup⟩ := last_readRow hrow.symm
  have hread := attached_readRow hl
  rw [← hrow, attached_iff] at hread
  -- What is spelled has thin spaces between the digits, which the row that is read has not.
  have hall : Attached (row ++ [a]) := by
    refine attached_iff.mpr fun b hb => ?_
    by_cases hspace : b.type = .spacing
    · rw [hthin b hb hspace]
      exact attached_singleton.mp (attached_leaf rfl)
    · refine hread b ?_
      rw [← unspaced_singleton hspacing, ← unspaced_append]
      exact List.mem_filter.mpr ⟨hb, decide_eq_true hspace⟩
  have hminus : Attached (minusRow negative) := by
    cases negative with
    | true => exact attached_minus
    | false => exact attached_nil
  refine ⟨_, htext, minusRow negative ++ row, a, ?_, iff_of_true ?_ trivial, fun kind _ => ?_⟩
  · rw [List.append_assoc]
    exact (spells_minus negative).append_before hspells
  · rw [List.append_assoc]
    exact attached_append.mpr ⟨hminus, hall⟩
  have htakes : a.type ∉ Script.refused := by
    rw [htype]
    decide
  refine (and_iff_left htakes).trans ?_
  cases kind with
  | super => exact hsup.trans ⟨fun hzero _ hcaret => (l.caret_mem_iff hl negative).mp hcaret hzero,
      fun h => not_not.mp fun hzero => h rfl ((l.caret_mem_iff hl negative).mpr hzero)⟩
  | sub => exact iff_of_true hsub fun h => by cases h

end Source

end Formula
