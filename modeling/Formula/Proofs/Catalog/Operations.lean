import Formula.Expr.Latex
import Formula.Proofs.Reader.Fences

/-!
# Operations and functions of the usual vocabulary

Sums, differences and products are written with an operator between two operands, and functions with a command in front
of their argument.  In a source these are atoms that the reader of rows knows as operators, signs and names.

All operators of the vocabulary but the fraction stand between their operands, as a character or as a command with a
blank behind it.  A source with the sign of an operator in it has one atom for it, which the reader of rows knows by the
name and the precedence of the operator.
-/

namespace Formula

open Text Atom Expr

/-! ### Operations -/

/-- The operations that have an operator between their operands. -/
inductive Operation where
  | sum
  | difference
  | product
deriving DecidableEq

namespace Operation

/-- The canonical name of the operator. -/
def name : Operation → String
  | sum => "+"
  | difference => "-"
  | product => "*"

/-- How the operator is written. -/
def sign : Operation → String
  | sum => "+"
  | difference => "-"
  | product => "\\cdot "

/-- How tight the operator binds. -/
def precedence : Operation → Int
  | sum | difference => 275
  | product => 390

/-- The atom of the operator. -/
def atom : Operation → Atom
  | sum => { type := .binary, value := "+" }
  | difference => { type := .binary, value := "-" }
  | product => { type := .binary, value := "\\cdot", latex := "\\cdot" }

theorem precedenceOf_name (o : Operation) : Catalog.builtin.precedenceOf (.text o.name) = .ok (some o.precedence) := by
  cases o <;> rfl

theorem isPlain_atom (o : Operation) : o.atom.IsPlain where
  worded := by
    cases o with
    | sum | difference => exact ⟨⟨_, rfl⟩, .inl rfl, .inl rfl, .inl rfl, .inl rfl, .inl rfl⟩
    | product => exact ⟨⟨_, rfl⟩, .inr ⟨_, rfl⟩, .inl rfl, .inl rfl, .inl rfl, .inl rfl⟩
  unscripted := by cases o <;> rfl
  spelling t ht := by
    have heq : t = trim o.sign := by
      cases o <;> exact (Datum.text.inj (Except.ok.inj ht)).symm
    subst heq
    cases o <;> decide

/-- The operator to the reader. -/
def operator (o : Operation) : OperatorAtom .builtin where
  atom := o.atom
  name := .text o.name
  precedence := o.precedence
  plain := o.isPlain_atom
  type_eq := by cases o <;> exact .inl rfl
  name_eq := by cases o <;> rfl
  precedence_eq := by cases o <;> rfl
  nonneg := by cases o <;> decide

theorem spells_sign (o : Operation) : Source.Spells .builtin o.sign [o.atom] := by
  cases o with
  | sum => exact Source.spells_char (d := '+') (by decide) (by decide) (by decide) (by decide) (by decide) rfl
  | difference => exact Source.spells_char (d := '-') (by decide) (by decide) (by decide) (by decide) (by decide) rfl
  | product =>
    exact @Source.spells_command _ ['c', 'd', 'o', 't'] (by decide) (by decide) (by decide) (by decide) _ rfl

end Operation

/-! ### Signs in front -/

/-- The signs that may stand in front of an operand. -/
inductive Sign where
  | plus
  | minus
deriving DecidableEq

namespace Sign

/-- The operation whose operator is the sign. -/
def operation : Sign → Operation
  | plus => .sum
  | minus => .difference

/-- The sign as it is named and written. -/
def name (s : Sign) : String := s.operation.name

/-- The sign to the reader. -/
def signAtom (s : Sign) : SignAtom .builtin where
  atom := s.operation.atom
  name := s.name
  plain := s.operation.isPlain_atom
  type_eq := by cases s <;> rfl
  name_eq := by cases s <;> rfl
  sign := by
    cases s with
    | plus => exact .inl rfl
    | minus => exact .inr rfl

theorem spells_name (s : Sign) : Source.Spells .builtin s.name [s.signAtom.atom] := by
  cases s with
  | plus => exact Operation.spells_sign .sum
  | minus => exact Operation.spells_sign .difference

end Sign

/-! ### Functions -/

/-- The atom of a function with a command of its own. -/
def functionAtom (name : String) : Atom := { type := .operator, latex := .text ("\\" ++ name) }

/-- What the tables and the lexer know of a function with a command of its own. -/
structure KnowsCommand (name : String) : Prop where
  isVoid : (Datum.text ("\\" ++ name)).isVoid = false
  allBlank : allBlank ("\\" ++ name) = false
  trim : trim ("\\" ++ name) = "\\" ++ name
  nameless : "\\" ++ name ∉ Catalog.builtinNames.map (·.1)
  symbolless : "\\" ++ name ∉ Catalog.builtinSymbols.map (·.1)
  operatorless : Catalog.operatorName? ("\\" ++ name) = none
  functionName : Catalog.builtin.functionName? ("\\" ++ name) = some name
  precedenceless : name ∉ Catalog.builtinPrecedences.map (·.1)
  isFunction : Catalog.builtin.isFunction (.text name) = true
  spelling : "\\" ++ name ≠ "\\nabla" ∧ "\\" ++ name ≠ "!"
  charType : Source.charTypes.lookup ("\\" ++ name) = none
  unquoted : "\\" ++ name ≠ "'"
  isMark : Source.isMark ("\\" ++ name) = false
  isOpener : Source.isOpener ("\\" ++ name) = false
  isCloser : Source.isCloser ("\\" ++ name) = false
  isCommand : Source.isCommand ("\\" ++ name) = true
  letters : name.toList ≠ [] ∧ name.toList.all isLetter = true
  verbatim : Token.verbatimCommands.contains name = false
  symbol : Source.IsSymbol (.command name)

theorem knowsCommand {name : String} (h : name ∈ Catalog.commandFunctions) : KnowsCommand name := by
  have htext : ∀ s ∈ Catalog.commandFunctions, (Datum.text ("\\" ++ s)).isVoid = false ∧ allBlank ("\\" ++ s) = false ∧
      trim ("\\" ++ s) = "\\" ++ s ∧ "\\" ++ s ∉ Catalog.builtinNames.map (·.1) ∧
      "\\" ++ s ∉ Catalog.builtinSymbols.map (·.1) ∧ Catalog.operatorName? ("\\" ++ s) = none ∧
      Catalog.builtin.functionName? ("\\" ++ s) = some s := by decide +kernel
  have hname : ∀ s ∈ Catalog.commandFunctions, s ∉ Catalog.builtinPrecedences.map (·.1) ∧
      Catalog.builtin.isFunction (.text s) = true ∧ ("\\" ++ s ≠ "\\nabla" ∧ "\\" ++ s ≠ "!") := by decide
  have hsource : ∀ s ∈ Catalog.commandFunctions, Source.charTypes.lookup ("\\" ++ s) = none ∧ "\\" ++ s ≠ "'" ∧
      Source.isMark ("\\" ++ s) = false ∧ Source.isOpener ("\\" ++ s) = false ∧ Source.isCloser ("\\" ++ s) = false ∧
      Source.isCommand ("\\" ++ s) = true ∧ (s.toList ≠ [] ∧ s.toList.all isLetter = true) ∧
      Token.verbatimCommands.contains s = false ∧ Source.IsSymbol (.command s) := by decide +kernel
  obtain ⟨h1, h2, h3, h4, h5, h6, h7⟩ := htext name h
  obtain ⟨h8, h9, h10⟩ := hname name h
  obtain ⟨h11, h12, h13, h14, h15, h16, h17, h18, h19⟩ := hsource name h
  exact ⟨h1, h2, h3, h4, h5, h6, h7, h8, h9, h10, h11, h12, h13, h14, h15, h16, h17, h18, h19⟩

section

variable {name : String} (h : name ∈ Catalog.commandFunctions)
include h

theorem text_functionAtom : (functionAtom name).text = .ok (.text ("\\" ++ name)) := by
  have hknown := knowsCommand h
  unfold Atom.text functionAtom
  rw [hknown.isVoid, if_neg Bool.false_ne_true]
  dsimp only
  rw [hknown.allBlank, hknown.trim]
  rfl

theorem nameOfTrimmed_command : Catalog.builtin.nameOfTrimmed ("\\" ++ name) = .text name := by
  have hknown := knowsCommand h
  unfold Catalog.nameOfTrimmed
  rw [show Catalog.builtin.names = Catalog.textTable Catalog.builtinNames from rfl,
    show Catalog.builtin.symbols = Catalog.textTable Catalog.builtinSymbols from rfl,
    Catalog.find?_textTable hknown.nameless, Catalog.find?_textTable hknown.symbolless, hknown.operatorless,
    hknown.functionName]
  rfl

theorem name_functionAtom : (functionAtom name).name .builtin = .ok (.text name) := by
  unfold Atom.name Catalog.canonicalNameOf
  rw [text_functionAtom h]
  show (if (Datum.text ("\\" ++ name)).isVoid = true then Except.ok (Catalog.builtin.nameOfTrimmed "")
    else (Datum.text ("\\" ++ name)).trimmed.map Catalog.builtin.nameOfTrimmed) = _
  rw [(knowsCommand h).isVoid, if_neg Bool.false_ne_true]
  show Except.ok (Catalog.builtin.nameOfTrimmed (trim ("\\" ++ name))) = _
  rw [(knowsCommand h).trim, nameOfTrimmed_command h]

theorem precedence_function : Catalog.builtin.precedence (.text name) = none := by
  have : (Table.ofTexts Catalog.builtinPrecedences).find? (.text name) = none :=
    Catalog.find?_ofTexts (knowsCommand h).precedenceless
  exact this

theorem isFunction_functionAtom : (functionAtom name).isFunction .builtin = .ok true := by
  unfold Atom.isFunction
  rw [name_functionAtom h, text_functionAtom h]
  show (if (Catalog.builtin.precedence (.text name)).isSome = true then Except.ok false
    else Except.ok (beginsWith ("\\" ++ name) "\\operatorname" || Catalog.builtin.isFunction (.text name))) = _
  rw [precedence_function h, (knowsCommand h).isFunction, Bool.or_true]
  rfl

theorem spelling_functionAtom (t : String) (ht : (functionAtom name).text = .ok (.text t)) : t ≠ "\\nabla" ∧ t ≠ "!" := by
  rw [text_functionAtom h] at ht
  rw [← Datum.text.inj (Except.ok.inj ht)]
  exact (knowsCommand h).spelling

/-- The command of a function in a source. -/
theorem symbolAtom_command : Source.symbolAtom .builtin ("\\" ++ name) = .ok (functionAtom name) := by
  have hknown := knowsCommand h
  have hname : Catalog.builtin.canonicalName ("\\" ++ name) = .text name := by
    unfold Catalog.canonicalName
    rw [hknown.trim, nameOfTrimmed_command h]
  have hprecedence : Catalog.builtin.precedenceOf (.text name) = .ok none := congrArg Except.ok (precedence_function h)
  unfold Source.symbolAtom
  simp only [hknown.charType, hknown.unquoted, hknown.isMark, hknown.isOpener, hknown.isCloser, hknown.isCommand, hname,
    hprecedence, hknown.isFunction, if_false, Bool.false_eq_true, Bool.and_self, Bool.or_true]
  rfl

/-- **The command of a function spells its name.** -/
theorem spells_command : Source.Spells .builtin ("\\" ++ name ++ " ") [functionAtom name] := by
  have hknown := knowsCommand h
  have hname : String.ofList name.toList = name := String.ofList_toList
  have := Source.spells_command (c := .builtin) (a := functionAtom name) hknown.letters.1 hknown.letters.2
    (by rw [hname]; exact hknown.verbatim) (by rw [hname]; exact hknown.symbol) (by rw [hname]; exact symbolAtom_command h)
  rwa [hname] at this

end

/-- A function with a command of its own, to the reader. -/
def FunctionAtom.command {name : String} (h : name ∈ Catalog.commandFunctions) : FunctionAtom .builtin where
  atom := functionAtom name
  name := name
  plain := {
    worded := ⟨⟨_, rfl⟩, .inr ⟨_, rfl⟩, .inl rfl, .inl rfl, .inl rfl, .inl rfl⟩
    unscripted := rfl
    spelling := spelling_functionAtom h }
  type_eq := rfl
  name_eq := name_functionAtom h
  function := isFunction_functionAtom h

/-! ### Functions that enclose their argument -/

/-- Functions that are written as delimiters around their argument. -/
inductive Enclosure where
  | abs
  | norm
  | floor
  | ceil
  | angle
  | upperCorner
  | lowerCorner
  | group
  | moustache
  | brace
deriving DecidableEq

namespace Enclosure

/-- The name of the function. -/
def name : Enclosure → String
  | abs => "abs"
  | norm => "norm"
  | floor => "floor"
  | ceil => "ceil"
  | angle => "angle"
  | upperCorner => "ucorner"
  | lowerCorner => "lcorner"
  | group => "group"
  | moustache => "moustache"
  | brace => "brace"

/-- The token of the left delimiter. -/
def left : Enclosure → Token
  | abs => .char '|'
  | norm => .command "Vert"
  | floor => .command "lfloor"
  | ceil => .command "lceil"
  | angle => .command "langle"
  | upperCorner => .command "ulcorner"
  | lowerCorner => .command "llcorner"
  | group => .command "lgroup"
  | moustache => .command "lmoustache"
  | brace => .command "lbrace"

/-- The token of the right delimiter. -/
def right : Enclosure → Token
  | abs => .char '|'
  | norm => .command "Vert"
  | floor => .command "rfloor"
  | ceil => .command "rceil"
  | angle => .command "rangle"
  | upperCorner => .command "urcorner"
  | lowerCorner => .command "lrcorner"
  | group => .command "rgroup"
  | moustache => .command "rmoustache"
  | brace => .command "rbrace"

/-- A delimiter as it is written: a command has a blank behind it. -/
def written : Token → String
  | .command name => "\\" ++ name ++ " "
  | token => token.text

/-- A text between the delimiters. -/
def around (f : Enclosure) (s : String) : String :=
  "\\left" ++ written f.left ++ (s ++ ("\\right" ++ written f.right))

theorem delimiterFunction?_eq (f : Enclosure) :
    delimiterFunction? ((Datum.text f.left.text).orElse ".") ((Datum.text f.right.text).orElse ".") =
      .ok (some f.name) := by
  cases f <;> rfl

/-- The delimiter is a bar or a command of letters that keeps no argument. -/
def isWritten : Token → Bool
  | .char d => d == '|'
  | .command name => !name.toList.isEmpty && name.toList.all isLetter && !Token.verbatimCommands.contains name
  | _ => false

/-- A delimiter is one token, and no letter stands at its start. -/
theorem scans_written {token : Token} (h : isWritten token = true) :
    ∃ d ds, (written token).toList = d :: ds ∧ isLetter d = false ∧ Token.Scans (d :: ds) [token] := by
  cases token with
  | char d =>
    obtain rfl := eq_of_beq h
    exact ⟨'|', [], rfl, by decide, Token.scans_char (by decide) (by decide) (by decide) (by decide)⟩
  | command name =>
    simp only [isWritten, Bool.and_eq_true, Bool.not_eq_true', List.isEmpty_eq_false_iff] at h
    obtain ⟨⟨hne, hletters⟩, hverbatim⟩ := h
    refine ⟨'\\', name.toList ++ [' '], ?_, by decide, ?_⟩
    · show ("\\" ++ name ++ " ").toList = _
      rw [String.toList_append, String.toList_append]
      rfl
    · have hscans := Token.Scans.command hne hletters (by rwa [String.ofList_toList]) (by decide)
        (Token.scans_blank (d := ' ') (by decide))
      rwa [String.ofList_toList] at hscans
  | verbatim | assign => cases h

/-- **A text between the delimiters spells a fence.** -/
theorem spells_around (f : Enclosure) {s : String} {body : List Atom} (h : Source.SpellsBefore .builtin s body) :
    Source.Spells .builtin (f.around s) [Source.fencedAtom f.left.text f.right.text body] := by
  obtain ⟨d, ds, hl, hd, hfirst⟩ := @scans_written f.left (by cases f <;> decide +kernel)
  obtain ⟨e, es, hr, he, hlast⟩ := @scans_written f.right (by cases f <;> decide +kernel)
  exact h.fenced hl hr hd he hfirst hlast

end Enclosure

/-! ### Operators between operands -/

/-- The operators that are written between their operands. -/
inductive Infix where
  | assigned
  | equal
  | identical
  | approximate
  | less
  | greater
  | atMost
  | atLeast
  | unequal
  | sum
  | difference
  | plusMinus
  | minusPlus
  | product
deriving DecidableEq

namespace Infix

/-- The canonical name of the operator. -/
def name : Infix → String
  | assigned => ":="
  | equal => "="
  | identical => "=="
  | approximate => "~="
  | less => "<"
  | greater => ">"
  | atMost => "<="
  | atLeast => ">="
  | unequal => "!="
  | sum => "+"
  | difference => "-"
  | plusMinus => "+-"
  | minusPlus => "-+"
  | product => "*"

/-- How tight the operator binds. -/
def precedence : Infix → Int
  | assigned => 250
  | equal | identical => 260
  | approximate => 265
  | less | greater | atMost | atLeast | unequal => 266
  | sum | difference | plusMinus | minusPlus => 275
  | product => 390

/-- The name of the command of the operator, if it is no character. -/
def command? : Infix → Option String
  | assigned => some "coloneq"
  | identical => some "equiv"
  | approximate => some "approx"
  | atMost => some "le"
  | atLeast => some "ge"
  | unequal => some "ne"
  | plusMinus => some "pm"
  | minusPlus => some "mp"
  | product => some "cdot"
  | equal | less | greater | sum | difference => none

/-- How the operator is written. -/
def sign (o : Infix) : String :=
  match o.command? with
  | some command => "\\" ++ command ++ " "
  | none => o.name

/-- The atom of the operator. -/
def atom (o : Infix) : Atom :=
  let type := if 275 ≤ o.precedence then AtomType.binary else .relation
  match o.command? with
  | some command => { type, value := .text ("\\" ++ command), latex := .text ("\\" ++ command) }
  | none => { type, value := .text o.name }

theorem precedenceOf_name (o : Infix) : Catalog.builtin.precedenceOf (.text o.name) = .ok (some o.precedence) := by
  cases o <;> rfl

theorem isText_slash (o : Infix) : (Datum.text o.name).isText "/" = false := by
  cases o <;> rfl

theorem type_atom (o : Infix) : o.atom.type = .binary ∨ o.atom.type = .relation := by
  cases o <;> first | exact .inl rfl | exact .inr rfl

theorem isPlain_atom (o : Infix) : o.atom.IsPlain where
  worded := by
    cases o <;> first
      | exact ⟨⟨_, rfl⟩, .inl rfl, .inl rfl, .inl rfl, .inl rfl, .inl rfl⟩
      | exact ⟨⟨_, rfl⟩, .inr ⟨_, rfl⟩, .inl rfl, .inl rfl, .inl rfl, .inl rfl⟩
  unscripted := by cases o <;> rfl
  spelling t ht := by
    have heq : t = trim o.sign := by
      cases o <;> exact (Datum.text.inj (Except.ok.inj ht)).symm
    subst heq
    cases o <;> decide

/-- The operator to the reader. -/
def operator (o : Infix) : OperatorAtom .builtin where
  atom := o.atom
  name := .text o.name
  precedence := o.precedence
  plain := o.isPlain_atom
  type_eq := o.type_atom
  name_eq := by cases o <;> rfl
  precedence_eq := by cases o <;> rfl
  nonneg := by cases o <;> decide

/-- The name of a command may end in front of the operator. -/
theorem startsApart_sign (o : Infix) : Source.StartsApart o.sign := by
  cases o <;> exact ⟨_, _, rfl, by decide⟩

/-- What a source with the sign of the operator in it is read as. -/
theorem spells_sign (o : Infix) : Source.Spells .builtin o.sign [o.atom] := by
  have char : ∀ {d : Char} {a : Atom}, d ∈ ['=', '<', '>', '+', '-'] → Source.symbolAtom .builtin d.toString = .ok a →
      Source.Spells .builtin d.toString [a] := by
    intro d a hd ha
    simp only [List.mem_cons, List.not_mem_nil, or_false] at hd
    rcases hd with rfl | rfl | rfl | rfl | rfl <;>
      exact Source.spells_char (by decide) (by decide) (by decide) (by decide) (by decide) ha
  have command : ∀ {s : String} {a : Atom}, s ∈ ["coloneq", "equiv", "approx", "le", "ge", "ne", "pm", "mp", "cdot"] →
      Source.symbolAtom .builtin ("\\" ++ s) = .ok a → Source.Spells .builtin ("\\" ++ s ++ " ") [a] := by
    intro s a hs ha
    have hfacts : ∀ s ∈ ["coloneq", "equiv", "approx", "le", "ge", "ne", "pm", "mp", "cdot"], s.toList ≠ [] ∧
        s.toList.all isLetter = true ∧ Token.verbatimCommands.contains s = false ∧ Source.IsSymbol (.command s) := by
      decide
    obtain ⟨hne, hletters, hverbatim, hsymbol⟩ := hfacts s hs
    have hname : String.ofList s.toList = s := String.ofList_toList
    have := @Source.spells_command .builtin s.toList hne hletters (by rwa [hname]) (by rwa [hname]) a (by rwa [hname])
    rwa [hname] at this
  cases o with
  | equal => exact @char '=' _ (by decide) rfl
  | less => exact @char '<' _ (by decide) rfl
  | greater => exact @char '>' _ (by decide) rfl
  | sum => exact @char '+' _ (by decide) rfl
  | difference => exact @char '-' _ (by decide) rfl
  | assigned | identical | approximate | atMost | atLeast | unequal | plusMinus | minusPlus | product =>
    exact command (by decide) rfl

end Infix

namespace Operation

/-- The operation by its operator. -/
def toInfix : Operation → Infix
  | sum => .sum
  | difference => .difference
  | product => .product

theorem name_toInfix (o : Operation) : o.toInfix.name = o.name := by cases o <;> rfl

theorem sign_toInfix (o : Operation) : o.toInfix.sign = o.sign := by cases o <;> rfl

theorem precedence_toInfix (o : Operation) : o.toInfix.precedence = o.precedence := by cases o <;> rfl

theorem atom_toInfix (o : Operation) : o.toInfix.atom = o.atom := by cases o <;> rfl

end Operation

end Formula
