/-!
# Glyphs of fences and of postfix marks

Which delimiter closes which, which pairs of delimiters stand for a function, and which marks behind an operand stand
for one.
-/

namespace Formula.Glyph

/-- The delimiters that open a fence, with those that close it. -/
def partners : List (String × String) := [
  ("(", ")"), ("\x7b", "\x7d"), ("\\\x7b", "\\\x7d"), ("[", "]"), ("|", "|"), ("\\|", "\\|"),
  ("\\lbrace", "\\rbrace"), ("\\langle", "\\rangle"), ("\\lfloor", "\\rfloor"), ("\\lceil", "\\rceil"),
  ("\\vert", "\\vert"), ("\\lvert", "\\rvert"), ("\\Vert", "\\Vert"), ("\\lVert", "\\rVert"),
  ("\\lbrack", "\\rbrack"), ("\\ulcorner", "\\urcorner"), ("\\llcorner", "\\lrcorner"), ("\\lgroup", "\\rgroup"),
  ("\\lmoustache", "\\rmoustache")]

/-- The delimiters that close a fence. -/
def closers : List String := partners.map (·.2)

/-- The delimiters that close the fence that they open. -/
def symmetric : List String := ["|", "\\|", "\\vert", "\\Vert"]

/-- Pairs of delimiters, written one behind the other, that stand for a function. -/
def delimiterFunctions : List (String × String) := [
  ("\\lfloor\\rfloor", "floor"), ("\\lceil\\rceil", "ceil"), ("\\vert\\vert", "abs"), ("\\lvert\\rvert", "abs"),
  ("||", "abs"), ("\\Vert\\Vert", "norm"), ("\\lVert\\rVert", "norm"), ("\\|\\|", "norm"),
  ("\\ulcorner\\urcorner", "ucorner"), ("\\llcorner\\lrcorner", "lcorner"), ("\\langle\\rangle", "angle"),
  ("\\lgroup\\rgroup", "group"), ("\\lmoustache\\rmoustache", "moustache"), ("\\lbrace\\rbrace", "brace"),
  ("\\\x7b\\\x7d", "brace")]

/-- Marks behind an operand, with the functions they stand for. -/
def postfixFunctions : List (String × String) := [
  ("!", "factorial"), ("\\dag", "dagger"), ("\\dagger", "dagger"), ("\\ddagger", "dagger2"), ("\\maltese", "maltese"),
  ("\\backprime", "backprime"), ("\\backdoubleprime", "backprime2"), ("\\prime", "prime"),
  ("\\doubleprime", "prime2"), ("\\$", "$"), ("\\%", "%"), ("\\_", "_"), ("\\degree", "degree")]

/-- Pairs of marks that stand for one function or operator. -/
def digraphs : List ((String × String) × String) := [
  (("\\nabla", "\\times"), "curl"), (("\\nabla", "\\cdot"), "div"), (("!", "!"), "factorial2")]

/-- The digraphs in front of an operand. -/
def prefixDigraphs : List String := ["curl", "div"]

/-- The digraphs behind an operand. -/
def postfixDigraphs : List String := ["factorial2"]

end Formula.Glyph
