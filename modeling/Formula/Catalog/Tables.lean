/-!
# The built-in vocabulary

The commands, operators and functions that a catalog knows to begin with: arithmetic, relations, trigonometry and
delimiters.  Every table lists its entries in the order in which they are looked up.

In an operator's template `%0` and `%1` stand for its operands.  In a function's template `%` stands for the argument,
`%^` and `%_` for the scripts of the name, and `\%` for a percent sign.
-/

namespace Formula.Catalog

/-- Commands of plain symbols, with their characters. -/
def builtinSymbols : List (String × String) := [
  ("\\alpha", "α"), ("\\beta", "β"), ("\\gamma", "γ"), ("\\delta", "δ"), ("\\epsilon", "ϵ"), ("\\varepsilon", "ε"),
  ("\\zeta", "ζ"), ("\\eta", "η"), ("\\theta", "θ"), ("\\vartheta", "ϑ"), ("\\iota", "ι"), ("\\kappa", "κ"),
  ("\\lambda", "λ"), ("\\mu", "μ"), ("\\nu", "ν"), ("\\xi", "ξ"), ("\\pi", "π"), ("\\varpi", "ϖ"), ("\\rho", "ρ"),
  ("\\varrho", "ϱ"), ("\\sigma", "σ"), ("\\tau", "τ"), ("\\upsilon", "υ"), ("\\phi", "ϕ"), ("\\varphi", "φ"),
  ("\\chi", "χ"), ("\\psi", "ψ"), ("\\omega", "ω"), ("\\Gamma", "Γ"), ("\\Delta", "Δ"), ("\\Theta", "Θ"),
  ("\\Lambda", "Λ"), ("\\Xi", "Ξ"), ("\\Pi", "Π"), ("\\Sigma", "Σ"), ("\\Upsilon", "Υ"), ("\\Phi", "Φ"),
  ("\\Psi", "Ψ"), ("\\Omega", "Ω"), ("\\infty", "∞"), ("\\nabla", "∇"), ("\\partial", "∂"), ("\\hbar", "ℏ"),
  ("\\ell", "ℓ"), ("\\emptyset", "∅"), ("\\aleph", "ℵ"), ("\\exponentialE", "ⅇ"), ("\\imaginaryI", "ⅈ")]

/-- Tokens whose canonical name differs from their spelling. -/
def builtinNames : List (String × String) := [
  ("\\cdot", "*"), ("\\times", "*"), ("\\ast", "*"), ("\\div", "/"), ("\\pm", "+-"), ("\\mp", "-+"), ("\\le", "<="),
  ("\\leq", "<="), ("\\leqslant", "<="), ("\\ge", ">="), ("\\geq", ">="), ("\\geqslant", ">="), ("\\ne", "!="),
  ("\\neq", "!="), ("\\lt", "<"), ("\\gt", ">"), ("\\approx", "~="), ("\\equiv", "=="), ("\\coloneq", ":="),
  ("−", "-"), ("×", "*"), ("·", "*"), ("÷", "/"), ("≤", "<="), ("≥", ">="), ("≠", "!=")]

/-- Operators by their canonical names; a higher precedence binds tighter. -/
def builtinPrecedences : List (String × Int) := [
  (":=", 250), ("=", 260), ("==", 260), ("~=", 265), ("<", 266), (">", 266), ("<=", 266), (">=", 266), ("!=", 266),
  ("+", 275), ("-", 275), ("+-", 275), ("-+", 275), ("*", 390), ("/", 660)]

/-- How operators are written. -/
def builtinOperatorTemplates : List (String × String) := [
  ("+", "%0+%1"), ("-", "%0-%1"), ("*", "%0\\cdot %1"), ("/", "\\frac\x7b%0\x7d\x7b%1\x7d"), ("=", "%0=%1"),
  ("==", "%0\\equiv %1"), ("~=", "%0\\approx %1"), (":=", "%0\\coloneq %1"), ("<", "%0<%1"), (">", "%0>%1"),
  ("<=", "%0\\le %1"), (">=", "%0\\ge %1"), ("!=", "%0\\ne %1"), ("+-", "%0\\pm %1"), ("-+", "%0\\mp %1")]

/-- Functions that have a command of their own. -/
def commandFunctions : List String := [
  "sin", "cos", "tan", "cot", "sec", "csc", "sinh", "cosh", "tanh", "coth", "arcsin", "arccos", "arctan", "ln",
  "log", "lg", "exp", "det", "dim", "gcd", "max", "min", "deg", "ker", "arg", "inf", "sup", "lim", "Pr"]

/-- Functions without a command of their own. -/
def namedFunctions : List String := [
  "arccot", "arcsec", "arccsc", "csch", "sech", "arsinh", "arcosh", "artanh", "arcsch", "arsech", "arcoth", "lb",
  "lcm", "sgn", "erf", "Re", "Im"]

/-- How functions with a notation of their own are written. -/
def builtinFunctionTemplates : List (String × String) := [
  ("sqrt", "\\sqrt\x7b%\x7d"), ("abs", "\\left|%\\right|"), ("norm", "\\left\\Vert %\\right\\Vert "),
  ("floor", "\\left\\lfloor %\\right\\rfloor "), ("ceil", "\\left\\lceil %\\right\\rceil "),
  ("angle", "\\left\\langle %\\right\\rangle "), ("ucorner", "\\left\\ulcorner %\\right\\urcorner "),
  ("lcorner", "\\left\\llcorner %\\right\\lrcorner "), ("group", "\\left\\lgroup %\\right\\rgroup "),
  ("moustache", "\\left\\lmoustache %\\right\\rmoustache "), ("brace", "\\left\\lbrace %\\right\\rbrace "),
  ("factorial", "%!"), ("factorial2", "%!!"), ("dagger", "% ^\x7b\\dagger\x7d"), ("dagger2", "% ^\x7b\\ddagger\x7d"),
  ("maltese", "%\\maltese "), ("prime", "% ^\x7b\\prime\x7d"), ("prime2", "% ^\x7b\\doubleprime\x7d"),
  ("backprime", "% ^\x7b\\backprime\x7d"), ("backprime2", "% ^\x7b\\backprime\\backprime\x7d"), ("$", "%\\$"),
  ("%", "%\\%"), ("_", "%\\_"), ("degree", "% ^\x7b\\circ\x7d"), ("curl", "\\nabla\\times %"),
  ("div", "\\nabla\\cdot %")]

end Formula.Catalog
