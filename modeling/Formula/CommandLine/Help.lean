/-!
# Help

What the command line says about itself.
-/

namespace Formula.CommandLine

/-- The lines on how the command is called. -/
def usageLines : List String := [
  "usage: mathtree [-h] [-f FILE] [-c CONFIG]",
  "                [-s \x7bcompact,default,engineering,eu\x7d] [--ast]",
  "                [--preview PREVIEW] [--open]",
  "                [expression]"]

/-- The lines on what the command does and on its switches. -/
def switchLines : List String := [
  "",
  "Parse math input into an expression tree and print normalized LaTeX",
  "",
  "positional arguments:",
  "  expression            LaTeX math expression",
  "",
  "options:",
  "  -h, --help            show this help message and exit",
  "  -f FILE, --file FILE  Read an atom stream from a JSON or YAML file",
  "  -c CONFIG, --config CONFIG",
  "                        Path to config.yaml (optional)",
  "  -s \x7bcompact,default,engineering,eu\x7d, --style \x7bcompact,default,engineering,eu\x7d",
  "                        Formatting style (choices: compact, default,",
  "                        engineering, eu; default: default)",
  "  --ast                 Print the parsed expression tree instead of LaTeX",
  "  --preview PREVIEW     Also render the result to this PNG file",
  "  --open                Open the preview image when done"]

/-- Lines as a text. -/
def textOf (lines : List String) : String := String.join (lines.map fun line => line ++ "\n")

/-- How the command is called. -/
def usage : String := textOf usageLines

/-- How the command is called, and what it does. -/
def help : String := textOf (usageLines ++ switchLines)

end Formula.CommandLine
