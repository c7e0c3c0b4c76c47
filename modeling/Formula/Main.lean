import Formula.CommandLine
import Formula.Preview.Png

/-!
# The command

Reads the files that the words of the command line name, runs the command, and prints and writes what it reports.
-/

namespace Formula.CommandLine

/-- What stands at a path on the disk. -/
def placeOnDisk (p : Path) : IO Place := do
  try
    let content ← IO.FS.readBinFile p.text
    return (String.fromUTF8? content).elim .bytes .text
  catch
    | .inappropriateType .. => return .directory
    | _ => return .missing

/-- What stands on the way to a path, as far as there are directories. -/
def placesOnWay (p : Path) : IO (List (Path × Place)) := do
  let mut places := #[]
  for q in p.way do
    let place ← placeOnDisk q
    places := places.push (q, place)
    match place with
    | .directory => pure ()
    | _ => return places.toList
  return places.toList

/-- The files that the words of the command line name. -/
def filesFor (texts : List String) : IO Files := do
  match Arguments.ofTexts texts with
  | .error _ => return ⟨[]⟩
  | .ok a =>
    let named := [a.file, a.config, a.preview].filterMap id
    let places ← named.mapM placesOnWay
    return ⟨places.flatten⟩

/-- Prints and writes what a report says, and gives its code. -/
def deliver (r : Report) : IO UInt32 := do
  (← IO.getStdout).putStr r.output
  for w in r.warnings do
    (← IO.getStderr).putStrLn ("Warning: " ++ w)
  for (path, picture) in r.written do
    IO.FS.writeBinFile path.text (Preview.Png.file picture)
  (← IO.getStderr).putStr r.errors
  return UInt32.ofNat r.code

end Formula.CommandLine

/-- Runs the command. -/
def main (texts : List String) : IO UInt32 := do
  match Formula.CommandLine.run (← Formula.CommandLine.filesFor texts) texts with
  | .ok report => Formula.CommandLine.deliver report
  | .error fault =>
    (← IO.getStderr).putStrLn ("Error: " ++ fault.message)
    return 1
