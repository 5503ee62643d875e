import MacroEngine.CommandLine.Program

/-!
# The executable

Files named in the arguments are read from the working folder. A name that is no file is taken for
a folder; the names of the files below folders are read from standard input, one a line, unless that
is a terminal.
-/

namespace MacroEngine.CommandLine

def readText? (path : String) : IO (Option String) := do
  try return some (← IO.FS.readFile path) catch _ => return none

def readAll (paths : List String) : IO (List (String × String)) :=
  paths.filterMapM fun path => do return (← readText? path).map fun text => (path, text)

/-- The lines of standard input; none if it is a terminal. -/
def listedNames : IO (List String) := do
  let input ← IO.getStdin
  if ← input.isTty then return []
  let text ← input.readToEnd
  return (Text.splitAt '\n' text.toList).map String.ofList |>.filter (· ≠ "")

/-- What the paths in the arguments lead to. -/
def diskFor (arguments : List String) : IO Disk := do
  let paths := namedPaths arguments
  let files ← readAll paths
  let folder ←
    if files.length = paths.length then pure (Folder.ofFiles [])
    else do pure (Folder.ofFiles (← readAll (← listedNames)))
  return fun path =>
    match files.lookup path.text with
    | some text => some (.file text)
    | none => folder.disk path

def valuesOf (names : List String) : IO Standard.Environment :=
  names.filterMapM fun name => do return (← IO.getEnv name).map fun value => (name, value)

end MacroEngine.CommandLine

open MacroEngine.CommandLine in
def main (arguments : List String) : IO UInt32 := do
  let disk ← diskFor arguments
  let environment ← valuesOf (requestedVariables disk arguments)
  let outcome := run disk environment arguments
  IO.print outcome.output
  return outcome.exitCode.toUInt32
