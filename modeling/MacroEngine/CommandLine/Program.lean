import MacroEngine.CommandLine.Arguments
import MacroEngine.CommandLine.Folder
import MacroEngine.Config.Yaml
import MacroEngine.Metaprogram
import MacroEngine.Session
import MacroEngine.Standard
import MacroEngine.Text.LineDiff
import MacroEngine.Tree.Json

/-!
# The program

What the program prints for given arguments, files and variables, and how it exits: with `0` if all
went well, with `1` after an error, and with `2` if the arguments mean nothing. Nothing is printed
by a command that fails.
-/

namespace MacroEngine.CommandLine

structure Outcome where
  exitCode : Nat
  output : String

def versionLine : String := "kiln 0.1.0\n"

section Inputs

variable (disk : Disk)

def textOf (path : SourcePath) : Except Error String :=
  match disk path with
  | some (.file text) => .ok text
  | _ => .error (.unreadableFile path)

/-- The files that a path stands for: the file it leads to, or those below the folder it leads to
that the settings take. -/
def filesAt (config : Config) (path : SourcePath) : Except Error (List (SourcePath × String)) :=
  match disk path with
  | some (.file text) => .ok [(path, text)]
  | some (.folder files) => .ok (files.filter fun (file, _) => config.intercepts file)
  | none => .error (.unreadableFile path)

/-- The files that paths stand for, in order. -/
def inputs (config : Config) (paths : List String) : Except Error (List (SourcePath × String)) :=
  return (← paths.mapM fun path => filesAt disk config ⟨path⟩).flatten

/-- The settings in a configuration file, or the standard ones. -/
def settings : Option String → Except Error Config
  | none => .ok .standard
  | some path => do Config.ofText (← textOf disk ⟨path⟩)

end Inputs

def header (path : SourcePath) : String := "// " ++ path.text ++ "\n"

def padded (width : Nat) (text : String) : String :=
  text ++ String.ofList (List.replicate (width - text.length) ' ')

def macroTable : String :=
  let width := (Standard.entries.map fun entry => entry.name.length).foldl max 0
  String.join (Standard.entries.map fun entry =>
    padded width entry.name ++ "  " ++ padded 8 entry.kind.label ++ "  " ++ entry.summary ++ "\n")

def spanText (span : Span) : String := s!"{span.start}..{span.stop}"

def checkText (path : SourcePath) (report : CheckReport) : String :=
  let none := if report.sites.isEmpty then path.text ++ ": no macro sites\n" else ""
  let sites := report.sites.map fun site =>
    site.name ++ "! at " ++ spanText site.span ++ ": " ++
      ((site.type.map (·.text)).getD "(no type)") ++ "\n"
  let diagnostics := report.diagnostics.map fun d =>
    d.severity.label ++ " [" ++ spanText d.span ++ "]: " ++ d.message ++ "\n"
  none ++ String.join sites ++ String.join diagnostics

/-- The texts of compiled files, or their differences from what they were. -/
def compiledText (diff : Bool) (inputs : List (SourcePath × String)) (files : List CompiledFile) :
    String :=
  String.join ((inputs.zip files).map fun (input, file) =>
    (if diff || files.length > 1 then header file.path else "") ++
      (if diff then Text.LineDiff.render input.2 file.text else file.text))

def inSession {α : Type} (environment : Standard.Environment) (config : Config)
    (step : Session.Step α) : Except Error α := do
  let session ← Session.new config (Standard.table environment)
  (step.run.run session).1

def runCommand (disk : Disk) (environment : Standard.Environment) (config : Config) :
    Command → Except Error String
  | .expand paths diff => do
    let inputs ← inputs disk config paths
    let files ← inSession environment config (Session.compileFiles inputs)
    return compiledText diff inputs files
  | .check file => do
    let text ← textOf disk ⟨file⟩
    let report ← inSession environment config do
      let parsed ← Session.parse ⟨file⟩ text
      Session.register [parsed]
      Session.check parsed .blank
    return checkText ⟨file⟩ report
  | .metaprogram paths declarations => do
    let inputs ← inputs disk config paths
    let emitted ← inSession environment config do
      let files ← inputs.mapM fun (path, text) => Session.parse path text
      Session.register files
      let (_, emitted) := emitModules .printing files (← get).registry ⟨declarations, true⟩
      ExceptT.mk (pure emitted)
    return String.join (emitted.files.map fun (path, text) => header path ++ text)
  | .tree file => do
    let text ← textOf disk ⟨file⟩
    let parsed ← inSession environment config (Session.parse ⟨file⟩ text)
    return parsed.toJson.pretty ++ "\n"
  | .listMacros => return macroTable

def run (disk : Disk) (environment : Standard.Environment) (arguments : List String) : Outcome :=
  match Request.ofArguments? arguments with
  | none => ⟨2, ""⟩
  | some .version => ⟨0, versionLine⟩
  | some (.run config command) =>
    let printed : Except Error String := do
      runCommand disk environment (← settings disk config) command
    match printed with
    | .ok text => ⟨0, text⟩
    | .error _ => ⟨1, ""⟩

def namedPaths (arguments : List String) : List String :=
  match Request.ofArguments? arguments with
  | some (.run config command) =>
    config.toList ++
      match command with
      | .expand paths _ => paths
      | .metaprogram paths _ => paths
      | .check file => [file]
      | .tree file => [file]
      | .listMacros => []
  | _ => []

/-- The variables that the macro sites of a text ask for. -/
def variablesIn (text : String) : List String :=
  match (SourceFile.parse ⟨""⟩ text).run 0 with
  | (.error _, _) => []
  | (.ok file, _) => file.sites.filterMap fun site => Standard.envName? (.expr site)

/-- The variables that a run with the given arguments may ask for. -/
def requestedVariables (disk : Disk) (arguments : List String) : List String :=
  (namedPaths arguments).flatMap fun path =>
    match disk ⟨path⟩ with
    | some (.file text) => variablesIn text
    | some (.folder files) => files.flatMap fun (_, text) => variablesIn text
    | none => []

end MacroEngine.CommandLine
