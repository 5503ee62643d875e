/-!
# Arguments of the command line

The command line names one command. The options `--config FILE`, `-v` and `--verbose` may stand
before or after the name of the command, the switches and the paths of the command after it. What
follows a lone `--` is a path whatever it looks like. Arguments that are not of this form have no
meaning; `Request.ofArguments?` then has no answer.
-/

namespace MacroEngine.CommandLine

inductive Command where
  /-- Compile files and print what they became, or how they changed. -/
  | expand (paths : List String) (diff : Bool)
  /-- Print what the check hooks say about a file. -/
  | check (file : String)
  /-- Print the files that matter at compile time only. -/
  | metaprogram (paths : List String) (declarations : Bool)
  /-- Print the tree of a file. -/
  | tree (file : String)
  /-- List the standard macros. -/
  | listMacros
deriving Repr, DecidableEq

inductive Request where
  | version
  | run (config : Option String) (command : Command)
deriving Repr, DecidableEq

inductive Word where
  /-- The lone `--`. -/
  | separator
  /-- An argument that starts with two dashes, with what follows its first `=`. -/
  | long (name : String) (value : Option String)
  /-- An argument that starts with one dash. -/
  | short (letters : List Char)
  | plain

def Word.of (argument : String) : Word :=
  match argument.toList with
  | ['-', '-'] => .separator
  | '-' :: '-' :: rest =>
    match rest.dropWhile (· ≠ '=') with
    | [] => .long (String.ofList rest) none
    | _ :: value => .long (String.ofList (rest.takeWhile (· ≠ '='))) (some (String.ofList value))
  | ['-'] => .plain
  | '-' :: letters => .short letters
  | _ => .plain

/-- What has been read of the arguments before or after the name of the command. -/
structure Given where
  config : Option String
  switches : List String
  paths : List String
  /-- Whether the next argument is the value of `--config`. -/
  awaitsConfig : Bool
  /-- Whether the lone `--` has been read. -/
  onlyPaths : Bool

namespace Given

def empty : Given := ⟨none, [], [], false, false⟩

/-- Takes the value of `--config`, which is not empty and comes once. -/
def withConfig? (g : Given) (value : String) : Option Given :=
  if value = "" || g.config.isSome then none
  else some { g with config := some value, awaitsConfig := false }

def withLong? (known : List String) (g : Given) (name : String) (value : Option String) :
    Option Given :=
  match name, value with
  | "config", none => some { g with awaitsConfig := true }
  | "config", some value => g.withConfig? value
  | "verbose", none => some g
  | _, some _ => none
  | _, none =>
    if known.contains name && !g.switches.contains name then
      some { g with switches := g.switches ++ [name] }
    else none

/-- Takes a path, which is not empty. -/
def withPath? (g : Given) (path : String) : Option Given :=
  if path = "" then none else some { g with paths := g.paths ++ [path] }

/-- Takes one argument; `known` are the switches of the command. -/
def take? (known : List String) (g : Given) (argument : String) : Option Given :=
  if g.onlyPaths then g.withPath? argument
  else match Word.of argument, g.awaitsConfig with
    | .plain, true => g.withConfig? argument
    | _, true => none
    | .plain, false => g.withPath? argument
    | .separator, false => some { g with onlyPaths := true }
    | .long name value, false => g.withLong? known name value
    | .short letters, false => if letters.all (· = 'v') then some g else none

def takeAll? (known : List String) : List String → Given → Option Given
  | [], g => if g.awaitsConfig then none else some g
  | argument :: rest, g => (g.take? known argument).bind (takeAll? known rest)

end Given

def switchesOf? : String → Option (List String)
  | "expand" => some ["diff"]
  | "check" => some []
  | "meta" => some ["declarations"]
  | "ast" => some []
  | "list-macros" => some []
  | _ => none

def Command.of? (name : String) (g : Given) : Option Command :=
  match name, g.paths with
  | "expand", p :: ps => some (.expand (p :: ps) (g.switches.contains "diff"))
  | "check", [file] => some (.check file)
  | "meta", p :: ps => some (.metaprogram (p :: ps) (g.switches.contains "declarations"))
  | "ast", [file] => some (.tree file)
  | "list-macros", [] => some .listMacros
  | _, _ => none

/-- Whether an argument in front of the command asks for the version. -/
def asksVersion (argument : String) : Bool :=
  match Word.of argument with
  | .long "version" none => true
  | .short letters => (letters.dropWhile (· = 'v')).head? = some 'V'
  | _ => false

/-- Reads the arguments from the one in front of which `g` has been read. -/
def Request.after? (g : Given) : List String → Option Request
  | [] => none
  | argument :: rest =>
    match g.awaitsConfig, switchesOf? argument with
    | false, some known => do
      let inner ← Given.empty.takeAll? known rest
      return .run (inner.config.or g.config) (← Command.of? argument inner)
    | waits, _ =>
      if !waits && asksVersion argument then some .version
      else
        match g.take? [] argument with
        | none => none
        | some g => if g.onlyPaths || !g.paths.isEmpty then none else after? g rest

def Request.ofArguments? (arguments : List String) : Option Request := after? .empty arguments

end MacroEngine.CommandLine
