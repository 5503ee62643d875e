import MacroEngine.Error

/-!
# Configuration

What a session can be told: what to do about names and anchors that lead nowhere, which operators to
lower, and which files to take.
-/

namespace MacroEngine

/-- What to do when something that was looked up is not there. -/
inductive MissPolicy where
  | ignore
  | warn
  | fail
deriving Repr, DecidableEq

def MissPolicy.label : MissPolicy → String
  | .ignore => "ignore"
  | .warn => "warn"
  | .fail => "error"

def MissPolicy.ofLabel? (word : String) : Option MissPolicy :=
  [MissPolicy.ignore, .warn, .fail].find? (·.label = word)

/-- What a policy makes of a miss: a warning or none, or a failure. -/
def MissPolicy.apply (policy : MissPolicy) (e : Error) : Except Error (List String) :=
  match policy with
  | .ignore => .ok []
  | .warn => .ok [e.message]
  | .fail => .error e

structure Config where
  /-- For names in a `derives` list that mean nothing. -/
  unresolvedDerive : MissPolicy
  /-- For patches that find no anchor. -/
  unmatchedAnchor : MissPolicy
  /-- Dotted names by operator, in the order of the operators' spellings. -/
  operators : List (String × String)
  /-- The extensions of the files to take, without the dot. -/
  extensions : List String
  /-- Names of directories whose files are never taken. -/
  ignoredDirs : List String

def Config.standard : Config where
  unresolvedDerive := .ignore
  unmatchedAnchor := .ignore
  operators := []
  extensions := ["kn"]
  ignoredDirs := ["node_modules"]

/-- A name with its dotted name, entered among those in order; a name that is there gets the new
dotted name. -/
def insertOperator (token callee : String) : List (String × String) → List (String × String)
  | [] => [(token, callee)]
  | (t, c) :: rest =>
    if token = t then (token, callee) :: rest
    else if token < t then (token, callee) :: (t, c) :: rest
    else (t, c) :: insertOperator token callee rest

/-- A file is taken if its extension is listed and no name on its path is that of an ignored
directory. -/
def Config.intercepts (config : Config) (path : SourcePath) : Bool :=
  match path.extension? with
  | none => false
  | some extension =>
    config.extensions.contains extension &&
      !path.components.any fun
        | .normal name => config.ignoredDirs.contains name
        | _ => false

end MacroEngine
