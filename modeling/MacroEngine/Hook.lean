import MacroEngine.Declaration
import MacroEngine.Tree.Fresh
import MacroEngine.TypeAnnotation

/-!
# Hooks

The body of a macro does not see a use site. It registers hooks, and these run once for each site:
transform hooks ask for edits, check hooks describe the type of the site. A hook is a function from
what it is shown. Beside its answer it may use up node identities, take part in the numbering of
hoisted names, and write to a log; these three make the `Workshop` that all hooks share.
-/

namespace MacroEngine

/-- What hooks share. -/
structure Workshop where
  /-- The next node identity. -/
  nextId : NodeId
  /-- How many names have been given to hoisted expressions. -/
  hoisted : Nat
  /-- Lines that hooks wrote. -/
  log : List String
deriving Inhabited

abbrev Work := StateM Workshop

namespace Work

def build {α : Type} (x : Fresh α) : Work α :=
  modifyGet fun w =>
    let (a, nextId) := x.run w.nextId
    (a, { w with nextId })

def say (line : String) : Work Unit := modify fun w => { w with log := w.log ++ [line] }

def hoistNumber : Work Nat := modifyGet fun w => (w.hoisted, { w with hoisted := w.hoisted + 1 })

end Work

/-- What a transform hook is shown: the site as earlier hooks left it, the declaration that governs
it, and the file with its statements as parsed. -/
structure SiteView where
  node : Node
  declaration : Declaration
  path : SourcePath
  statements : List Stmt

inductive Edit where
  /-- Put a node in place of the site. -/
  | replace (node : Node)
  /-- Take the site away. -/
  | remove
  /-- Put a statement before, or after, the statement that holds the site. -/
  | before (s : Stmt)
  | after (s : Stmt)
  /-- Put a statement at the top, or at the end, of the file. -/
  | prepend (s : Stmt)
  | append (s : Stmt)
  /-- Put a statement before, or after, the first statement of the file that `anchor` accepts. -/
  | insertBefore (s : Stmt) (anchor : Stmt → Bool)
  | insertAfter (s : Stmt) (anchor : Stmt → Bool)

abbrev TransformHook := SiteView → Work (List Edit)

/-- What the checker of the host language says. -/
structure TypeChecker where
  typeOf? : Expr → Option Nat
  describe : Nat → String

def TypeChecker.blank : TypeChecker := ⟨fun _ => none, fun id => "#" ++ toString id⟩

inductive Severity where
  | message
  | suggestion
  | error
deriving Repr, DecidableEq

def Severity.label : Severity → String
  | .message => "message"
  | .suggestion => "suggestion"
  | .error => "error"

/-- What a check hook reports about its site. -/
structure Diagnostic where
  severity : Severity
  message : String
  span : Span

/-- What a check hook is shown. -/
structure CheckView where
  node : Node
  declaration : Declaration
  path : SourcePath
  checker : TypeChecker

/-- What a check hook answers: the type of the site, if it knows one, and reports. -/
structure CheckAnswer where
  type : Option TypeAnnotation
  reports : List (Severity × String)

abbrev CheckHook := CheckView → Work CheckAnswer

/-- The hooks of one declaration, in the order of their registration. -/
structure Hooks where
  transform : List TransformHook
  check : List CheckHook

/-- The body of a macro: run for a declaration, it registers hooks. -/
abbrev MacroBody := Declaration → Work Hooks

/-- A macro module: bodies by export, and the modules to load first. -/
structure MacroModule where
  exports : List (String × MacroBody)
  requires : List SourcePath

namespace MacroModule

def empty : MacroModule := ⟨[], []⟩

def insertExport (name : String) (body : MacroBody) :
    List (String × MacroBody) → List (String × MacroBody)
  | [] => [(name, body)]
  | (n, b) :: rest =>
    if name = n then (n, body) :: rest
    else if name < n then (name, body) :: (n, b) :: rest
    else (n, b) :: insertExport name body rest

/-- The module with one more export, in place of one of the same name. -/
def withExport (m : MacroModule) (name : String) (body : MacroBody) : MacroModule :=
  { m with exports := insertExport name body m.exports }

def get? (m : MacroModule) (name : String) : Option MacroBody := m.exports.lookup name

def exportNames (m : MacroModule) : List String := m.exports.map (·.1)

end MacroModule

end MacroEngine
