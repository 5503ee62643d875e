import MacroEngine.Binding
import MacroEngine.Expansion
import MacroEngine.Lowering.Defer
import MacroEngine.Parse
import MacroEngine.Tree.Printer

/-!
# Compilation sessions

A session holds everything that compiling files builds up: node identities, the registry, the hooks
that were registered, and the operators to lower. A program is parsed, its declarations and sites
are entered, each file is expanded and lowered, and the trees are printed. All steps of an operation
share one session, and what a failed operation did before it failed stays done.
-/

namespace MacroEngine

structure Session where
  config : Config
  shop : Workshop
  registry : Registry
  hooks : HookCache
  operators : OperatorTable
  /-- Warnings, oldest first. -/
  warnings : List String

structure Report where
  sites : Nat
  derivedClasses : Nat
  patches : Nat
  deferBodies : Nat
  operators : Nat

structure CompiledFile where
  path : SourcePath
  text : String
  report : Report

/-- What a check hook said about one site. -/
structure CheckedSite where
  name : String
  span : Span
  type : Option TypeAnnotation

structure CheckReport where
  sites : List CheckedSite
  diagnostics : List Diagnostic

namespace Session

/-- A session over a table of modules. An operator of the settings that is none is an error. -/
def new (config : Config) (table : ModuleTable) : Except Error Session := do
  let operators ← OperatorTable.ofTokens config.operators .empty
  return {
    config
    shop := ⟨0, 0, []⟩
    registry := .empty
    hooks := .new table
    operators
    warnings := [] }

/-- The bound on the depth of an expansion: room for the file itself, and for what hooks put into
it. An expansion has no bound of its own. Where it goes on without end, until the stack is used up,
here it meets this bound and fails with `Error.endlessExpansion`. -/
def expansionDepth (file : SourceFile) : Nat := 20000 + 2 * file.items.length

abbrev Step := ExceptT Error (StateM Session)

def work {α : Type} (x : Work α) : StateM Session α :=
  modifyGet fun s =>
    let (a, shop) := x.run s.shop
    (a, { s with shop })

def build {α : Type} (x : Fresh α) : StateM Session α := work (Work.build x)

def registerOperator (op : BinaryOp) (callee : String) : StateM Session Unit :=
  modify fun s => { s with operators := s.operators.insert op callee }

/-- Forgets declarations, bindings and hooks. Node identities go on from where they are. -/
def reset : StateM Session Unit :=
  modify fun s => { s with registry := .empty, hooks := s.hooks.reset }

def parse (path : SourcePath) (text : String) : Step SourceFile :=
  ExceptT.mk (build (SourceFile.parse path text))

def collectAll : List SourceFile → Step Unit
  | [] => return ()
  | file :: more => do
    let s ← get
    match s.registry.collect file with
    | .error e => throw e
    | .ok registry => do
      set { s with registry }
      collectAll more

/-- Enters the declarations of files, then the files they import, then what each site means. No
hook runs before both passes are over, so a file may use macros of a later one. -/
def register (files : List SourceFile) : Step Unit := do
  collectAll files
  modify fun s =>
    let registry := (s.registry.collectDependencies files).2
    { s with registry := files.foldl (fun r file => (r.bindSites file).2) registry }

def expand (file : SourceFile) : StateM Session (SourceFile × Except Error ExpansionCounts) :=
  modifyGet fun s =>
    let out := file.expand s.registry s.config (expansionDepth file) s.shop s.hooks
    ((out.file, out.outcome),
      { s with
        shop := out.final.shop
        hooks := out.final.hooks
        warnings := s.warnings ++ out.final.warnings })

/-- Expands and lowers a file that is registered. After an error the file is half done. -/
def transform (file : SourceFile) : StateM Session (SourceFile × Except Error Report) := do
  match ← expand file with
  | (file, .error e) => return (file, .error e)
  | (file, .ok counts) =>
    match ← build (Lowering.defers file) with
    | (file, .error e) => return (file, .error e)
    | (file, .ok deferBodies) => do
      let s ← get
      let (file, operators) ←
        if s.operators.size = 0 then pure (file, 0)
        else build (Lowering.operators s.operators file)
      return (file, .ok ⟨counts.sites, counts.derivedClasses, counts.patches, deferBodies, operators⟩)

def compileRegistered (file : SourceFile) : Step CompiledFile := do
  let (file, outcome) ← (transform file : StateM Session _)
  let report ← ExceptT.mk (pure outcome)
  return ⟨file.path, file.print, report⟩

/-- Compiles texts as one program. -/
def compileFiles (inputs : List (SourcePath × String)) : Step (List CompiledFile) := do
  let files ← inputs.mapM fun (path, text) => parse path text
  register files
  files.mapM compileRegistered

/-- Compiles one text against what the session knows already. -/
def compileSource (path : SourcePath) (text : String) : Step String := do
  let file ← parse path text
  register [file]
  return (← compileRegistered file).text

/-- Compiles a text if the settings take files of its path. -/
def compileIntercepted (path : SourcePath) (text : String) : Step (Option String) := do
  if (← get).config.intercepts path then return some (← compileSource path text)
  else return none

def hooksFor (d : Declaration) : Step Hooks := do
  let s ← get
  let (hooks, cache) ← (work (s.hooks.hooksFor d) : StateM Session _)
  modify fun s => { s with hooks := cache }
  ExceptT.mk (pure (hooks.mapError .load))

/-- What the last check hook of a site's declaration says; nothing if there is no check hook. -/
def checkSite (path : SourcePath) (checker : TypeChecker) (d : Declaration) (site : Expr) :
    Step CheckAnswer := do
  let hooks ← hooksFor d
  match hooks.check.getLast? with
  | none => return ⟨none, []⟩
  | some check => (work (check ⟨.expr site, d, path, checker⟩) : StateM Session _)

def boundSites (r : Registry) (file : SourceFile) : List (Expr × String × Declaration) :=
  file.sites.filterMap fun e =>
    e.useSite?.bind fun (kind, name) => (r.binding? kind e.id).map fun d => (e, name, d)

/-- Runs the check hook of every bound site of a file that is registered. -/
def check (file : SourceFile) (checker : TypeChecker) : Step CheckReport := do
  let found := boundSites (← get).registry file
  let answers ← found.mapM fun (site, name, d) => do
    let answer ← checkSite file.path checker d site
    return (⟨name, site.span, answer.type⟩,
      answer.reports.map fun (severity, message) => ⟨severity, message, site.span⟩)
  return ⟨answers.map (·.1), (answers.map (·.2)).flatten⟩

end Session

end MacroEngine
