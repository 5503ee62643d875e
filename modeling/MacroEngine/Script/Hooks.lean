import MacroEngine.Loader
import MacroEngine.Script.Recipe
import MacroEngine.Text.Blank
import MacroEngine.Tree.Printer

/-!
# Scripted hooks

Macro modules given as data. A transform hook is a list of actions that it carries out in order; a
check hook is a list of reports and an answer. Scripted macros write to the log when their body runs
and when one of their hooks is entered.
-/

namespace MacroEngine.Script

/-- What a scripted hook takes for an anchor. -/
inductive Anchor where
  | any
  /-- Statements with this text, blanks around it apart. -/
  | is (text : String)
  /-- Statements whose text contains this one. -/
  | has (text : String)
  | importStmt
  | authoringImport
  | derivedClass
  | classDecl
  | ret
  | defer
  | declaration
  | never

def occursIn (part : List Char) : List Char → Bool
  | [] => part.isEmpty
  | c :: rest => part.isPrefixOf (c :: rest) || occursIn part rest

def Anchor.accepts : Anchor → Stmt → Bool
  | .any, _ => true
  | .is text, s => Text.trimmed s.print = text
  | .has text, s => occursIn text.toList s.print.toList
  | .importStmt, s => s.isImport
  | .authoringImport, s => s.isAuthoringImport
  | .derivedClass, s => s.isDerivedClass
  | .classDecl, s => s.isClass
  | .ret, s => s.isReturn
  | .defer, s => s.isDefer
  | .declaration, s => s.declaredKind?.isSome
  | .never, _ => false

/-- What a scripted hook may ask about its site. -/
inductive Condition where
  | isVoid
  | isExpr
  | isStmt
  | isClass
  /-- The site has at least one argument. -/
  | hasArgs
  | isTemplate

def Condition.holds : Condition → Node → Bool
  | .isVoid, node => node.isVoid
  | .isExpr, .expr _ => true
  | .isStmt, .stmt _ => true
  | .isClass, .stmt s => s.isClass
  | .hasArgs, node => !(node.args?.getD []).isEmpty
  | .isTemplate, node => node.raw?.isSome
  | _, _ => false

/-- What a scripted hook puts in place of its site. -/
inductive NodeRecipe where
  | expr (e : ExprRecipe)
  | stmt (s : StmtRecipe)
  | void

inductive Action where
  | replace (recipe : NodeRecipe)
  | remove
  | before (s : StmtRecipe)
  | after (s : StmtRecipe)
  | prepend (s : StmtRecipe)
  | append (s : StmtRecipe)
  | insertBefore (s : StmtRecipe) (anchor : Anchor)
  | insertAfter (s : StmtRecipe) (anchor : Anchor)
  /-- Replace a class by one with a further member. -/
  | addMember (m : MemberRecipe)
  /-- Replace a class by one with another name, or with other derives. -/
  | rename (name : String)
  | setDerives (names : List String)
  | when (condition : Condition) (yes no : List Action)
  /-- Write the path and the statements of the file to the log. -/
  | logFile

def nodeText : Node → String
  | .expr e => Text.trimmedEnd e.print
  | .stmt s => Text.trimmedEnd s.print
  | .void _ => "<void>"

/-- Asks to replace a class by an edited one; other sites stay. -/
def editClass (node : Node) (edit : ClassHead → List Member → Fresh (ClassHead × List Member)) :
    Work (List Edit) :=
  match node with
  | .stmt (.classDecl stamp head members) => do
    let (head, members) ← Work.build (edit head members)
    return [.replace (.stmt (.classDecl stamp head members))]
  | _ => return []

section Actions

variable (view : SiteView)

def sceneOf : Scene := ⟨some view.node, some view.declaration⟩

def buildStmt (s : StmtRecipe) : Work Stmt := Work.build (s.build (sceneOf view))

def buildNode : NodeRecipe → Work Node
  | .expr e => return .expr (← Work.build (e.build (sceneOf view)))
  | .stmt s => return .stmt (← buildStmt view s)
  | .void => return .void view.node.span

def sayAll : List String → Work Unit
  | [] => return ()
  | line :: more => do
    Work.say line
    sayAll more

mutual

def Action.run : Action → Work (List Edit)
  | .replace recipe => return [.replace (← buildNode view recipe)]
  | .remove => return [.remove]
  | .before s => return [.before (← buildStmt view s)]
  | .after s => return [.after (← buildStmt view s)]
  | .prepend s => return [.prepend (← buildStmt view s)]
  | .append s => return [.append (← buildStmt view s)]
  | .insertBefore s anchor => return [.insertBefore (← buildStmt view s) anchor.accepts]
  | .insertAfter s anchor => return [.insertAfter (← buildStmt view s) anchor.accepts]
  | .addMember m =>
    editClass view.node fun head members => return (head, members ++ [← m.build (sceneOf view)])
  | .rename name => editClass view.node fun head members => return ({ head with name }, members)
  | .setDerives derives =>
    editClass view.node fun head members => return ({ head with derives }, members)
  | .when condition yes no =>
    if condition.holds view.node then Action.runAll yes else Action.runAll no
  | .logFile => do
    sayAll (s!"file {view.path}" :: view.statements.map fun s => "| " ++ Text.trimmedEnd s.print)
    return []

def Action.runAll : List Action → Work (List Edit)
  | [] => return []
  | a :: as => do
    let edits ← a.run
    return edits ++ (← Action.runAll as)

end

end Actions

/-- A scripted check hook. Its reports come in the order of the fields. -/
structure CheckScript where
  reports : List (Severity × String)
  /-- Report what the checker calls this type. -/
  tell : Option Nat
  /-- Report where the check runs. -/
  place : Bool
  /-- Answer with the type of this argument. -/
  ofArg : Option Nat
  /-- Answer with this type. -/
  answer : Option TypeAnnotation

def CheckScript.hook (script : CheckScript) : CheckHook := fun view =>
  let told := script.tell.toList.map fun id => (Severity.message, view.checker.describe id)
  let place :=
    if script.place then [(Severity.message, s!"{view.declaration.name} in {view.path}")] else []
  let type :=
    match script.ofArg with
    | some i => (((view.node.args?.getD [])[i]?).bind view.checker.typeOf?).map .resolved
    | none => script.answer
  return ⟨type, script.reports ++ told ++ place⟩

structure MacroScript where
  transform : List (List Action)
  check : List CheckScript

def entryLine (what name : String) (index : Nat) (node : Node) : String :=
  s!"{what} {name}#{index} [{node.span.start}..{node.span.stop}] {nodeText node}"

def MacroScript.body (script : MacroScript) (name : String) : MacroBody := fun d => do
  Work.say s!"body {name} {d.kind.label} {d.name}"
  let transform : List TransformHook := script.transform.mapIdx fun i actions view => do
    Work.say (entryLine "transform" name i view.node)
    Action.runAll view actions
  let check : List CheckHook := script.check.mapIdx fun i check view => do
    Work.say (entryLine "check" name i view.node)
    check.hook view
  return ⟨transform, check⟩

def moduleOf (macros : List (String × MacroScript)) (requires : List SourcePath) : MacroModule :=
  let withAll : MacroModule :=
    macros.foldl (fun m entry => m.withExport entry.1 (entry.2.body entry.1)) MacroModule.empty
  { withAll with requires }

end MacroEngine.Script
