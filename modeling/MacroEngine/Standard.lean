import MacroEngine.Loader
import MacroEngine.Text.Dedent
import MacroEngine.Tree.Printer
import MacroEngine.Tree.Shape

/-!
# The standard macros

One module holds them all. A session that has no other source of modules answers every path with
it, so a file that declares a macro by one of these names gets the standard body.
-/

namespace MacroEngine

namespace Standard

structure Entry where
  name : String
  kind : MacroKind
  summary : String

/-- The standard macros, in the order of their names. -/
def entries : List Entry :=
  [⟨"Clone", .derive, "adds a clone() method that copies own fields"⟩,
    ⟨"Fields", .derive, "adds a fields() method listing field names"⟩,
    ⟨"dedent", .template, "strips common indentation from a template"⟩,
    ⟨"env", .function, "inlines a compile-time environment variable"⟩,
    ⟨"hoist", .function, "evaluates an expression once at module level"⟩,
    ⟨"stringify", .function, "turns its argument into source text"⟩]

abbrev Environment := List (String × String)

def firstArg? (node : Node) : Option Expr := node.args?.bind List.head?

def replaceByString (value : String) : Work (List Edit) := do
  let e ← Work.build (Fresh.str value)
  return [.replace (.expr e)]

def stringType : TypeAnnotation := .intrinsic .string

def checkString : CheckHook := fun _ => return ⟨some stringType, []⟩

/-- `stringify!(e)` becomes the text of `e`. -/
def stringify : TransformHook := fun view =>
  match firstArg? view.node with
  | none => return []
  | some arg => replaceByString arg.print

def envName? (node : Node) : Option String := (firstArg? node).bind Expr.strValue?

/-- `env!("NAME")` becomes the value of a variable, or the empty string if it is not set. -/
def env (environment : Environment) : TransformHook := fun view =>
  match envName? view.node with
  | none => return []
  | some name => replaceByString ((environment.lookup name).getD "")

/-- Asks for a literal, and points out variables that are not set. -/
def checkEnv (environment : Environment) : CheckHook := fun view =>
  match envName? view.node with
  | none => return ⟨none, [(.error, "env! expects a string literal")]⟩
  | some name =>
    return ⟨some stringType,
      if (environment.lookup name).isSome then []
      else [(.suggestion, s!"environment variable {name} is not set; env! expands to \"\"")]⟩

def hoistedName (n : Nat) : String := s!"__hoisted_{n}"

/-- `hoist!(e)` becomes a name that a constant at the top of the file is set to. If the file has an
import, the constant comes after the first one. -/
def hoist : TransformHook := fun view =>
  match firstArg? view.node with
  | none => return []
  | some value => do
    let name := hoistedName (← Work.hoistNumber)
    let binding ← Work.build (Fresh.binding .constant name (some value))
    let place : Edit :=
      match view.statements.find? Stmt.isImport with
      | some first => .insertAfter binding fun s => s.id = first.id
      | none => .prepend binding
    let e ← Work.build (Fresh.ident name)
    return [place, .replace (.expr e)]

/-- A tagged template becomes its text without the shared indentation. -/
def dedent : TransformHook := fun view =>
  match view.node.raw? with
  | none => return []
  | some raw => replaceByString (Text.dedent raw)

def addMethod (method : ClassHead → List Member → Fresh Member) : TransformHook := fun view =>
  match view.node with
  | .stmt (.classDecl stamp head members) => do
    let added ← Work.build (method head members)
    return [.replace (.stmt (.classDecl stamp head (members ++ [added])))]
  | _ => return []

/-- `clone() { return Object.assign(Object.create(C.prototype), this); }` -/
def cloneMethod (head : ClassHead) (_ : List Member) : Fresh Member := do
  let prototype ← Fresh.member (← Fresh.ident head.name) "prototype"
  let assign ← Fresh.path "Object.assign"
  let create ← Fresh.path "Object.create"
  let blank ← Fresh.call create [prototype]
  let copy ← Fresh.call assign [blank, ← Fresh.this]
  let body ← Fresh.block [← Fresh.ret (some copy)]
  Fresh.method "clone" [] body

/-- `fields() { return ["a", "b"]; }`, for the fields of the class. -/
def fieldsMethod (_ : ClassHead) (members : List Member) : Fresh Member := do
  let names ← (members.filterMap Member.fieldName?).mapM Fresh.str
  let body ← Fresh.block [← Fresh.ret (some (← Fresh.array names))]
  Fresh.method "fields" [] body

def body (transform : TransformHook) (check : List CheckHook) : MacroBody :=
  fun _ => return ⟨[transform], check⟩

def module (environment : Environment) : MacroModule where
  exports :=
    [("Clone", body (addMethod cloneMethod) []),
      ("Fields", body (addMethod fieldsMethod) []),
      ("dedent", body dedent [checkString]),
      ("env", body (env environment) [checkEnv environment]),
      ("hoist", body hoist []),
      ("stringify", body stringify [checkString])]
  requires := []

/-- The table that answers every path with the standard macros. -/
def table (environment : Environment) : ModuleTable := ⟨[], some (module environment)⟩

end Standard

end MacroEngine
