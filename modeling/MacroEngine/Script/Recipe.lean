import MacroEngine.Declaration
import MacroEngine.Parse
import MacroEngine.Tree.Shape

/-!
# Recipes

A recipe says how to build a tree. Besides the forms of expressions and statements it has parts that
are taken from the site a hook runs at: arguments, the text of a template, the site itself, the name
of a class, the declaration. What is not there is the identifier `missing`. Parts are built from
left to right before the whole.
-/

namespace MacroEngine.Script

mutual

inductive ExprRecipe where
  | ident (name : String)
  | number (digits : String)
  | str (value : String)
  | bool (value : Bool)
  | null
  | this
  | voidZero
  /-- Members of members of a name. -/
  | path (dotted : String)
  | unary (op : UnaryOp) (operand : ExprRecipe)
  | binary (op : BinaryOp) (lhs rhs : ExprRecipe)
  | member (object : ExprRecipe) (property : String)
  | call (callee : ExprRecipe) (args : List ExprRecipe)
  | array (items : List ExprRecipe)
  | object (properties : List (String × ExprRecipe))
  | assign (target value : ExprRecipe)
  | await (operand : ExprRecipe)
  | arrow (params : List String) (body : List StmtRecipe) (isAsync : Bool)
  | arrowExpr (params : List String) (body : ExprRecipe) (isAsync : Bool)
  | function (name : Option String) (params : List String) (body : List StmtRecipe)
  | invoke (name : String) (args : List ExprRecipe)
  | tagged (tag : String) (raw : String)
  | template (raw : String)
  | paren (inner : ExprRecipe)
  /-- The expression of the first statement of a text. -/
  | source (text : String)
  /-- An argument of the site. -/
  | arg (index : Nat)
  /-- The text of the site's template, as a string. -/
  | raw
  /-- The site. -/
  | self
  /-- The name of the class at the site. -/
  | className
  /-- Name, kind and file of the declaration, as a string. -/
  | declared

inductive StmtRecipe where
  | expr (value : ExprRecipe)
  | binding (kind : VarKind) (name : String) (init : Option ExprRecipe)
  | ret (value : Option ExprRecipe)
  | throwExpr (value : ExprRecipe)
  | ifElse (condition : ExprRecipe) (consequence : List StmtRecipe)
      (alternative : Option StmtRecipe)
  | whileLoop (condition : ExprRecipe) (body : List StmtRecipe)
  | forOf (name : String) (iterable : ExprRecipe) (body : List StmtRecipe)
  | tryFinally (body finalizer : List StmtRecipe)
  | block (body : List StmtRecipe)
  | defer (body : List StmtRecipe)
  | function (name : String) (params : List String) (body : List StmtRecipe)
  | classDecl (name : String) (members : List MemberRecipe) (derives : List String)
  | empty
  /-- The first statement of a text. -/
  | source (text : String)
  /-- The site. -/
  | node

inductive MemberRecipe where
  | field (name : String) (init : Option ExprRecipe)
  | method (name : String) (params : List String) (body : List StmtRecipe)

end

instance : Inhabited ExprRecipe := ⟨.null⟩
instance : Inhabited StmtRecipe := ⟨.empty⟩
instance : Inhabited MemberRecipe := ⟨.field "" none⟩

/-- Where a recipe takes parts from. -/
structure Scene where
  node : Option Node
  declaration : Option Declaration

def Scene.nowhere : Scene := ⟨none, none⟩

/-- What stands for a part that is not there. -/
def missing : Fresh Expr := Fresh.ident "missing"

def firstStmt? (text : String) : Fresh (Option Stmt) := do
  match ← SourceFile.parse ⟨"main.kn"⟩ text with
  | .error _ => return none
  | .ok file => return file.statements.head?

/-- The first statement of a text, or an empty one. -/
def stmtOfText (text : String) : Fresh Stmt := do
  match ← firstStmt? text with
  | some s => return s
  | none => Fresh.empty

def exprOfText (text : String) : Fresh Expr := do
  match ← firstStmt? text with
  | some (.expr _ e) => return e
  | _ => missing

namespace Scene

def arg (scene : Scene) (index : Nat) : Fresh Expr :=
  match (scene.node.bind Node.args?).bind (·[index]?) with
  | some e => return e
  | none => missing

def raw (scene : Scene) : Fresh Expr :=
  match scene.node with
  | some node => Fresh.str (node.raw?.getD "")
  | none => missing

def self (scene : Scene) : Fresh Expr :=
  match scene.node with
  | some (.expr e) => return e
  | _ => missing

def className (scene : Scene) : Fresh Expr :=
  match scene.node with
  | some (.stmt (.classDecl _ head _)) => Fresh.ident head.name
  | _ => missing

def declared (scene : Scene) : Fresh Expr :=
  match scene.declaration with
  | some d => Fresh.str s!"{d.name}:{d.kind.label}:{d.file}"
  | none => missing

def stmt (scene : Scene) : Fresh Stmt :=
  match scene.node with
  | some (.stmt s) => return s
  | some (.expr e) => Fresh.exprStmt e
  | _ => Fresh.empty

end Scene

section Build

variable (scene : Scene)

mutual

def ExprRecipe.build : ExprRecipe → Fresh Expr
  | .ident name => Fresh.ident name
  | .number digits => Fresh.number digits
  | .str value => Fresh.str value
  | .bool value => Fresh.bool value
  | .null => Fresh.null
  | .this => Fresh.this
  | .voidZero => Fresh.voidZero
  | .path dotted => Fresh.path dotted
  | .unary op e => do Fresh.unary op (← e.build)
  | .binary op l r => do
    let l ← l.build
    Fresh.binary op l (← r.build)
  | .member o p => do Fresh.member (← o.build) p
  | .call c as => do
    let c ← c.build
    Fresh.call c (← ExprRecipe.buildAll as)
  | .array es => do Fresh.array (← ExprRecipe.buildAll es)
  | .object ps => do
    let ps ← ExprRecipe.buildProperties ps
    return .object (← Fresh.stamp) ps
  | .assign t v => do
    let t ← t.build
    Fresh.assign t (← v.build)
  | .await e => do Fresh.await (← e.build)
  | .arrow params body isAsync => do
    let body ← Fresh.block (← StmtRecipe.buildAll body)
    Fresh.arrow params isAsync body
  | .arrowExpr params e isAsync => do
    let e ← e.build
    return .arrowExpr (← Fresh.stamp) params isAsync e
  | .function name params body => do
    let body ← Fresh.block (← StmtRecipe.buildAll body)
    return .function (← Fresh.stamp) ⟨name, params, false, none, .internal⟩ body
  | .invoke name as => do
    let as ← ExprRecipe.buildAll as
    return .invoke (← Fresh.stamp) name as
  | .tagged tag raw => return .tagged (← Fresh.stamp) tag raw
  | .template raw => return .template (← Fresh.stamp) raw
  | .paren e => do
    let e ← e.build
    return .paren (← Fresh.stamp) e
  | .source text => exprOfText text
  | .arg index => scene.arg index
  | .raw => scene.raw
  | .self => scene.self
  | .className => scene.className
  | .declared => scene.declared

def ExprRecipe.buildAll : List ExprRecipe → Fresh (List Expr)
  | [] => return []
  | r :: rs => do
    let e ← r.build
    return e :: (← ExprRecipe.buildAll rs)

def ExprRecipe.buildProperties : List (String × ExprRecipe) → Fresh (List (String × Expr))
  | [] => return []
  | (k, r) :: rs => do
    let e ← r.build
    return (k, e) :: (← ExprRecipe.buildProperties rs)

def StmtRecipe.build : StmtRecipe → Fresh Stmt
  | .expr e => do Fresh.exprStmt (← e.build)
  | .binding kind name none => Fresh.binding kind name none
  | .binding kind name (some e) => do Fresh.binding kind name (some (← e.build))
  | .ret none => Fresh.ret none
  | .ret (some e) => do Fresh.ret (some (← e.build))
  | .throwExpr e => do Fresh.throwExpr (← e.build)
  | .ifElse c t none => do
    let c ← c.build
    let t ← Fresh.block (← StmtRecipe.buildAll t)
    Fresh.ifElse c t none
  | .ifElse c t (some e) => do
    let c ← c.build
    let t ← Fresh.block (← StmtRecipe.buildAll t)
    Fresh.ifElse c t (some (← e.build))
  | .whileLoop c b => do
    let c ← c.build
    let b ← Fresh.block (← StmtRecipe.buildAll b)
    Fresh.whileLoop c b
  | .forOf name e b => do
    let e ← e.build
    let b ← Fresh.block (← StmtRecipe.buildAll b)
    Fresh.forOf name e b
  | .tryFinally b f => do
    let b ← Fresh.block (← StmtRecipe.buildAll b)
    let f ← Fresh.block (← StmtRecipe.buildAll f)
    Fresh.tryFinally b f
  | .block b => do Fresh.blockStmt (← StmtRecipe.buildAll b)
  | .defer b => do
    let b ← Fresh.block (← StmtRecipe.buildAll b)
    return .defer (← Fresh.stamp) b
  | .function name params b => do
    let b ← Fresh.block (← StmtRecipe.buildAll b)
    Fresh.function name params b
  | .classDecl name members derives => do
    let members ← MemberRecipe.buildAll members
    Fresh.classDecl ⟨name, derives, .internal⟩ members
  | .empty => Fresh.empty
  | .source text => stmtOfText text
  | .node => scene.stmt

def StmtRecipe.buildAll : List StmtRecipe → Fresh (List Stmt)
  | [] => return []
  | r :: rs => do
    let s ← r.build
    return s :: (← StmtRecipe.buildAll rs)

def MemberRecipe.build : MemberRecipe → Fresh Member
  | .field name none => Fresh.field name none
  | .field name (some e) => do Fresh.field name (some (← e.build))
  | .method name params b => do
    let b ← Fresh.block (← StmtRecipe.buildAll b)
    Fresh.method name params b

def MemberRecipe.buildAll : List MemberRecipe → Fresh (List Member)
  | [] => return []
  | r :: rs => do
    let m ← r.build
    return m :: (← MemberRecipe.buildAll rs)

end

end Build

end MacroEngine.Script
