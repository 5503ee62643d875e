import MacroEngine.Tree.Basic
import MacroEngine.Text.Lines

/-!
# Fresh nodes

Nodes are built with the next unused identity. Operands are built before the node that holds them,
so identities grow from the leaves to the root. A new node comes from nowhere: its span is empty.
-/

namespace MacroEngine

/-- A computation that uses up node identities; the state is the next one. The counter never wraps
around, as one of 32 bits does. -/
abbrev Fresh := StateM NodeId

namespace Fresh

def id : Fresh NodeId := modifyGet fun next => (next, next + 1)

def stampAt (span : Span) : Fresh Stamp := return ⟨← id, span⟩

/-- A new stamp for a node from nowhere. -/
def stamp : Fresh Stamp := stampAt ⟨0, 0⟩

def ident (name : String) : Fresh Expr := return .ident (← stamp) name

def str (value : String) : Fresh Expr := return .str (← stamp) value

def number (digits : String) : Fresh Expr := return .number (← stamp) digits

def bool (value : Bool) : Fresh Expr := return .bool (← stamp) value

def null : Fresh Expr := return .null (← stamp)

def this : Fresh Expr := return .this (← stamp)

def unary (op : UnaryOp) (operand : Expr) : Fresh Expr := return .unary (← stamp) op operand

def binary (op : BinaryOp) (lhs rhs : Expr) : Fresh Expr := return .binary (← stamp) op lhs rhs

def member (object : Expr) (property : String) : Fresh Expr :=
  return .member (← stamp) object property

def call (callee : Expr) (args : List Expr) : Fresh Expr := return .call (← stamp) callee args

def array (items : List Expr) : Fresh Expr := return .array (← stamp) items

def assign (target value : Expr) : Fresh Expr := return .assign (← stamp) target value

def await (operand : Expr) : Fresh Expr := return .await (← stamp) operand

def arrow (params : List String) (isAsync : Bool) (body : Block) : Fresh Expr :=
  return .arrow (← stamp) params isAsync body

/-- `void 0`, which stands for a removed expression. -/
def voidZero : Fresh Expr := do unary .void (← number "0")

/-- Members of members of a name, one for each further segment. -/
def members (object : Expr) : List String → Fresh Expr
  | [] => return object
  | property :: more => do members (← member object property) more

/-- The expression `a.b.c` for a dotted name. -/
def path (dotted : String) : Fresh Expr :=
  match (Text.splitAt '.' dotted.toList).map String.ofList with
  | [] => ident ""
  | head :: more => do members (← ident head) more

def block (stmts : List Stmt) : Fresh Block := return ⟨← stamp, stmts⟩

def blockStmt (stmts : List Stmt) : Fresh Stmt := do
  let body ← block stmts
  return .block (← stamp) body

def exprStmt (value : Expr) : Fresh Stmt := return .expr (← stamp) value

/-- A variable that is not exported. -/
def binding (kind : VarKind) (name : String) (init : Option Expr) : Fresh Stmt :=
  return .binding (← stamp) kind name init .internal

def ret (value : Option Expr) : Fresh Stmt := return .ret (← stamp) value

def throwExpr (value : Expr) : Fresh Stmt := return .throwExpr (← stamp) value

def ifElse (condition : Expr) (consequence : Block) (alternative : Option Stmt) : Fresh Stmt :=
  return .ifElse (← stamp) condition consequence alternative

def whileLoop (condition : Expr) (body : Block) : Fresh Stmt :=
  return .whileLoop (← stamp) condition body

def forOf (name : String) (iterable : Expr) (body : Block) : Fresh Stmt :=
  return .forOf (← stamp) .constant name iterable body

def tryFinally (body finalizer : Block) : Fresh Stmt :=
  return .tryFinally (← stamp) body finalizer

def empty : Fresh Stmt := return .empty (← stamp)

def function (name : String) (params : List String) (body : Block) : Fresh Stmt :=
  return .function (← stamp) ⟨some name, params, false, none, .internal⟩ body

def classDecl (head : ClassHead) (members : List Member) : Fresh Stmt :=
  return .classDecl (← stamp) head members

def field (name : String) (init : Option Expr) : Fresh Member :=
  return .field (← stamp) name init

def method (name : String) (params : List String) (body : Block) : Fresh Member :=
  return .method (← stamp) ⟨name, params, false⟩ body

end Fresh

end MacroEngine
