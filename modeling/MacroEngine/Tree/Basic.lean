import MacroEngine.SourcePath

/-!
# Trees of the host language

The host language is a small scripting language with three extensions: functions may declare
macros, classes may list derives, and function bodies may defer statements. A tree is made of
statements, expressions, blocks and class members. Every one of them carries a `Stamp`: its
identity within a session and the bytes of the text it came from. Identity is the stamp's, never
the structure's, so a copy of a node is the same node.
-/

namespace MacroEngine

/-- A range of bytes of a source text; `stop` is the first byte after it. -/
structure Span where
  start : Nat
  stop : Nat
deriving Repr, DecidableEq, Inhabited

def Span.length (span : Span) : Nat := span.stop - span.start

/-- The identity of a node within a session. Identities are numbers without a bound here. A session
counts them in 32 bits, so that after `2 ^ 32` nodes its counter begins anew and identities come
twice; what is proved of identities holds of a session as long as it has given fewer. -/
abbrev NodeId := Nat

/-- What every node carries: which node it is and where it came from. -/
structure Stamp where
  id : NodeId
  span : Span
deriving Repr, DecidableEq, Inhabited

/-- The three kinds of macros, by the way they are used: `name!(...)`, a tagged template, or the
`derives` list of a class. -/
inductive MacroKind where
  | function
  | template
  | derive
deriving Repr, DecidableEq

def MacroKind.label : MacroKind → String
  | .function => "function"
  | .template => "template"
  | .derive => "derive"

/-- How a declaration leaves its module. -/
inductive Visibility where
  | internal
  | named
  | default
deriving Repr, DecidableEq

inductive VarKind where
  | constant
  | mutable
deriving Repr, DecidableEq

def VarKind.label : VarKind → String
  | .constant => "const"
  | .mutable => "let"

/-- The operators written in front of their operand, `await` apart. -/
inductive UnaryOp where
  | not
  | neg
  | void
  | typeOf
deriving Repr, DecidableEq

def UnaryOp.token : UnaryOp → String
  | .not => "!"
  | .neg => "-"
  | .void => "void"
  | .typeOf => "typeof"

inductive BinaryOp where
  | or
  | and
  | strictEq
  | strictNe
  | eq
  | ne
  | le
  | ge
  | lt
  | gt
  | add
  | sub
  | mul
  | div
  | mod
  | pow
deriving Repr, DecidableEq

namespace BinaryOp

def all : List BinaryOp :=
  [.or, .and, .strictEq, .strictNe, .eq, .ne, .le, .ge, .lt, .gt, .add, .sub, .mul, .div, .mod, .pow]

def token : BinaryOp → String
  | .or => "||"
  | .and => "&&"
  | .strictEq => "==="
  | .strictNe => "!=="
  | .eq => "=="
  | .ne => "!="
  | .le => "<="
  | .ge => ">="
  | .lt => "<"
  | .gt => ">"
  | .add => "+"
  | .sub => "-"
  | .mul => "*"
  | .div => "/"
  | .mod => "%"
  | .pow => "**"

def ofToken? : String → Option BinaryOp
  | "||" => some .or
  | "&&" => some .and
  | "===" => some .strictEq
  | "!==" => some .strictNe
  | "==" => some .eq
  | "!=" => some .ne
  | "<=" => some .le
  | ">=" => some .ge
  | "<" => some .lt
  | ">" => some .gt
  | "+" => some .add
  | "-" => some .sub
  | "*" => some .mul
  | "/" => some .div
  | "%" => some .mod
  | "**" => some .pow
  | _ => none

/-- How tightly an operator binds; a higher number binds tighter. -/
def precedence : BinaryOp → Nat
  | .or => 1
  | .and => 2
  | .strictEq | .strictNe | .eq | .ne => 3
  | .le | .ge | .lt | .gt => 4
  | .add | .sub => 5
  | .mul | .div | .mod => 6
  | .pow => 7

/-- Powers group from the right, all other operators from the left. -/
def isRightAssociative (op : BinaryOp) : Bool := op = .pow

@[simp] theorem ofToken?_token (op : BinaryOp) : ofToken? op.token = some op := by
  cases op <;> decide

end BinaryOp

/-- Everything of a function but its body. -/
structure FunctionHead where
  name : Option String
  params : List String
  isAsync : Bool
  /-- Present when the function declares a macro. -/
  macroKind : Option MacroKind
  visibility : Visibility
deriving Repr, DecidableEq

structure MethodHead where
  name : String
  params : List String
  isAsync : Bool
deriving Repr, DecidableEq

structure ClassHead where
  name : String
  /-- The names after `derives`, in order. -/
  derives : List String
  visibility : Visibility
deriving Repr, DecidableEq

mutual

inductive Expr where
  | ident (stamp : Stamp) (name : String)
  /-- A numeric literal, as written. -/
  | number (stamp : Stamp) (digits : String)
  | str (stamp : Stamp) (value : String)
  | bool (stamp : Stamp) (value : Bool)
  | null (stamp : Stamp)
  | this (stamp : Stamp)
  /-- A template without a tag; the text between the backticks. -/
  | template (stamp : Stamp) (raw : String)
  | array (stamp : Stamp) (items : List Expr)
  | object (stamp : Stamp) (properties : List (String × Expr))
  | paren (stamp : Stamp) (inner : Expr)
  | member (stamp : Stamp) (object : Expr) (property : String)
  | call (stamp : Stamp) (callee : Expr) (args : List Expr)
  /-- A macro site `name!(args)`. -/
  | invoke (stamp : Stamp) (name : String) (args : List Expr)
  /-- A macro site made of a tag and a template. -/
  | tagged (stamp : Stamp) (tag : String) (raw : String)
  | unary (stamp : Stamp) (op : UnaryOp) (operand : Expr)
  | binary (stamp : Stamp) (op : BinaryOp) (lhs rhs : Expr)
  | assign (stamp : Stamp) (target value : Expr)
  | await (stamp : Stamp) (operand : Expr)
  /-- An arrow function with a block for a body. -/
  | arrow (stamp : Stamp) (params : List String) (isAsync : Bool) (body : Block)
  /-- An arrow function with an expression for a body. -/
  | arrowExpr (stamp : Stamp) (params : List String) (isAsync : Bool) (body : Expr)
  | function (stamp : Stamp) (head : FunctionHead) (body : Block)

inductive Stmt where
  | importNames (stamp : Stamp) (names : List String) (specifier : String)
  | function (stamp : Stamp) (head : FunctionHead) (body : Block)
  | classDecl (stamp : Stamp) (head : ClassHead) (members : List Member)
  | binding (stamp : Stamp) (kind : VarKind) (name : String) (init : Option Expr)
      (visibility : Visibility)
  | expr (stamp : Stamp) (value : Expr)
  | ret (stamp : Stamp) (value : Option Expr)
  /-- The alternative is another `ifElse` or a block. -/
  | ifElse (stamp : Stamp) (condition : Expr) (consequence : Block) (alternative : Option Stmt)
  | whileLoop (stamp : Stamp) (condition : Expr) (body : Block)
  | forOf (stamp : Stamp) (kind : VarKind) (name : String) (iterable : Expr) (body : Block)
  | block (stamp : Stamp) (body : Block)
  | defer (stamp : Stamp) (body : Block)
  | tryFinally (stamp : Stamp) (body finalizer : Block)
  | throwExpr (stamp : Stamp) (value : Expr)
  | empty (stamp : Stamp)

inductive Member where
  | field (stamp : Stamp) (name : String) (init : Option Expr)
  | method (stamp : Stamp) (head : MethodHead) (body : Block)

structure Block where
  stamp : Stamp
  stmts : List Stmt

end

instance : Inhabited Expr := ⟨.null default⟩
instance : Inhabited Stmt := ⟨.empty default⟩

namespace Expr

def stamp : Expr → Stamp
  | .ident s _ | .number s _ | .str s _ | .bool s _ | .null s | .this s | .template s _
  | .array s _ | .object s _ | .paren s _ | .member s _ _ | .call s _ _ | .invoke s _ _
  | .tagged s _ _ | .unary s _ _ | .binary s _ _ _ | .assign s _ _ | .await s _
  | .arrow s _ _ _ | .arrowExpr s _ _ _ | .function s _ _ => s

def withStamp (s : Stamp) : Expr → Expr
  | .ident _ n => .ident s n
  | .number _ d => .number s d
  | .str _ v => .str s v
  | .bool _ v => .bool s v
  | .null _ => .null s
  | .this _ => .this s
  | .template _ r => .template s r
  | .array _ es => .array s es
  | .object _ ps => .object s ps
  | .paren _ e => .paren s e
  | .member _ o p => .member s o p
  | .call _ c as => .call s c as
  | .invoke _ n as => .invoke s n as
  | .tagged _ t r => .tagged s t r
  | .unary _ o e => .unary s o e
  | .binary _ o l r => .binary s o l r
  | .assign _ t v => .assign s t v
  | .await _ e => .await s e
  | .arrow _ p a b => .arrow s p a b
  | .arrowExpr _ p a b => .arrowExpr s p a b
  | .function _ h b => .function s h b

def id (e : Expr) : NodeId := e.stamp.id

def span (e : Expr) : Span := e.stamp.span

def withSpan (span : Span) (e : Expr) : Expr := e.withStamp ⟨e.id, span⟩

@[simp] theorem stamp_withStamp (s : Stamp) (e : Expr) : (e.withStamp s).stamp = s := by
  cases e <;> rfl

@[simp] theorem withStamp_stamp (e : Expr) : e.withStamp e.stamp = e := by cases e <;> rfl

@[simp] theorem span_withSpan (span : Span) (e : Expr) : (e.withSpan span).span = span := by
  simp [withSpan, Expr.span]

@[simp] theorem id_withSpan (span : Span) (e : Expr) : (e.withSpan span).id = e.id := by
  simp [withSpan, Expr.id]

end Expr

namespace Stmt

def stamp : Stmt → Stamp
  | .importNames s _ _ | .function s _ _ | .classDecl s _ _ | .binding s _ _ _ _ | .expr s _
  | .ret s _ | .ifElse s _ _ _ | .whileLoop s _ _ | .forOf s _ _ _ _ | .block s _ | .defer s _
  | .tryFinally s _ _ | .throwExpr s _ | .empty s => s

def withStamp (s : Stamp) : Stmt → Stmt
  | .importNames _ ns m => .importNames s ns m
  | .function _ h b => .function s h b
  | .classDecl _ h ms => .classDecl s h ms
  | .binding _ k n i v => .binding s k n i v
  | .expr _ e => .expr s e
  | .ret _ e => .ret s e
  | .ifElse _ c t e => .ifElse s c t e
  | .whileLoop _ c b => .whileLoop s c b
  | .forOf _ k n i b => .forOf s k n i b
  | .block _ b => .block s b
  | .defer _ b => .defer s b
  | .tryFinally _ b f => .tryFinally s b f
  | .throwExpr _ e => .throwExpr s e
  | .empty _ => .empty s

def id (s : Stmt) : NodeId := s.stamp.id

def span (s : Stmt) : Span := s.stamp.span

def withSpan (span : Span) (s : Stmt) : Stmt := s.withStamp ⟨s.id, span⟩

def withId (id : NodeId) (s : Stmt) : Stmt := s.withStamp ⟨id, s.span⟩

@[simp] theorem stamp_withStamp (s : Stamp) (t : Stmt) : (t.withStamp s).stamp = s := by
  cases t <;> rfl

@[simp] theorem withStamp_stamp (t : Stmt) : t.withStamp t.stamp = t := by cases t <;> rfl

@[simp] theorem span_withSpan (span : Span) (t : Stmt) : (t.withSpan span).span = span := by
  simp [withSpan, Stmt.span]

@[simp] theorem id_withId (i : NodeId) (t : Stmt) : (t.withId i).id = i := by
  simp [withId, Stmt.id]

end Stmt

def Member.stamp : Member → Stamp
  | .field s _ _ | .method s _ _ => s

structure SourceFile where
  id : NodeId
  path : SourcePath
  statements : List Stmt
  span : Span

/-- A use site as hooks see it: an expression, a statement, or the gap that a removal leaves. -/
inductive Node where
  | expr (e : Expr)
  | stmt (s : Stmt)
  | void (span : Span)

namespace Node

def span : Node → Span
  | .expr e => e.span
  | .stmt s => s.span
  | .void span => span

def withSpan (span : Span) : Node → Node
  | .expr e => .expr (e.withSpan span)
  | .stmt s => .stmt (s.withSpan span)
  | .void _ => .void span

/-- The gap that a removal leaves. -/
def isVoid : Node → Bool
  | .void _ => true
  | _ => false

/-- The arguments of a site `name!(args)`. -/
def args? : Node → Option (List Expr)
  | .expr (.invoke _ _ args) => some args
  | _ => none

def raw? : Node → Option String
  | .expr (.tagged _ _ raw) => some raw
  | _ => none

@[simp] theorem span_withSpan (span : Span) (n : Node) : (n.withSpan span).span = span := by
  cases n <;> simp [withSpan, Node.span]

end Node

end MacroEngine
