import MacroEngine.Grammar.Infix
import MacroEngine.Grammar.Peg
import MacroEngine.Tree.Fresh
import MacroEngine.Text.Quoted

/-!
# From matched rules to trees

The tree of rules that a text matched is read into a tree of nodes. Nodes are numbered as they are
finished: operands before the node that holds them, and an operator once its right operand is
complete. Methods and arrow functions use up one identity before their contents. Infix operators
are grouped by precedence with a stack of the operands that still wait for their right side.

Reading fails only on trees of rules that the grammar does not produce.
-/

namespace MacroEngine.Grammar

/-- A computation that numbers nodes and may meet a tree of rules it cannot read. -/
abbrev Reading := StateT NodeId Option

namespace Reading

/-- A stamp for a node that reaches from `start` to `stop`. -/
def stampFrom (start stop : Nat) : Reading Stamp :=
  modifyGet fun next => (⟨next, ⟨start, stop⟩⟩, next + 1)

def skipId : Reading Unit := modify (· + 1)

end Reading

open Reading

def textsOf (r : Rule) (ps : List Pair) : List String :=
  (ps.filter (·.rule = r)).map Pair.text

def textOf (r : Rule) (ps : List Pair) : String := (textsOf r ps).getLastD ""

def has (r : Rule) (ps : List Pair) : Bool := ps.any (·.rule = r)

def identifiersIn (r : Rule) (ps : List Pair) : List String :=
  (ps.filter (·.rule = r)).flatMap fun p => textsOf .identifier p.inner

def insideText (p : Pair) : String := (p.inner.head?.map Pair.text).getD ""

def stringValue (p : Pair) : String := String.ofList (Text.unescape (insideText p).toList)

def visibilityOf (ps : List Pair) : Visibility :=
  if has .exportDefault ps then .default else if has .exportNamed ps then .named else .internal

def macroKindOf (ps : List Pair) : Option MacroKind :=
  (ps.find? (·.rule = .macroModifier)).map fun p =>
    if has .macroTemplate p.inner then .template
    else if has .macroDerive p.inner then .derive
    else .function

def functionHeadOf (ps : List Pair) : FunctionHead where
  name := (textsOf .identifier ps).getLast?
  params := identifiersIn .params ps
  isAsync := has .asyncWord ps
  macroKind := macroKindOf ps
  visibility := visibilityOf ps

def methodHeadOf (ps : List Pair) : MethodHead where
  name := textOf .propertyName ps
  params := identifiersIn .params ps
  isAsync := has .asyncWord ps

def classHeadOf (ps : List Pair) : ClassHead where
  name := textOf .identifier ps
  derives := identifiersIn .derivesClause ps
  visibility := visibilityOf ps

def varKindOf (ps : List Pair) : VarKind := if has .varLet ps then .mutable else .constant

/-- An operand that waits for its right side, with the operator between them. -/
abbrev Waiting := List (Expr × BinaryOp)

/-- Joins an operand to the one that waits for it. -/
def joinOperands (lhs : Expr) (op : BinaryOp) (rhs : Expr) : Reading Expr :=
  return .binary (← stampFrom lhs.span.start rhs.span.stop) op lhs rhs

/-- Joins an operand to all that wait for it and close before `next`. -/
def closeBefore (next : BinaryOp) : Waiting → Expr → Reading (Waiting × Expr)
  | [], e => return ([], e)
  | (lhs, op) :: waiting, e =>
    if closesBefore op next then do closeBefore next waiting (← joinOperands lhs op e)
    else return ((lhs, op) :: waiting, e)

def closeAll : Waiting → Expr → Reading Expr
  | [], e => return e
  | (lhs, op) :: waiting, e => do closeAll waiting (← joinOperands lhs op e)

def applyPrefix (p : Pair) (operand : Expr) : Reading Expr := do
  let stamp ← stampFrom p.start operand.span.stop
  return match p.text with
    | "await" => .await stamp operand
    | "!" => .unary stamp .not operand
    | "-" => .unary stamp .neg operand
    | "void" => .unary stamp .void operand
    | _ => .unary stamp .typeOf operand

mutual

def exprOf : Pair → Reading Expr
  | .mk .expression _ _ _ [target] => exprOf target
  | .mk .expression i j _ [target, value] => do
    let target ← exprOf target
    let value ← exprOf value
    return .assign (← stampFrom i j) target value
  | .mk .binary _ _ _ (first :: more) => do infixOf [] (← prefixedOf first) more
  | _ => failure

def exprsOf : List Pair → Reading (List Expr)
  | [] => return []
  | p :: ps => do
    let e ← exprOf p
    return e :: (← exprsOf ps)

def infixOf (waiting : Waiting) (e : Expr) : List Pair → Reading Expr
  | [] => closeAll waiting e
  | .mk (.op op) _ _ _ _ :: operand :: more => do
    let (waiting, lhs) ← closeBefore op waiting e
    infixOf ((lhs, op) :: waiting) (← prefixedOf operand) more
  | _ => failure

def prefixedOf : Pair → Reading Expr
  | .mk .prefixed _ _ _ ps => operandOf ps
  | _ => failure

def operandOf : List Pair → Reading Expr
  | [.mk .postfixed _ _ _ (p :: suffixes)] => do suffixedOf (← primaryOf p) suffixes
  | op :: rest => do applyPrefix op (← operandOf rest)
  | [] => failure

def suffixedOf (e : Expr) : List Pair → Reading Expr
  | [] => return e
  | .mk .callArgs _ j _ args :: more => do
    let args ← exprsOf args
    suffixedOf (.call (← stampFrom e.span.start j) e args) more
  | .mk .memberAccess _ j _ ps :: more => do
    suffixedOf (.member (← stampFrom e.span.start j) e (textOf .propertyName ps)) more
  | _ => failure

def primaryOf : Pair → Reading Expr
  | .mk .identifier i j s ps => return .ident (← stampFrom i j) (Pair.mk .identifier i j s ps).text
  | .mk .number i j s ps => return .number (← stampFrom i j) (Pair.mk .number i j s ps).text
  | .mk .string i j s ps => return .str (← stampFrom i j) (stringValue (.mk .string i j s ps))
  | .mk .template i j s ps =>
    return .template (← stampFrom i j) (insideText (.mk .template i j s ps))
  | .mk .boolean i j s ps =>
    return .bool (← stampFrom i j) ((Pair.mk .boolean i j s ps).text = "true")
  | .mk .nullLit i j _ _ => return .null (← stampFrom i j)
  | .mk .thisLit i j _ _ => return .this (← stampFrom i j)
  | .mk .array i j _ ps => do
    let items ← exprsOf ps
    return .array (← stampFrom i j) items
  | .mk .object i j _ ps => do
    let properties ← propertiesOf ps
    return .object (← stampFrom i j) properties
  | .mk .paren i j _ [p] => do
    let inner ← exprOf p
    return .paren (← stampFrom i j) inner
  | .mk .macroCall i j _ [name, .mk .callArgs _ _ _ args] => do
    let args ← exprsOf args
    return .invoke (← stampFrom i j) name.text args
  | .mk .taggedTemplate i j _ [tag, raw] =>
    return .tagged (← stampFrom i j) tag.text (insideText raw)
  | .mk .arrowFn i j _ ps => do
    skipId
    let body ← arrowBodyOf ps
    let stamp ← stampFrom i j
    let names := identifiersIn .arrowParams ps
    return match body with
      | .inl block => .arrow stamp names (has .asyncWord ps) block
      | .inr e => .arrowExpr stamp names (has .asyncWord ps) e
  | .mk .functionExpr i j _ ps => do
    let body ← bodyOf ps
    return .function (← stampFrom i j) (functionHeadOf ps) body
  | _ => failure

def propertiesOf : List Pair → Reading (List (String × Expr))
  | [] => return []
  | .mk .property _ _ _ [key, value] :: more => do
    let name := if key.rule = .string then stringValue key else key.text
    let e ← exprOf value
    return (name, e) :: (← propertiesOf more)
  | _ => failure

/-- The body of an arrow function: a block or an expression. -/
def arrowBodyOf : List Pair → Reading (Block ⊕ Expr)
  | [] => failure
  | p :: ps =>
    if p.rule = .block then return .inl (← blockOf p)
    else if p.rule = .expression then return .inr (← exprOf p)
    else arrowBodyOf ps

def bodyOf : List Pair → Reading Block
  | [] => failure
  | p :: ps => if p.rule = .block then blockOf p else bodyOf ps

def blockOf : Pair → Reading Block
  | .mk .block i j _ ps => do
    let stmts ← stmtsOf ps
    return ⟨← stampFrom i j, stmts⟩
  | _ => failure

def membersOf : List Pair → Reading (List Member)
  | [] => return []
  | .mk .methodMember i j _ ps :: more => do
    skipId
    let body ← bodyOf ps
    let stamp ← stampFrom i j
    return .method stamp (methodHeadOf ps) body :: (← membersOf more)
  | .mk .fieldMember i j _ ps :: more => do
    let init ← initOf ps
    let stamp ← stampFrom i j
    return .field stamp (textOf .propertyName ps) init :: (← membersOf more)
  | _ :: more => membersOf more

def initOf : List Pair → Reading (Option Expr)
  | [] => return none
  | p :: ps => if p.rule = .expression then return some (← exprOf p) else initOf ps

def stmtsOf : List Pair → Reading (List Stmt)
  | [] => return []
  | p :: ps => do
    let s ← stmtOf p
    return s :: (← stmtsOf ps)

def stmtOf : Pair → Reading Stmt
  | .mk .importStmt i j _ ps =>
    return .importNames (← stampFrom i j) (textsOf .identifier ps)
      (((ps.find? (·.rule = .string)).map stringValue).getD "")
  | .mk .functionDecl i j _ ps => do
    let body ← bodyOf ps
    return .function (← stampFrom i j) (functionHeadOf ps) body
  | .mk .classDecl i j _ ps => do
    let members ← membersOf ps
    return .classDecl (← stampFrom i j) (classHeadOf ps) members
  | .mk .variableStmt i j _ ps => do
    let init ← initOf ps
    return .binding (← stampFrom i j) (varKindOf ps) (textOf .identifier ps) init (visibilityOf ps)
  | .mk .returnStmt i j _ ps => do
    let value ← initOf ps
    return .ret (← stampFrom i j) value
  | .mk .ifStmt i j _ [_, condition, consequence] => do
    let condition ← exprOf condition
    let consequence ← blockOf consequence
    return .ifElse (← stampFrom i j) condition consequence none
  | .mk .ifStmt i j _ [_, condition, consequence, _, alternative] => do
    let condition ← exprOf condition
    let consequence ← blockOf consequence
    let alternative ← stmtOf alternative
    return .ifElse (← stampFrom i j) condition consequence (some alternative)
  | .mk .whileStmt i j _ [_, condition, body] => do
    let condition ← exprOf condition
    let body ← blockOf body
    return .whileLoop (← stampFrom i j) condition body
  | .mk .forOfStmt i j _ [_, kind, name, _, iterable, body] => do
    let iterable ← exprOf iterable
    let body ← blockOf body
    return .forOf (← stampFrom i j) (varKindOf [kind]) name.text iterable body
  | .mk .deferStmt i j _ [_, body] => do
    let body ← blockOf body
    return .defer (← stampFrom i j) body
  | .mk .tryStmt i j _ [_, body, _, finalizer] => do
    let body ← blockOf body
    let finalizer ← blockOf finalizer
    return .tryFinally (← stampFrom i j) body finalizer
  | .mk .throwStmt i j _ [_, value] => do
    let value ← exprOf value
    return .throwExpr (← stampFrom i j) value
  | .mk .block i j _ ps => do
    let stmts ← stmtsOf ps
    let stamp ← stampFrom i j
    return .block (← stampFrom i j) ⟨stamp, stmts⟩
  | .mk .emptyStmt i j _ _ => return .empty (← stampFrom i j)
  | .mk .exprStmt i j _ [value] => do
    let value ← exprOf value
    return .expr (← stampFrom i j) value
  | _ => failure

end

def fileOf (path : SourcePath) (p : Pair) : Reading SourceFile := do
  let statements ← stmtsOf (p.inner.filter (·.rule ≠ .endOfInput))
  let stamp ← stampFrom p.start p.stop
  return ⟨stamp.id, path, statements, stamp.span⟩

end MacroEngine.Grammar
