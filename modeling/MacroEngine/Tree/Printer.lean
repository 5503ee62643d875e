import MacroEngine.Tree.Basic
import MacroEngine.Text.Quoted

/-!
# Printing trees

The normal text of a tree: four blanks per level of nesting, double-quoted strings, and parentheses
only where an operand binds less tightly than its place asks for. A place states the least level it
takes, and `Expr.level` says how tightly an expression binds.
-/

namespace MacroEngine

namespace Level

/-- Assignments and arrow functions bind least. Binary operators have levels 1 to 7. -/
def assign : Nat := 0

def unary : Nat := 8

def postfixed : Nat := 9

def primary : Nat := 10

end Level

def Expr.level : Expr → Nat
  | .assign _ _ _ | .arrow _ _ _ _ | .arrowExpr _ _ _ _ => Level.assign
  | .binary _ op _ _ => op.precedence
  | .unary _ _ _ | .await _ _ => Level.unary
  | .member _ _ _ | .call _ _ _ | .invoke _ _ _ | .tagged _ _ _ => Level.postfixed
  | _ => Level.primary

namespace Printer

def margin (depth : Nat) : String := String.ofList (List.replicate (4 * depth) ' ')

def isNameStart (c : Char) : Bool := c.isAlpha || c = '_' || c = '$'

def isNameChar (c : Char) : Bool := c.isAlphanum || c = '_' || c = '$'

/-- A text that can stand as the key of a property without quotes. -/
def isPlainKey (key : String) : Bool :=
  match key.toList with
  | [] => false
  | c :: rest => isNameStart c && rest.all isNameChar

def key (name : String) : String := if isPlainKey name then name else Text.quote name

def parens (text : String) : String := "(" ++ text ++ ")"

/-- The text of an expression in a place that takes level `least` and above. -/
def place (least : Nat) (e : Expr) (text : String) : String :=
  if e.level < least then parens text else text

def params (names : List String) : String := parens (", ".intercalate names)

def visibility : Visibility → String
  | .internal => ""
  | .named => "export "
  | .default => "export default "

def macroWords : Option MacroKind → String
  | none => ""
  | some .function => "macro "
  | some .template => "macro template "
  | some .derive => "macro derive "

def asyncWord (isAsync : Bool) : String := if isAsync then "async " else ""

def functionHead (head : FunctionHead) : String :=
  visibility head.visibility ++ macroWords head.macroKind ++ asyncWord head.isAsync ++ "function" ++
    (match head.name with
      | none => ""
      | some name => " " ++ name) ++
    params head.params ++ " "

def methodHead (head : MethodHead) : String :=
  asyncWord head.isAsync ++ head.name ++ params head.params ++ " "

def classHead (head : ClassHead) : String :=
  visibility head.visibility ++ "class " ++ head.name ++
    (if head.derives.isEmpty then "" else " derives " ++ ", ".intercalate head.derives)

/-- The part of a binary operator's operands' levels: left, then right. -/
def operandLevels (op : BinaryOp) : Nat × Nat :=
  if op.isRightAssociative then (Level.postfixed, op.precedence)
  else (op.precedence, op.precedence + 1)

def unaryWord : UnaryOp → String
  | .void => "void "
  | .typeOf => "typeof "
  | op => op.token

/-- Lines between braces; `depth` is the depth of the closing brace. -/
def braces (depth : Nat) (lines : String) : String :=
  if lines.isEmpty then "\x7b\x7d" else "\x7b\n" ++ lines ++ margin depth ++ "\x7d"

/-- An expression that would be read as something else at the start of a statement. -/
def needsParens : Expr → Bool
  | .object _ _ | .function _ _ _ => true
  | _ => false

/-- An expression that would be read as a block after an arrow. -/
def isObject : Expr → Bool
  | .object _ _ => true
  | _ => false

end Printer

open Printer

mutual

/-- The text of an expression inside a line at depth `depth`. -/
def Expr.textAt (depth : Nat) : Expr → String
  | .ident _ name => name
  | .number _ digits => digits
  | .str _ value => Text.quote value
  | .bool _ value => if value then "true" else "false"
  | .null _ => "null"
  | .this _ => "this"
  | .template _ raw => "`" ++ raw ++ "`"
  | .tagged _ tag raw => tag ++ "`" ++ raw ++ "`"
  | .array _ items => "[" ++ ", ".intercalate (Expr.textsAt depth items) ++ "]"
  | .object _ [] => "\x7b\x7d"
  | .object _ (p :: ps) =>
    "\x7b " ++ ", ".intercalate (Expr.propertiesAt depth (p :: ps)) ++ " \x7d"
  | .paren _ e => parens (e.textAt depth)
  | .member _ object property => place Level.postfixed object (object.textAt depth) ++ "." ++ property
  | .call _ callee args =>
    place Level.postfixed callee (callee.textAt depth) ++
      parens (", ".intercalate (Expr.textsAt depth args))
  | .invoke _ name args => name ++ "!" ++ parens (", ".intercalate (Expr.textsAt depth args))
  | .unary _ op operand => unaryWord op ++ place Level.unary operand (operand.textAt depth)
  | .binary _ op lhs rhs =>
    place (operandLevels op).1 lhs (lhs.textAt depth) ++ " " ++ op.token ++ " " ++
      place (operandLevels op).2 rhs (rhs.textAt depth)
  | .assign _ target value =>
    place Level.postfixed target (target.textAt depth) ++ " = " ++ value.textAt depth
  | .await _ operand => "await " ++ place Level.unary operand (operand.textAt depth)
  | .arrow _ names isAsync body =>
    asyncWord isAsync ++ params names ++ " => " ++ body.textAt depth
  | .arrowExpr _ names isAsync body =>
    asyncWord isAsync ++ params names ++ " => " ++
      (if isObject body then parens (body.textAt depth) else body.textAt depth)
  | .function _ head body => functionHead head ++ body.textAt depth

def Expr.textsAt (depth : Nat) : List Expr → List String
  | [] => []
  | e :: es => e.textAt depth :: Expr.textsAt depth es

def Expr.propertiesAt (depth : Nat) : List (String × Expr) → List String
  | [] => []
  | (name, e) :: ps => (key name ++ ": " ++ e.textAt depth) :: Expr.propertiesAt depth ps

/-- The text of a statement without its margin and its line end. -/
def Stmt.textAt (depth : Nat) : Stmt → String
  | .importNames _ names specifier =>
    "import \x7b " ++ ", ".intercalate names ++ " \x7d from " ++ Text.quote specifier ++ ";"
  | .function _ head body => functionHead head ++ body.textAt depth
  | .classDecl _ head members =>
    classHead head ++ " " ++ braces depth (Member.linesAt (depth + 1) members)
  | .binding _ kind name none exported => visibility exported ++ kind.label ++ " " ++ name ++ ";"
  | .binding _ kind name (some e) exported =>
    visibility exported ++ kind.label ++ " " ++ name ++ " = " ++ e.textAt depth ++ ";"
  | .expr _ e => (if needsParens e then parens (e.textAt depth) else e.textAt depth) ++ ";"
  | .ret _ none => "return;"
  | .ret _ (some e) => "return " ++ e.textAt depth ++ ";"
  | .ifElse _ c t none => "if " ++ parens (c.textAt depth) ++ " " ++ t.textAt depth
  | .ifElse _ c t (some e) =>
    "if " ++ parens (c.textAt depth) ++ " " ++ t.textAt depth ++ " else " ++ e.textAt depth
  | .whileLoop _ c body => "while " ++ parens (c.textAt depth) ++ " " ++ body.textAt depth
  | .forOf _ kind name iterable body =>
    "for " ++ parens (kind.label ++ " " ++ name ++ " of " ++ iterable.textAt depth) ++ " " ++
      body.textAt depth
  | .block _ body => body.textAt depth
  | .defer _ body => "defer " ++ body.textAt depth
  | .tryFinally _ body finalizer =>
    "try " ++ body.textAt depth ++ " finally " ++ finalizer.textAt depth
  | .throwExpr _ e => "throw " ++ e.textAt depth ++ ";"
  | .empty _ => ";"

def Stmt.linesAt (depth : Nat) : List Stmt → String
  | [] => ""
  | s :: ss => margin depth ++ s.textAt depth ++ "\n" ++ Stmt.linesAt depth ss

def Member.linesAt (depth : Nat) : List Member → String
  | [] => ""
  | .field _ name none :: ms => margin depth ++ name ++ ";\n" ++ Member.linesAt depth ms
  | .field _ name (some e) :: ms =>
    margin depth ++ name ++ " = " ++ e.textAt depth ++ ";\n" ++ Member.linesAt depth ms
  | .method _ head body :: ms =>
    margin depth ++ methodHead head ++ body.textAt depth ++ "\n" ++ Member.linesAt depth ms

/-- The text of a block; `depth` is the depth of its closing brace. -/
def Block.textAt (depth : Nat) : Block → String
  | ⟨_, ss⟩ => braces depth (Stmt.linesAt (depth + 1) ss)

end

def Expr.print (e : Expr) : String := e.textAt 0

def Stmt.print (s : Stmt) : String := Stmt.linesAt 0 [s]

def SourceFile.print (file : SourceFile) : String := Stmt.linesAt 0 file.statements

end MacroEngine
