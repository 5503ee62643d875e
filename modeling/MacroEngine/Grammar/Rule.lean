import MacroEngine.Tree.Basic

/-!
# The rules of the grammar

The names of the rules, the names by which messages call them, and the order in which messages
list them.
-/

namespace MacroEngine.Grammar

inductive Rule where
  | endOfInput
  | program
  | keyword
  | identifier
  | propertyName
  /-- A keyword as a token of its own. -/
  | word (spelling : String)
  | exportNamed
  | exportDefault
  | asyncWord
  | varConst
  | varLet
  | macroTemplate
  | macroDerive
  | macroModifier
  | importStmt
  | functionDecl
  | params
  | classDecl
  | derivesClause
  | methodMember
  | fieldMember
  | variableStmt
  | returnStmt
  | ifStmt
  | whileStmt
  | forOfStmt
  | deferStmt
  | tryStmt
  | throwStmt
  | emptyStmt
  | exprStmt
  | block
  | expression
  | binary
  | op (op : BinaryOp)
  | prefixed
  | prefixOp
  | awaitWord
  | voidWord
  | typeofWord
  | postfixed
  | callArgs
  | memberAccess
  | arrowFn
  | arrowParams
  | functionExpr
  | macroCall
  | taggedTemplate
  | number
  | string
  | doubleQuoted
  | singleQuoted
  | template
  | templateRaw
  | boolean
  | nullLit
  | thisLit
  | array
  | object
  | property
  | paren
deriving Repr, DecidableEq

def opLabel : BinaryOp → String
  | .or => "op_or"
  | .and => "op_and"
  | .strictEq => "op_strict_eq"
  | .strictNe => "op_strict_ne"
  | .eq => "op_eq"
  | .ne => "op_ne"
  | .le => "op_le"
  | .ge => "op_ge"
  | .lt => "op_lt"
  | .gt => "op_gt"
  | .add => "op_add"
  | .sub => "op_sub"
  | .mul => "op_mul"
  | .div => "op_div"
  | .mod => "op_mod"
  | .pow => "op_pow"

namespace Rule

def label : Rule → String
  | .endOfInput => "EOI"
  | .program => "program"
  | .keyword => "keyword"
  | .identifier => "identifier"
  | .propertyName => "property_name"
  | .word spelling => "kw_" ++ spelling
  | .exportNamed => "export_named"
  | .exportDefault => "export_default"
  | .asyncWord => "async_kw"
  | .varConst => "var_const"
  | .varLet => "var_let"
  | .macroTemplate => "macro_template"
  | .macroDerive => "macro_derive"
  | .macroModifier => "macro_modifier"
  | .importStmt => "import_stmt"
  | .functionDecl => "function_decl"
  | .params => "params"
  | .classDecl => "class_decl"
  | .derivesClause => "derives_clause"
  | .methodMember => "method_member"
  | .fieldMember => "field_member"
  | .variableStmt => "variable_stmt"
  | .returnStmt => "return_stmt"
  | .ifStmt => "if_stmt"
  | .whileStmt => "while_stmt"
  | .forOfStmt => "for_of_stmt"
  | .deferStmt => "defer_stmt"
  | .tryStmt => "try_stmt"
  | .throwStmt => "throw_stmt"
  | .emptyStmt => "empty_stmt"
  | .exprStmt => "expr_stmt"
  | .block => "block"
  | .expression => "expression"
  | .binary => "binary"
  | .op o => opLabel o
  | .prefixed => "prefixed"
  | .prefixOp => "prefix_op"
  | .awaitWord => "await_kw"
  | .voidWord => "void_kw"
  | .typeofWord => "typeof_kw"
  | .postfixed => "postfix"
  | .callArgs => "call_args"
  | .memberAccess => "member_access"
  | .arrowFn => "arrow_fn"
  | .arrowParams => "arrow_params"
  | .functionExpr => "function_expr"
  | .macroCall => "macro_call"
  | .taggedTemplate => "tagged_template"
  | .number => "number"
  | .string => "string"
  | .doubleQuoted => "dq_inner"
  | .singleQuoted => "sq_inner"
  | .template => "template"
  | .templateRaw => "template_raw"
  | .boolean => "boolean"
  | .nullLit => "null_lit"
  | .thisLit => "this_lit"
  | .array => "array"
  | .object => "object"
  | .property => "property"
  | .paren => "paren"

/-- The keywords that are tokens of their own, in the order of their rules. -/
def words : List String :=
  ["import", "from", "function", "class", "derives", "return", "if", "else", "while", "for", "of",
    "defer", "try", "finally", "throw", "macro"]

/-- Every rule, in the order in which messages list them. -/
def all : List Rule :=
  [.endOfInput, .program, .keyword, .identifier, .propertyName] ++ words.map .word ++
  [.exportNamed, .exportDefault, .asyncWord, .varConst, .varLet, .macroTemplate, .macroDerive,
    .macroModifier, .importStmt, .functionDecl, .params, .classDecl, .derivesClause,
    .methodMember, .fieldMember, .variableStmt, .returnStmt, .ifStmt, .whileStmt, .forOfStmt,
    .deferStmt, .tryStmt, .throwStmt, .emptyStmt, .exprStmt, .block, .expression, .binary,
    .op .or, .op .and, .op .strictEq, .op .strictNe, .op .eq, .op .ne, .op .le, .op .ge, .op .lt,
    .op .gt, .op .add, .op .sub, .op .pow, .op .mul, .op .div, .op .mod, .prefixed, .prefixOp,
    .awaitWord, .voidWord, .typeofWord, .postfixed, .callArgs, .memberAccess, .arrowFn,
    .arrowParams, .functionExpr, .macroCall, .taggedTemplate, .number, .string, .doubleQuoted,
    .singleQuoted, .template, .templateRaw, .boolean, .nullLit, .thisLit, .array, .object,
    .property, .paren]

end Rule

/-- Names in a sentence: `a`, `a or b`, `a, b, or c`. -/
def enumerate : List String → String
  | [] => ""
  | [a] => a
  | [a, b] => a ++ " or " ++ b
  | names => ", ".intercalate names.dropLast ++ ", or " ++ names.getLastD ""

/-- The rules of a list, each once, in the order of the grammar. -/
def inOrder (rules : List Rule) : List Rule := Rule.all.filter fun r => r ∈ rules

/-- What a failed match says: the rules that were tried where the match got furthest, and those
that stood there although they must not. -/
structure Mismatch where
  offset : Nat
  expected : List Rule
  unexpected : List Rule
deriving Repr, DecidableEq

def Mismatch.message (m : Mismatch) : String :=
  let names := fun rules => enumerate ((inOrder rules).map Rule.label)
  match m.expected, m.unexpected with
  | [], [] => "unknown parsing error"
  | [], unexpected => "unexpected " ++ names unexpected
  | expected, [] => "expected " ++ names expected
  | expected, unexpected => "unexpected " ++ names unexpected ++ "; expected " ++ names expected

end MacroEngine.Grammar
