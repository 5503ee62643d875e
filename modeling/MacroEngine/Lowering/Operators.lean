import MacroEngine.Error
import MacroEngine.Tree.Fresh
import MacroEngine.Tree.Walk

/-!
# Operators as calls

A binary operator that a table maps to a dotted name becomes a call of that name with both operands
for arguments. Operands are lowered first. The call keeps the identity and the span of the operator;
only the nodes of the name are new.
-/

namespace MacroEngine

/-- Dotted names of functions for some binary operators, at most one for each. -/
structure OperatorTable where
  entries : List (BinaryOp × String)

namespace OperatorTable

def empty : OperatorTable := ⟨[]⟩

def get? (table : OperatorTable) (op : BinaryOp) : Option String := table.entries.lookup op

/-- The table with a name for an operator, in place of the one it had. -/
def insert (table : OperatorTable) (op : BinaryOp) (callee : String) : OperatorTable :=
  ⟨(op, callee) :: table.entries.filter (·.1 ≠ op)⟩

def size (table : OperatorTable) : Nat := table.entries.length

/-- The table of spelled operators; the first spelling that is no operator is an error. -/
def ofTokens : List (String × String) → OperatorTable → Except Error OperatorTable
  | [], table => .ok table
  | (token, callee) :: more, table =>
    match BinaryOp.ofToken? token with
    | none => .error (.unknownOperator token)
    | some op => ofTokens more (table.insert op callee)

@[simp] theorem get?_empty (op : BinaryOp) : empty.get? op = none := rfl

@[simp] theorem get?_insert_self (table : OperatorTable) (op : BinaryOp) (callee : String) :
    (table.insert op callee).get? op = some callee := by
  simp [insert, get?]

end OperatorTable

namespace Lowering

abbrev Counted := StateT Nat Fresh

def count : Counted Unit := modify (· + 1)

/-- What becomes of one expression whose operands are lowered. -/
def lowerOperator (table : OperatorTable) : Expr → Counted Expr
  | .binary s op lhs rhs =>
    match table.get? op with
    | none => return .binary s op lhs rhs
    | some callee => do
      let callee ← Fresh.path callee
      count
      return .call s callee [lhs, rhs]
  | e => return e

def operatorLowering (table : OperatorTable) : Rebuilding Counted where
  onExpr := lowerOperator table
  onBody _ body := return body

/-- The file with the operators of a table lowered, and how many there were. -/
def operators (table : OperatorTable) (file : SourceFile) : Fresh (SourceFile × Nat) := do
  let (statements, n) ← (Stmt.rebuildAll (operatorLowering table) file.statements).run 0
  return ({ file with statements }, n)

end Lowering

end MacroEngine
