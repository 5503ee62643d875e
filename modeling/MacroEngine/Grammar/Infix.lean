import MacroEngine.Tree.Basic

/-!
# Infix operators of the grammar

How the grammar writes the infix operators, and how reading groups them: in levels, with a side for
each operator from which a chain of it is grouped. The numbers and spellings that printing goes by,
`BinaryOp.precedence` and `BinaryOp.token`, are a second table.
-/

namespace MacroEngine.Grammar

/-- What the rule of an operator matches. -/
def spelling : BinaryOp → String
  | .or => "||"
  | .and => "&&"
  | .strictEq => "==="
  | .strictNe => "!=="
  | .eq => "=="
  | .ne => "!="
  | .le => "<="
  | .ge => ">="
  | .lt => "<"
  | .gt => ">"
  | .add => "+"
  | .sub => "-"
  | .pow => "**"
  | .mul => "*"
  | .div => "/"
  | .mod => "%"

inductive Associativity where
  | left
  | right
deriving Repr, DecidableEq

/-- The levels of operators. Those of a later level take their operands first. -/
def infixLevels : List (List (BinaryOp × Associativity)) :=
  [[(.or, .left)],
    [(.and, .left)],
    [(.strictEq, .left), (.strictNe, .left), (.eq, .left), (.ne, .left)],
    [(.le, .left), (.ge, .left), (.lt, .left), (.gt, .left)],
    [(.add, .left), (.sub, .left)],
    [(.mul, .left), (.div, .left), (.mod, .left)],
    [(.pow, .right)]]

def bindingLevel (op : BinaryOp) : Nat := infixLevels.findIdx fun level => level.any (·.1 = op)

def associativity? (op : BinaryOp) : Option Associativity := infixLevels.flatten.lookup op

/-- An operator takes its right side before `next` does: `next` stands in an earlier level, or in the
same one if the operator groups from the left. -/
def closesBefore (op next : BinaryOp) : Bool :=
  bindingLevel next < bindingLevel op ||
    (bindingLevel next = bindingLevel op && associativity? op = some .left)

end MacroEngine.Grammar
