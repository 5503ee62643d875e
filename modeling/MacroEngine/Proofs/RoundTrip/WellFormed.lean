import MacroEngine.Tree.Walk
import MacroEngine.Proofs.Grammar.Names
import MacroEngine.Proofs.RoundTrip.Parens

/-!
# Trees that a text can have

A tree is well formed if its names and numbers are such as the grammar reads, and if no statement
and no body of an arrow begins with something that would be read as a block or a declaration. Each
condition looks at one node; a file is well formed if all of its nodes are.
-/

namespace MacroEngine

open Grammar (Whole)

/-- The expression at the left end of the printed text. Parentheses are not looked into. -/
def Expr.opening : Expr → Expr
  | .member s owner property =>
    if (Place.level Level.postfixed).wraps owner then .member s owner property else owner.opening
  | .call s callee args =>
    if (Place.level Level.postfixed).wraps callee then .call s callee args else callee.opening
  | .binary s op lhs rhs =>
    if (Place.level (Printer.operandLevels op).1).wraps lhs then .binary s op lhs rhs
    else lhs.opening
  | .assign s target value =>
    if (Place.level Level.postfixed).wraps target then .assign s target value else target.opening
  | e => e

def Expr.opensWithEmptyObject (e : Expr) : Prop := ∃ s, e.opening = .object s []

def Expr.opensWithNamedFunction (e : Expr) : Prop :=
  ∃ s head body, e.opening = .function s head body ∧ head.name ≠ none

def FunctionHead.Regular (head : FunctionHead) : Prop :=
  (∀ name ∈ head.name, Whole .identifier name) ∧ ∀ name ∈ head.params, Whole .identifier name

def Expr.Regular : Expr → Prop
  | .ident _ name => Whole .identifier name
  | .number _ digits => Whole .number digits
  | .template _ raw => '`' ∉ raw.toList
  | .tagged _ tag raw => Whole .identifier tag ∧ '`' ∉ raw.toList
  | .member _ _ property => Whole .propertyName property
  | .invoke _ name _ => Whole .identifier name
  | .arrow _ names _ _ | .arrowExpr _ names _ _ => ∀ name ∈ names, Whole .identifier name
  | .function _ head _ => head.Regular ∧ head.visibility = .internal
  | _ => True

def Member.Regular : Member → Prop
  | .field _ name _ => Whole .propertyName name
  | .method _ head _ =>
    Whole .propertyName head.name ∧ (head.name = "async" → head.isAsync = true) ∧
      ∀ name ∈ head.params, Whole .identifier name

def Stmt.isAlternative : Stmt → Bool
  | .ifElse _ _ _ _ | .block _ _ => true
  | _ => false

def Stmt.Regular : Stmt → Prop
  | .importNames _ names _ => ∀ name ∈ names, Whole .identifier name
  | .function _ head _ => head.Regular ∧ head.name ≠ none
  | .classDecl _ head members =>
    Whole .identifier head.name ∧ (∀ name ∈ head.derives, Whole .identifier name) ∧
      ∀ m ∈ members, m.Regular
  | .binding _ _ name _ _ => Whole .identifier name
  | .forOf _ _ name _ _ => Whole .identifier name
  | .ifElse _ _ _ alternative => ∀ s ∈ alternative, s.isAlternative = true
  | .expr _ e => Printer.needsParens e = true ∨ ¬ e.opensWithNamedFunction
  | _ => True

/-- The node's names and numbers are read as such, and its parts can stand where they do. -/
def Item.Regular : Item → Prop
  | .expr e => e.Regular
  | .stmt s => s.Regular

/-- An expression that is a statement or the body of an arrow does not begin with an empty object,
which would be read as a block, unless it is nothing else. -/
def Item.Clear : Item → Prop
  | .stmt (.expr _ e) => Printer.needsParens e = true ∨ ¬ e.opensWithEmptyObject
  | .expr (.arrowExpr _ _ _ body) => Printer.isObject body = true ∨ ¬ body.opensWithEmptyObject
  | _ => True

def Item.WellFormed (item : Item) : Prop := item.Regular ∧ item.Clear

def SourceFile.WellFormed (file : SourceFile) : Prop := ∀ item ∈ file.items, item.WellFormed

end MacroEngine
