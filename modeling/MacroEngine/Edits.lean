import MacroEngine.Hook
import MacroEngine.Loader
import MacroEngine.Patch

/-!
# Running transform hooks

A site is folded through the hooks of its declaration. Each hook sees the site as the hooks before
it left it, and what it asks for is carried out before the next one runs: a removal wins over
replacements, the first replacement wins over later ones, and statements go next to the site's
statement or to the patches of the file. A class is folded through the hooks of each of its derives
until one of them removes it.
-/

namespace MacroEngine

/-- Statements to put before and after the statement being visited. -/
structure Beside where
  before : List Stmt
  after : List Stmt

namespace Beside

def empty : Beside := ⟨[], []⟩

def append (a b : Beside) : Beside := ⟨a.before ++ b.before, a.after ++ b.after⟩

instance : Append Beside := ⟨append⟩

theorem append_empty (b : Beside) : b ++ empty = b := by
  obtain ⟨before, after⟩ := b
  change mk (before ++ []) (after ++ []) = _
  rw [List.append_nil, List.append_nil]

theorem append_assoc (a b c : Beside) : a ++ b ++ c = a ++ (b ++ c) := by
  change mk (a.before ++ b.before ++ c.before) (a.after ++ b.after ++ c.after) = _
  rw [List.append_assoc, List.append_assoc]
  rfl

end Beside

/-- A site with the statements that its hooks asked for so far. -/
structure Folded where
  node : Node
  beside : Beside
  patcher : Patcher

namespace Edit

def replacement? : Edit → Option Node
  | .replace node => some node
  | _ => none

def isRemoval : Edit → Bool
  | .remove => true
  | _ => false

/-- The node that edits leave where `current` stood; it keeps the place of `current`. -/
def commitNode (current : Node) (edits : List Edit) : Node :=
  if edits.any isRemoval then .void current.span
  else match edits.findSome? replacement? with
    | some node => node.withSpan current.span
    | none => current

def beside : Edit → Beside
  | .before s => ⟨[s], []⟩
  | .after s => ⟨[], [s]⟩
  | _ => .empty

def patch (p : Patcher) : Edit → Patcher
  | .prepend s => p.prepend s
  | .append s => p.append s
  | .insertBefore s anchor => p.insertBefore s anchor
  | .insertAfter s anchor => p.insertAfter s anchor
  | _ => p

end Edit

def Folded.commit (f : Folded) (edits : List Edit) : Folded where
  node := Edit.commitNode f.node edits
  beside := edits.foldl (fun b e => b ++ e.beside) f.beside
  patcher := edits.foldl Edit.patch f.patcher

/-- A file as hooks see it: its path and its statements as parsed. -/
structure FileView where
  path : SourcePath
  statements : List Stmt

def Folded.through (file : FileView) (d : Declaration) : List TransformHook → Folded → Work Folded
  | [], f => return f
  | hook :: more, f => do
    let edits ← hook ⟨f.node, d, file.path, file.statements⟩
    Folded.through file d more (f.commit edits)

/-- Runs an expression site through hooks. A removal leaves `void 0` in its place. A statement may
take its place only if it is an expression statement. -/
def transformSite (file : FileView) (d : Declaration) (hooks : Hooks) (site : Expr)
    (patcher : Patcher) : Work (Except Error (Expr × Beside) × Patcher) := do
  let f ← Folded.through file d hooks.transform ⟨.expr site, .empty, patcher⟩
  match f.node with
  | .expr e => return (.ok (e, f.beside), f.patcher)
  | .void span => do
    let e ← Work.build Fresh.voidZero
    return (.ok (e.withSpan span, f.beside), f.patcher)
  | .stmt (.expr _ e) => return (.ok (e, f.beside), f.patcher)
  | .stmt _ => return (.error (.statementForExpression d.name), f.patcher)

/-- Folds a class through the hooks of its derives, up to the first that removes it. -/
def Folded.throughDerives (file : FileView) : List (Declaration × Hooks) → Folded → Work Folded
  | [], f => return f
  | (d, hooks) :: more, f => do
    let f ← Folded.through file d hooks.transform f
    if f.node.isVoid then return f else Folded.throughDerives file more f

/-- Runs a class through its derives; nothing is left if one of them removes it. -/
def transformClass (file : FileView) (derives : List (Declaration × Hooks)) (cls : Stmt)
    (patcher : Patcher) : Work (Option Stmt × Beside × Patcher) := do
  let f ← Folded.throughDerives file derives ⟨.stmt cls, .empty, patcher⟩
  match f.node with
  | .stmt s => return (some s, f.beside, f.patcher)
  | .expr e => do
    let s ← Work.build (Fresh.exprStmt e)
    return (some (s.withSpan e.span), f.beside, f.patcher)
  | .void _ => return (none, f.beside, f.patcher)

end MacroEngine
