import MacroEngine.Lowering.Operators
import MacroEngine.Tree.Shape

/-!
# Deferred statements

A function body with `defer` statements becomes

```text
const __defer = [];
let __deferred = false;
try {
    ...the body, with __defer.push(() => { B }); for each defer { B }
} finally {
    if (!__deferred) { cleanup }
}
```

where `cleanup` is `{ __deferred = true; for (const __action of __defer) { __action(); } }`. It is
put in front of every `return` that is reached without entering another function, and at the end if
control can get there; the `finally` covers what throws. So the actions that were registered run in
order, each at most once. An asynchronous function awaits them.
-/

namespace MacroEngine

namespace Lowering

/-- The variable that holds the deferred actions. -/
def deferList : String := "__defer"

/-- The variable that says whether the actions have run. -/
def deferredFlag : String := "__deferred"

def actionName : String := "__action"

/-- Whether a block awaits something outside the functions in it. -/
def awaits (body : Block) : Bool :=
  (body.items false).any fun
    | .expr (.await _ _) => true
    | _ => false

section Cleanup

variable (isAsync : Bool)

def cleanup : Fresh Stmt := do
  let action ← Fresh.ident actionName
  let call ← Fresh.call action []
  let call ← if isAsync then Fresh.await call else pure call
  let actions ← Fresh.ident deferList
  let run ← Fresh.exprStmt call
  let body ← Fresh.block [run]
  let runAll ← Fresh.forOf actionName actions body
  let flag ← Fresh.ident deferredFlag
  let yes ← Fresh.bool true
  let mark ← Fresh.exprStmt (← Fresh.assign flag yes)
  Fresh.blockStmt [mark, runAll]

mutual

/-- A statement list with a cleanup in front of each `return`, at any depth outside functions. -/
def coverAll : List Stmt → Fresh (List Stmt)
  | [] => return []
  | s :: ss =>
    if s.isReturn then do
      let run ← cleanup isAsync
      return run :: s :: (← coverAll ss)
    else do
      let s' ← coverInside s
      return s' :: (← coverAll ss)

/-- A statement that is no `return`, with a cleanup in front of each `return` in it. -/
def coverInside : Stmt → Fresh Stmt
  | .ifElse s c t none => return .ifElse s c (← coverBlock t) none
  | .ifElse s c t (some e) => do
    let t' ← coverBlock t
    if e.isReturn then do
      let _ ← Fresh.empty
      let run ← cleanup isAsync
      return .ifElse s c t' (some (← Fresh.blockStmt [run, e]))
    else return .ifElse s c t' (some (← coverInside e))
  | .whileLoop s c b => return .whileLoop s c (← coverBlock b)
  | .forOf s k n i b => return .forOf s k n i (← coverBlock b)
  | .block s b => return .block s (← coverBlock b)
  | .tryFinally s b f => do
    let b' ← coverBlock b
    return .tryFinally s b' (← coverBlock f)
  | s => return s

def coverBlock : Block → Fresh Block
  | ⟨s, ss⟩ => return ⟨s, ← coverAll ss⟩

end

/-- The statement that registers a deferred block, in the place of the `defer`. -/
def registration (span : Span) (action : Block) : Fresh Stmt := do
  let closure ← Fresh.arrow [] (isAsync && awaits action) action
  let actions ← Fresh.ident deferList
  let push ← Fresh.call (← Fresh.member actions "push") [closure]
  return (← Fresh.exprStmt push).withSpan span

/-- A statement list with each `defer` of its own turned into a registration. -/
def register : List Stmt → Fresh (List Stmt)
  | [] => return []
  | .defer s b :: ss => do
    let r ← registration isAsync s.span b
    return r :: (← register ss)
  | s :: ss => return s :: (← register ss)

def lowered (stmts : List Stmt) : Fresh (List Stmt) := do
  let registered ← register isAsync stmts
  let covered ← coverAll isAsync registered
  let complete ←
    if (covered.getLast?.map Stmt.isExit).getD false then pure covered
    else do
      let run ← cleanup isAsync
      pure (covered ++ [run])
  let flag ← Fresh.ident deferredFlag
  let pending ← Fresh.unary .not flag
  let run ← cleanup isAsync
  let guard ← Fresh.ifElse pending (← Fresh.block [run]) none
  let actions ← Fresh.binding .constant deferList (some (← Fresh.array []))
  let flag ← Fresh.binding .mutable deferredFlag (some (← Fresh.bool false))
  let body ← Fresh.block complete
  let finalizer ← Fresh.block [guard]
  return [actions, flag, ← Fresh.tryFinally body finalizer]

/-- The number of `defer` statements directly in a list. -/
def deferCount (stmts : List Stmt) : Nat := stmts.countP Stmt.isDefer

/-- A function body without its own deferred statements, and how many there were; nothing if there
were none. Functions inside the body are left alone. -/
def functionBody (body : Block) : Fresh (Block × Option Nat) :=
  if body.stmts.any Stmt.isDefer then do
    return ({ body with stmts := ← lowered isAsync body.stmts }, some (deferCount body.stmts))
  else return (body, none)

end Cleanup

def deferLowering : Rebuilding Counted where
  onExpr e := return e
  onBody isAsync body := do
    let (body, actions) ← functionBody isAsync body
    if actions.isSome then count
    return body

/-- The first `defer` in a file, in source order. -/
def firstDefer? (file : SourceFile) : Option Stmt :=
  (file.items.filterMap Item.stmt?).find? Stmt.isDefer

/-- The file with deferred statements lowered in every function, method and arrow body, and the
number of bodies that had some. A `defer` that is left stands outside any function body. -/
def defers (file : SourceFile) : Fresh (SourceFile × Except Error Nat) := do
  let (statements, n) ← (Stmt.rebuildAll deferLowering file.statements).run 0
  let file := { file with statements }
  return match firstDefer? file with
    | some s => (file, .error (.misplacedDefer file.path s.span))
    | none => (file, .ok n)

end Lowering

end MacroEngine
