import MacroEngine.Tree.Basic

/-!
# Walking trees

Three ways through a tree, all from left to right.

* `items` lists the statements and expressions, every node before what it holds.
* `rebuild` makes a tree anew from the leaves up.
* `mapChildren` rebuilds one node from its immediate children.
-/

namespace MacroEngine

inductive Item where
  | stmt (s : Stmt)
  | expr (e : Expr)

mutual

/-- The nodes of an expression, itself first. Bodies of functions, methods and arrows are left out
if `enter` is false. -/
def Expr.items (enter : Bool) : Expr → List Item
  | .ident s n => [.expr (.ident s n)]
  | .number s d => [.expr (.number s d)]
  | .str s v => [.expr (.str s v)]
  | .bool s v => [.expr (.bool s v)]
  | .null s => [.expr (.null s)]
  | .this s => [.expr (.this s)]
  | .template s r => [.expr (.template s r)]
  | .tagged s t r => [.expr (.tagged s t r)]
  | .array s es => .expr (.array s es) :: Expr.itemsAll enter es
  | .object s ps => .expr (.object s ps) :: Expr.itemsProperties enter ps
  | .paren s e => .expr (.paren s e) :: e.items enter
  | .member s o p => .expr (.member s o p) :: o.items enter
  | .call s c as => .expr (.call s c as) :: (c.items enter ++ Expr.itemsAll enter as)
  | .invoke s n as => .expr (.invoke s n as) :: Expr.itemsAll enter as
  | .unary s o e => .expr (.unary s o e) :: e.items enter
  | .binary s o l r => .expr (.binary s o l r) :: (l.items enter ++ r.items enter)
  | .assign s t v => .expr (.assign s t v) :: (t.items enter ++ v.items enter)
  | .await s e => .expr (.await s e) :: e.items enter
  | .arrow s p a b => .expr (.arrow s p a b) :: b.bodyItems enter
  | .arrowExpr s p a e => .expr (.arrowExpr s p a e) :: (if enter then e.items enter else [])
  | .function s h b => .expr (.function s h b) :: b.bodyItems enter

def Expr.itemsAll (enter : Bool) : List Expr → List Item
  | [] => []
  | e :: es => e.items enter ++ Expr.itemsAll enter es

def Expr.itemsProperties (enter : Bool) : List (String × Expr) → List Item
  | [] => []
  | (_, e) :: ps => e.items enter ++ Expr.itemsProperties enter ps

/-- The nodes of a statement, itself first. -/
def Stmt.items (enter : Bool) : Stmt → List Item
  | .importNames s ns m => [.stmt (.importNames s ns m)]
  | .empty s => [.stmt (.empty s)]
  | .function s h b => .stmt (.function s h b) :: b.bodyItems enter
  | .classDecl s h ms => .stmt (.classDecl s h ms) :: Member.itemsAll enter ms
  | .binding s k n none v => [.stmt (.binding s k n none v)]
  | .binding s k n (some e) v => .stmt (.binding s k n (some e) v) :: e.items enter
  | .expr s e => .stmt (.expr s e) :: e.items enter
  | .ret s none => [.stmt (.ret s none)]
  | .ret s (some e) => .stmt (.ret s (some e)) :: e.items enter
  | .ifElse s c t none => .stmt (.ifElse s c t none) :: (c.items enter ++ t.items enter)
  | .ifElse s c t (some e) =>
    .stmt (.ifElse s c t (some e)) :: (c.items enter ++ (t.items enter ++ e.items enter))
  | .whileLoop s c b => .stmt (.whileLoop s c b) :: (c.items enter ++ b.items enter)
  | .forOf s k n i b => .stmt (.forOf s k n i b) :: (i.items enter ++ b.items enter)
  | .block s b => .stmt (.block s b) :: b.items enter
  | .defer s b => .stmt (.defer s b) :: b.items enter
  | .tryFinally s b f => .stmt (.tryFinally s b f) :: (b.items enter ++ f.items enter)
  | .throwExpr s e => .stmt (.throwExpr s e) :: e.items enter

def Stmt.itemsAll (enter : Bool) : List Stmt → List Item
  | [] => []
  | s :: ss => s.items enter ++ Stmt.itemsAll enter ss

def Member.itemsAll (enter : Bool) : List Member → List Item
  | [] => []
  | .field _ _ none :: ms => Member.itemsAll enter ms
  | .field _ _ (some e) :: ms => e.items enter ++ Member.itemsAll enter ms
  | .method _ _ b :: ms => b.bodyItems enter ++ Member.itemsAll enter ms

def Block.items (enter : Bool) : Block → List Item
  | ⟨_, ss⟩ => Stmt.itemsAll enter ss

/-- The nodes of the body of a function, none of them if bodies are not entered. -/
def Block.bodyItems (enter : Bool) : Block → List Item
  | ⟨_, ss⟩ => if enter then Stmt.itemsAll enter ss else []

end

theorem bodyItems_true (b : Block) : b.bodyItems true = b.items true := by
  cases b
  rfl

section Items

variable (enter : Bool)

theorem Expr.items_eq_cons (e : Expr) : e.items enter = .expr e :: (e.items enter).tail := by
  cases e <;> rfl

theorem Stmt.items_eq_cons (s : Stmt) : s.items enter = .stmt s :: (s.items enter).tail := by
  cases s with
  | binding _ _ _ init _ => cases init <;> rfl
  | ret _ value => cases value <;> rfl
  | ifElse _ _ _ alternative => cases alternative <;> rfl
  | _ => rfl

theorem Stmt.mem_items_self (s : Stmt) : .stmt s ∈ s.items enter := by
  rw [Stmt.items_eq_cons]
  exact List.mem_cons_self

theorem Expr.itemsAll_eq_flatMap (es : List Expr) :
    Expr.itemsAll enter es = es.flatMap (Expr.items enter) := by
  induction es with
  | nil => rfl
  | cons e es ih => rw [Expr.itemsAll, ih, List.flatMap_cons]

theorem Expr.itemsProperties_eq_flatMap (ps : List (String × Expr)) :
    Expr.itemsProperties enter ps = ps.flatMap fun p => p.2.items enter := by
  induction ps with
  | nil => rfl
  | cons p ps ih => rw [Expr.itemsProperties, ih, List.flatMap_cons]

theorem Stmt.itemsAll_eq_flatMap (ss : List Stmt) :
    Stmt.itemsAll enter ss = ss.flatMap (Stmt.items enter) := by
  induction ss with
  | nil => rfl
  | cons s ss ih => rw [Stmt.itemsAll, ih, List.flatMap_cons]

theorem Member.itemsAll_eq_flatMap (ms : List Member) :
    Member.itemsAll enter ms = ms.flatMap fun m => Member.itemsAll enter [m] := by
  induction ms with
  | nil => rfl
  | cons m ms ih =>
    rw [List.flatMap_cons, ← ih]
    obtain ⟨_, _, _ | _⟩ | ⟨_, _, _⟩ := m <;> simp [Member.itemsAll]

end Items

def SourceFile.items (file : SourceFile) : List Item := Stmt.itemsAll true file.statements

def Item.expr? : Item → Option Expr
  | .expr e => some e
  | .stmt _ => none

def Item.stmt? : Item → Option Stmt
  | .stmt s => some s
  | .expr _ => none

/-- What a rebuilding does at the nodes it changes, once their contents are rebuilt: at an
expression, and at the body of a function, method or arrow, which may be asynchronous. -/
structure Rebuilding (m : Type → Type) where
  onExpr : Expr → m Expr
  onBody : Bool → Block → m Block

section Rebuild

variable {m : Type → Type} [Monad m] (r : Rebuilding m)

mutual

/-- An expression rebuilt from the leaves up. -/
def Expr.rebuild : Expr → m Expr
  | .ident s n => r.onExpr (.ident s n)
  | .number s d => r.onExpr (.number s d)
  | .str s v => r.onExpr (.str s v)
  | .bool s v => r.onExpr (.bool s v)
  | .null s => r.onExpr (.null s)
  | .this s => r.onExpr (.this s)
  | .template s t => r.onExpr (.template s t)
  | .tagged s t w => r.onExpr (.tagged s t w)
  | .array s es => do r.onExpr (.array s (← Expr.rebuildAll es))
  | .object s ps => do r.onExpr (.object s (← Expr.rebuildProperties ps))
  | .paren s e => do r.onExpr (.paren s (← e.rebuild))
  | .member s o p => do r.onExpr (.member s (← o.rebuild) p)
  | .call s c as => do
    let c' ← c.rebuild
    r.onExpr (.call s c' (← Expr.rebuildAll as))
  | .invoke s n as => do r.onExpr (.invoke s n (← Expr.rebuildAll as))
  | .unary s o e => do r.onExpr (.unary s o (← e.rebuild))
  | .binary s o a b => do
    let a' ← a.rebuild
    r.onExpr (.binary s o a' (← b.rebuild))
  | .assign s t v => do
    let t' ← t.rebuild
    r.onExpr (.assign s t' (← v.rebuild))
  | .await s e => do r.onExpr (.await s (← e.rebuild))
  | .arrow s p a b => do r.onExpr (.arrow s p a (← r.onBody a (← b.rebuild)))
  | .arrowExpr s p a e => do r.onExpr (.arrowExpr s p a (← e.rebuild))
  | .function s h b => do r.onExpr (.function s h (← r.onBody h.isAsync (← b.rebuild)))

def Expr.rebuildAll : List Expr → m (List Expr)
  | [] => return []
  | e :: es => do
    let e' ← e.rebuild
    return e' :: (← Expr.rebuildAll es)

def Expr.rebuildProperties : List (String × Expr) → m (List (String × Expr))
  | [] => return []
  | (k, e) :: ps => do
    let e' ← e.rebuild
    return (k, e') :: (← Expr.rebuildProperties ps)

def Stmt.rebuild : Stmt → m Stmt
  | .importNames s ns w => return .importNames s ns w
  | .empty s => return .empty s
  | .function s h b => return .function s h (← r.onBody h.isAsync (← b.rebuild))
  | .classDecl s h ms => return .classDecl s h (← Member.rebuildAll ms)
  | .binding s k n none v => return .binding s k n none v
  | .binding s k n (some e) v => return .binding s k n (some (← e.rebuild)) v
  | .expr s e => return .expr s (← e.rebuild)
  | .ret s none => return .ret s none
  | .ret s (some e) => return .ret s (some (← e.rebuild))
  | .ifElse s c t none => do
    let c' ← c.rebuild
    return .ifElse s c' (← t.rebuild) none
  | .ifElse s c t (some e) => do
    let c' ← c.rebuild
    let t' ← t.rebuild
    return .ifElse s c' t' (some (← e.rebuild))
  | .whileLoop s c b => do
    let c' ← c.rebuild
    return .whileLoop s c' (← b.rebuild)
  | .forOf s k n i b => do
    let i' ← i.rebuild
    return .forOf s k n i' (← b.rebuild)
  | .block s b => return .block s (← b.rebuild)
  | .defer s b => return .defer s (← b.rebuild)
  | .tryFinally s b f => do
    let b' ← b.rebuild
    return .tryFinally s b' (← f.rebuild)
  | .throwExpr s e => return .throwExpr s (← e.rebuild)

def Stmt.rebuildAll : List Stmt → m (List Stmt)
  | [] => return []
  | s :: ss => do
    let s' ← s.rebuild
    return s' :: (← Stmt.rebuildAll ss)

def Member.rebuildAll : List Member → m (List Member)
  | [] => return []
  | .field s n none :: ms => return .field s n none :: (← Member.rebuildAll ms)
  | .field s n (some e) :: ms => do
    let e' ← e.rebuild
    return .field s n (some e') :: (← Member.rebuildAll ms)
  | .method s h b :: ms => do
    let b' ← r.onBody h.isAsync (← b.rebuild)
    return .method s h b' :: (← Member.rebuildAll ms)

def Block.rebuild : Block → m Block
  | ⟨s, ss⟩ => return ⟨s, ← Stmt.rebuildAll ss⟩

end

end Rebuild

/-- What to do with the children of a node: with an expression, with a statement that stands
outside any statement list, and with a statement list. -/
structure ChildMap (m : Type → Type) where
  onExpr : Expr → m Expr
  onStmt : Stmt → m Stmt
  onStmts : List Stmt → m (List Stmt)

section Children

variable {m : Type → Type} [Monad m] (f : ChildMap m)

/-- The statements of a block mapped as one list. -/
def Block.mapChildren (b : Block) : m Block := return ⟨b.stamp, ← f.onStmts b.stmts⟩

def Expr.mapChildren : Expr → m Expr
  | .array s es => return .array s (← es.mapM f.onExpr)
  | .object s ps => return .object s (← ps.mapM fun p => return (p.1, ← f.onExpr p.2))
  | .paren s e => return .paren s (← f.onExpr e)
  | .member s o p => return .member s (← f.onExpr o) p
  | .call s c as => do
    let c' ← f.onExpr c
    return .call s c' (← as.mapM f.onExpr)
  | .invoke s n as => return .invoke s n (← as.mapM f.onExpr)
  | .unary s o e => return .unary s o (← f.onExpr e)
  | .binary s o l r => do
    let l' ← f.onExpr l
    return .binary s o l' (← f.onExpr r)
  | .assign s t v => do
    let t' ← f.onExpr t
    return .assign s t' (← f.onExpr v)
  | .await s e => return .await s (← f.onExpr e)
  | .arrow s p a b => return .arrow s p a (← b.mapChildren f)
  | .arrowExpr s p a e => return .arrowExpr s p a (← f.onExpr e)
  | .function s h b => return .function s h (← b.mapChildren f)
  | e => return e

def Member.mapChildren : Member → m Member
  | .field s n (some e) => return .field s n (some (← f.onExpr e))
  | .field s n none => return .field s n none
  | .method s h b => return .method s h (← b.mapChildren f)

def Stmt.mapChildren : Stmt → m Stmt
  | .function s h b => return .function s h (← b.mapChildren f)
  | .classDecl s h ms => return .classDecl s h (← ms.mapM (Member.mapChildren f))
  | .binding s k n (some e) v => return .binding s k n (some (← f.onExpr e)) v
  | .expr s e => return .expr s (← f.onExpr e)
  | .ret s (some e) => return .ret s (some (← f.onExpr e))
  | .ifElse s c t alternative => do
    let c' ← f.onExpr c
    let t' ← t.mapChildren f
    match alternative with
    | none => return .ifElse s c' t' none
    | some e => return .ifElse s c' t' (some (← f.onStmt e))
  | .whileLoop s c b => do
    let c' ← f.onExpr c
    return .whileLoop s c' (← b.mapChildren f)
  | .forOf s k n i b => do
    let i' ← f.onExpr i
    return .forOf s k n i' (← b.mapChildren f)
  | .block s b => return .block s (← b.mapChildren f)
  | .defer s b => return .defer s (← b.mapChildren f)
  | .tryFinally s b g => do
    let b' ← b.mapChildren f
    return .tryFinally s b' (← g.mapChildren f)
  | .throwExpr s e => return .throwExpr s (← f.onExpr e)
  | s => return s

end Children

end MacroEngine
