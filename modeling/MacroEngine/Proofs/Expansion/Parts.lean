import MacroEngine.Tree.Walk

/-!
# Parts of nodes

What a walk visits of a node are its parts: expressions, statements that stand outside any statement
list, and whole statement lists, in the order of the text. A node is compared with another apart from
its parts by what is left of it when they are taken out. The nodes in a node are itself and those in
its parts.
-/

namespace MacroEngine

/-- An immediate part of a node. -/
inductive Part where
  | expr (e : Expr)
  /-- A statement that stands outside any statement list. -/
  | stmt (s : Stmt)
  | list (ss : List Stmt)

def Part.items : Part → List Item
  | .expr e => e.items true
  | .stmt s => s.items true
  | .list ss => Stmt.itemsAll true ss

def Expr.parts : Expr → List Part
  | .array _ es | .invoke _ _ es => es.map .expr
  | .object _ ps => ps.map fun p => .expr p.2
  | .paren _ e | .member _ e _ | .unary _ _ e | .await _ e | .arrowExpr _ _ _ e => [.expr e]
  | .call _ c as => .expr c :: as.map .expr
  | .binary _ _ l r | .assign _ l r => [.expr l, .expr r]
  | .arrow _ _ _ b | .function _ _ b => [.list b.stmts]
  | _ => []

def Member.parts : Member → List Part
  | .field _ _ (some e) => [.expr e]
  | .field _ _ none => []
  | .method _ _ b => [.list b.stmts]

def Stmt.parts : Stmt → List Part
  | .function _ _ b | .block _ b | .defer _ b => [.list b.stmts]
  | .classDecl _ _ ms => ms.flatMap Member.parts
  | .binding _ _ _ (some e) _ | .expr _ e | .ret _ (some e) | .throwExpr _ e => [.expr e]
  | .ifElse _ c t none => [.expr c, .list t.stmts]
  | .ifElse _ c t (some e) => [.expr c, .list t.stmts, .stmt e]
  | .whileLoop _ c b | .forOf _ _ _ c b => [.expr c, .list b.stmts]
  | .tryFinally _ b f => [.list b.stmts, .list f.stmts]
  | _ => []

def ChildMap.emptying : ChildMap Id := ⟨fun _ => default, fun _ => default, fun _ => []⟩

/-- An expression without its parts. -/
def Expr.hollow (e : Expr) : Expr := e.mapChildren ChildMap.emptying

def Member.hollow (m : Member) : Member := m.mapChildren ChildMap.emptying

def Stmt.hollow (s : Stmt) : Stmt := s.mapChildren ChildMap.emptying

section Hollow

variable (s : Stamp)

theorem mapM_emptying {α β : Type} (f : α → Id β) (as : List α) : as.mapM f = as.map f :=
  List.idRun_mapM

theorem Expr.hollow_array (es : List Expr) :
    (Expr.array s es).hollow = .array s (es.map fun _ => default) :=
  congrArg (Expr.array s) (mapM_emptying _ es)

theorem Expr.hollow_object (ps : List (String × Expr)) :
    (Expr.object s ps).hollow = .object s (ps.map fun p => (p.1, default)) :=
  congrArg (Expr.object s) (mapM_emptying _ ps)

theorem Expr.hollow_call (c : Expr) (as : List Expr) :
    (Expr.call s c as).hollow = .call s default (as.map fun _ => default) :=
  congrArg (Expr.call s default) (mapM_emptying _ as)

theorem Expr.hollow_invoke (name : String) (as : List Expr) :
    (Expr.invoke s name as).hollow = .invoke s name (as.map fun _ => default) :=
  congrArg (Expr.invoke s name) (mapM_emptying _ as)

theorem Stmt.hollow_classDecl (head : ClassHead) (ms : List Member) :
    (Stmt.classDecl s head ms).hollow = .classDecl s head (ms.map Member.hollow) :=
  congrArg (Stmt.classDecl s head) (mapM_emptying _ ms)

end Hollow

section Items

theorem Block.items_eq (b : Block) : b.items true = Stmt.itemsAll true b.stmts := by
  cases b
  rfl

theorem Block.bodyItems_eq (b : Block) : b.bodyItems true = Stmt.itemsAll true b.stmts := by
  rw [bodyItems_true, items_eq]

theorem Expr.items_eq_parts (e : Expr) :
    e.items true = .expr e :: e.parts.flatMap Part.items := by
  cases e <;> simp [items, parts, Part.items, itemsAll_eq_flatMap, itemsProperties_eq_flatMap,
    List.flatMap_map, Block.bodyItems_eq]

theorem Member.itemsAll_eq_parts (ms : List Member) :
    Member.itemsAll true ms = (ms.flatMap Member.parts).flatMap Part.items := by
  induction ms with
  | nil => rfl
  | cons m ms ih =>
    rw [List.flatMap_cons, List.flatMap_append, ← ih]
    obtain ⟨_, _, _ | _⟩ | ⟨_, _, _⟩ := m <;> simp [itemsAll, parts, Part.items, Block.bodyItems_eq]

theorem Stmt.items_eq_parts (s : Stmt) :
    s.items true = .stmt s :: s.parts.flatMap Part.items := by
  cases s with
  | binding _ _ _ init _ => cases init <;> simp [items, parts, Part.items]
  | ret _ value => cases value <;> simp [items, parts, Part.items]
  | ifElse _ _ _ alternative =>
    cases alternative <;> simp [items, parts, Part.items, Block.items_eq]
  | classDecl _ _ ms => rw [items, Member.itemsAll_eq_parts, parts]
  | _ => simp [items, parts, Part.items, Block.items_eq, Block.bodyItems_eq]

end Items

end MacroEngine
