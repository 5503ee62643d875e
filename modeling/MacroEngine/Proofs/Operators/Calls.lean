import MacroEngine.Lowering.Operators
import MacroEngine.Proofs.Control.WellPlaced
import MacroEngine.Proofs.Unchanged.Rebuilding

/-!
# The tree that lowering operators gives

`asCalls` says what a tree becomes, form by form and without a state: an operator that the table has a
name for becomes a call of that name with the lowered operands, under the stamp of the operator, and
every other node stays what it is. The nodes of the names are the only new ones. They take the numbers
that come next, in the order in which the operators end, so where a part of a tree starts numbering is
known from how many name nodes the parts before it need.

The main statement is that lowering a file gives this tree, counts the operators of the file that have
a name, and leaves none, so that lowering again does nothing.
-/

namespace MacroEngine

def segments (dotted : String) : List String := (Text.splitAt '.' dotted.toList).map String.ofList

/-- Members of members of an expression, numbered from `next` on. -/
def Expr.memberOf (object : Expr) (next : NodeId) : List String → Expr
  | [] => object
  | property :: more => Expr.memberOf (.member ⟨next, ⟨0, 0⟩⟩ object property) (next + 1) more

def Expr.dotted (next : NodeId) (name : String) : Expr :=
  Expr.memberOf (.ident ⟨next, ⟨0, 0⟩⟩ ((segments name).headD "")) (next + 1) (segments name).tail

/-- The name that a table has for the operator at a node. -/
def Item.callee? (table : OperatorTable) : Item → Option String
  | .expr (.binary _ op _ _) => table.get? op
  | _ => none

section Names

variable (table : OperatorTable)

def callees (items : List Item) : List String := items.filterMap (Item.callee? table)

/-- The number of nodes that the names for the operators among nodes are made of. -/
def nameNodes (items : List Item) : Nat := ((callees table items).flatMap segments).length

@[simp] theorem callees_nil : callees table [] = [] := rfl

@[simp] theorem callees_append (is js : List Item) :
    callees table (is ++ js) = callees table is ++ callees table js :=
  List.filterMap_append

@[simp] theorem callees_cons (i : Item) (is : List Item) :
    callees table (i :: is) = (i.callee? table).toList ++ callees table is := by
  cases h : i.callee? table <;> simp [callees, h]

@[simp] theorem nameNodes_nil : nameNodes table [] = 0 := rfl

@[simp] theorem nameNodes_append (is js : List Item) :
    nameNodes table (is ++ js) = nameNodes table is + nameNodes table js := by
  simp [nameNodes]

@[simp] theorem nameNodes_cons (i : Item) (is : List Item) : nameNodes table (i :: is) =
    ((i.callee? table).map fun name => (segments name).length).getD 0 + nameNodes table is := by
  cases h : i.callee? table <;> simp [nameNodes, h]

end Names

section Calls

variable (table : OperatorTable)

mutual

/-- The expression with operators as calls; the nodes of names are numbered from `next` on. -/
def Expr.asCalls (next : NodeId) : Expr → Expr
  | .ident s n => .ident s n
  | .number s d => .number s d
  | .str s v => .str s v
  | .bool s v => .bool s v
  | .null s => .null s
  | .this s => .this s
  | .template s r => .template s r
  | .tagged s t r => .tagged s t r
  | .array s es => .array s (Expr.asCallsAll next es)
  | .object s ps => .object s (Expr.asCallsProperties next ps)
  | .paren s e => .paren s (e.asCalls next)
  | .member s o p => .member s (o.asCalls next) p
  | .call s c as =>
    .call s (c.asCalls next) (Expr.asCallsAll (next + nameNodes table (c.items true)) as)
  | .invoke s n as => .invoke s n (Expr.asCallsAll next as)
  | .unary s o e => .unary s o (e.asCalls next)
  | .binary s op l r =>
    let middle := next + nameNodes table (l.items true)
    match table.get? op with
    | none => .binary s op (l.asCalls next) (r.asCalls middle)
    | some name => .call s (.dotted (middle + nameNodes table (r.items true)) name)
        [l.asCalls next, r.asCalls middle]
  | .assign s t v =>
    .assign s (t.asCalls next) (v.asCalls (next + nameNodes table (t.items true)))
  | .await s e => .await s (e.asCalls next)
  | .arrow s p a b => .arrow s p a (b.asCalls next)
  | .arrowExpr s p a e => .arrowExpr s p a (e.asCalls next)
  | .function s h b => .function s h (b.asCalls next)

def Expr.asCallsAll (next : NodeId) : List Expr → List Expr
  | [] => []
  | e :: es =>
    e.asCalls next :: Expr.asCallsAll (next + nameNodes table (e.items true)) es

def Expr.asCallsProperties (next : NodeId) : List (String × Expr) → List (String × Expr)
  | [] => []
  | (name, e) :: ps =>
    (name, e.asCalls next) :: Expr.asCallsProperties (next + nameNodes table (e.items true)) ps

def Stmt.asCalls (next : NodeId) : Stmt → Stmt
  | .importNames s ns m => .importNames s ns m
  | .function s h b => .function s h (b.asCalls next)
  | .classDecl s h ms => .classDecl s h (Member.asCallsAll next ms)
  | .binding s k n none v => .binding s k n none v
  | .binding s k n (some e) v => .binding s k n (some (e.asCalls next)) v
  | .expr s e => .expr s (e.asCalls next)
  | .ret s none => .ret s none
  | .ret s (some e) => .ret s (some (e.asCalls next))
  | .ifElse s c t none =>
    .ifElse s (c.asCalls next) (t.asCalls (next + nameNodes table (c.items true))) none
  | .ifElse s c t (some e) =>
    let middle := next + nameNodes table (c.items true)
    .ifElse s (c.asCalls next) (t.asCalls middle)
      (some (e.asCalls (middle + nameNodes table (t.items true))))
  | .whileLoop s c b =>
    .whileLoop s (c.asCalls next) (b.asCalls (next + nameNodes table (c.items true)))
  | .forOf s k n i b =>
    .forOf s k n (i.asCalls next) (b.asCalls (next + nameNodes table (i.items true)))
  | .block s b => .block s (b.asCalls next)
  | .defer s b => .defer s (b.asCalls next)
  | .tryFinally s b f =>
    .tryFinally s (b.asCalls next) (f.asCalls (next + nameNodes table (b.items true)))
  | .throwExpr s e => .throwExpr s (e.asCalls next)
  | .empty s => .empty s

def Stmt.asCallsAll (next : NodeId) : List Stmt → List Stmt
  | [] => []
  | s :: ss =>
    s.asCalls next :: Stmt.asCallsAll (next + nameNodes table (s.items true)) ss

def Member.asCallsAll (next : NodeId) : List Member → List Member
  | [] => []
  | .field s n none :: ms => .field s n none :: Member.asCallsAll next ms
  | .field s n (some e) :: ms =>
    .field s n (some (e.asCalls next)) ::
      Member.asCallsAll (next + nameNodes table (e.items true)) ms
  | .method s h b :: ms =>
    .method s h (b.asCalls next) ::
      Member.asCallsAll (next + nameNodes table (b.items true)) ms

def Block.asCalls (next : NodeId) : Block → Block
  | ⟨s, ss⟩ => ⟨s, Stmt.asCallsAll next ss⟩

end

def SourceFile.asCalls (next : NodeId) (file : SourceFile) : SourceFile :=
  { file with statements := Stmt.asCallsAll table next file.statements }

end Calls

namespace Lowering

/-- Started when `next` is the next number, the computation answers `a`, counts `counted` changes and
takes `used` numbers. -/
def Makes {α : Type} (x : Counted α) (next : NodeId) (a : α) (counted used : Nat) : Prop :=
  ∀ n, (x.run n).run next = ((a, n + counted), next + used)

section Makes

variable {α β : Type} {x : Counted α} {f : α → Counted β} {next : NodeId} {a : α} {b : β}
  {i j k l : Nat}

theorem makes_pure : Makes (pure a) next a 0 0 := fun _ => rfl

theorem makes_bind (hx : Makes x next a i j) (hf : Makes (f a) (next + j) b k l) :
    Makes (x >>= f) next b (i + k) (j + l) := by
  intro n
  rw [StateT.run_bind, StateT.run_bind, hx n, ← Nat.add_assoc, ← Nat.add_assoc]
  exact hf (n + i)

theorem makes_map {g : α → β} (hx : Makes x next a i j) :
    Makes (x >>= fun a => pure (g a)) next (g a) i j :=
  makes_bind (f := fun a => pure (g a)) hx makes_pure

theorem makes_count : Makes count next () 1 0 := fun _ => rfl

theorem makes_lift {y : Fresh α} (h : y.run next = (a, next + j)) :
    Makes (liftM y : Counted α) next a 0 j := by
  intro n
  change ((fun p : α × NodeId => ((p.1, n), p.2)) (y.run next)) = _
  rw [h]
  rfl

theorem Makes.of_eq (h : Makes x next a i j) (hi : i = k) (hj : j = l) : Makes x next a k l :=
  hi ▸ hj ▸ h

end Makes

theorem run_members (object : Expr) (properties : List String) (next : NodeId) :
    (Fresh.members object properties).run next =
      (object.memberOf next properties, next + properties.length) := by
  induction properties generalizing object next with
  | nil => rfl
  | cons property more ih =>
    refine (ih _ (next + 1)).trans ?_
    rw [List.length_cons, Nat.add_assoc, Nat.add_comm 1]
    rfl

theorem run_path (name : String) (next : NodeId) :
    (Fresh.path name).run next = (.dotted next name, next + (segments name).length) := by
  unfold Fresh.path Expr.dotted
  change (match segments name with
    | [] => Fresh.ident ""
    | head :: more => do Fresh.members (← Fresh.ident head) more).run next = _
  cases hname : segments name with
  | nil =>
    have hne := Text.splitAt_ne_nil '.' name.toList
    exact absurd (List.map_eq_nil_iff.mp hname) hne
  | cons head more =>
    refine (run_members _ more (next + 1)).trans ?_
    rw [List.length_cons, Nat.add_assoc, Nat.add_comm 1]
    rfl

section Rebuilt

variable (table : OperatorTable)

/-- Nothing is done at an expression that is no operator with a name. -/
theorem lowerOperator_eq_pure {e : Expr} (h : Item.callee? table (.expr e) = none) :
    lowerOperator table e = pure e := by
  cases e with
  | binary s op l r =>
    have hop : table.get? op = none := h
    simp only [lowerOperator, hop]
  | _ => rfl

theorem makes_lowered {α : Type} {x : Counted α} {f : α → Expr} {next : NodeId} {a : α}
    {i j : Nat} (hx : Makes x next a i j) (h : Item.callee? table (.expr (f a)) = none) :
    Makes (x >>= fun a => (operatorLowering table).onExpr (f a)) next (f a) i j := by
  have hidle : Makes ((operatorLowering table).onExpr (f a)) (next + j) (f a) 0 0 := by
    change Makes (lowerOperator table (f a)) _ _ _ _
    rw [lowerOperator_eq_pure table h]
    exact makes_pure
  exact makes_bind (f := fun a => (operatorLowering table).onExpr (f a)) hx hidle

/-- An operator whose operands are lowered becomes a call if it has a name. -/
theorem makes_operator (s : Stamp) (op : BinaryOp) (l r : Expr) (next : NodeId) :
    Makes ((operatorLowering table).onExpr (.binary s op l r)) next
      (match table.get? op with
        | none => .binary s op l r
        | some name => .call s (.dotted next name) [l, r])
      (table.get? op).toList.length
      (((table.get? op).map fun name => (segments name).length).getD 0) := by
  cases h : table.get? op with
  | none =>
    have hcallee : Item.callee? table (.expr (.binary s op l r)) = none := h
    change Makes (lowerOperator table (.binary s op l r)) _ _ _ _
    rw [lowerOperator_eq_pure table hcallee]
    exact makes_pure
  | some name =>
    change Makes (lowerOperator table (.binary s op l r)) _ _ _ _
    simp only [lowerOperator, h]
    have hcount : Makes (count >>= fun _ => pure (Expr.call s (.dotted next name) [l, r]))
        (next + (segments name).length) (.call s (.dotted next name) [l, r]) 1 0 :=
      makes_map (g := fun _ => Expr.call s (.dotted next name) [l, r]) makes_count
    exact (makes_bind (makes_lift (run_path name next)) hcount).of_eq rfl rfl

mutual

theorem expr_makes (next : NodeId) : ∀ e : Expr,
    Makes (e.rebuild (operatorLowering table)) next (e.asCalls table next)
      (callees table (e.items true)).length (nameNodes table (e.items true))
  | .ident _ _ | .number _ _ | .str _ _ | .bool _ _ | .null _ | .this _ | .template _ _
  | .tagged _ _ _ => makes_pure
  | .array _ es | .invoke _ _ es => makes_lowered table (exprs_make next es) rfl
  | .object _ ps => makes_lowered table (properties_make next ps) rfl
  | .paren _ e | .member _ e _ | .unary _ _ e | .await _ e | .arrowExpr _ _ _ e =>
    makes_lowered table (expr_makes next e) rfl
  | .call _ c as => by
    refine (makes_bind (expr_makes next c) (makes_lowered table (exprs_make _ as) rfl)).of_eq ?_ ?_
    · simp [Expr.items, Item.callee?]
    · simp [Expr.items, Item.callee?]
  | .assign _ l r => by
    refine (makes_bind (expr_makes next l) (makes_lowered table (expr_makes _ r) rfl)).of_eq ?_ ?_
    · simp [Expr.items, Item.callee?]
    · simp [Expr.items, Item.callee?]
  | .binary s op l r => by
    refine (makes_bind (expr_makes next l) (makes_bind (expr_makes _ r)
      (makes_operator table s op _ _ _))).of_eq ?_ ?_
    · simp [Expr.items, Item.callee?]
      omega
    · simp [Expr.items, Item.callee?]
      omega
  | .arrow _ _ _ b | .function _ _ b => by
    refine (makes_bind (block_makes next b) (makes_lowered table makes_pure rfl)).of_eq ?_ ?_
    · simp [Expr.items, Item.callee?, bodyItems_true]
    · simp [Expr.items, Item.callee?, bodyItems_true]

theorem exprs_make (next : NodeId) : ∀ es : List Expr,
    Makes (Expr.rebuildAll (operatorLowering table) es) next (Expr.asCallsAll table next es)
      (callees table (Expr.itemsAll true es)).length (nameNodes table (Expr.itemsAll true es))
  | [] => makes_pure
  | e :: es => by
    refine (makes_bind (expr_makes next e) (makes_map (exprs_make _ es))).of_eq ?_ ?_
    · simp [Expr.itemsAll]
    · simp [Expr.itemsAll]

theorem properties_make (next : NodeId) : ∀ ps : List (String × Expr),
    Makes (Expr.rebuildProperties (operatorLowering table) ps) next
      (Expr.asCallsProperties table next ps)
      (callees table (Expr.itemsProperties true ps)).length
      (nameNodes table (Expr.itemsProperties true ps))
  | [] => makes_pure
  | (_, e) :: ps => by
    refine (makes_bind (expr_makes next e) (makes_map (properties_make _ ps))).of_eq ?_ ?_
    · simp [Expr.itemsProperties]
    · simp [Expr.itemsProperties]

theorem stmt_makes (next : NodeId) : ∀ s : Stmt,
    Makes (s.rebuild (operatorLowering table)) next (s.asCalls table next)
      (callees table (s.items true)).length (nameNodes table (s.items true))
  | .importNames _ _ _ | .empty _ | .binding _ _ _ none _ | .ret _ none => makes_pure
  | .function _ _ b => by
    refine (makes_bind (block_makes next b) (makes_map makes_pure)).of_eq ?_ ?_
    · simp [Stmt.items, Item.callee?, bodyItems_true]
    · simp [Stmt.items, Item.callee?, bodyItems_true]
  | .classDecl _ _ ms => makes_map (members_make next ms)
  | .binding _ _ _ (some e) _ | .expr _ e | .ret _ (some e) | .throwExpr _ e =>
    makes_map (expr_makes next e)
  | .ifElse _ c t none => by
    refine (makes_bind (expr_makes next c) (makes_map (block_makes _ t))).of_eq ?_ ?_
    · simp [Stmt.items, Item.callee?]
    · simp [Stmt.items, Item.callee?]
  | .ifElse _ c t (some e) => by
    refine (makes_bind (expr_makes next c) (makes_bind (block_makes _ t)
      (makes_map (stmt_makes _ e)))).of_eq ?_ ?_
    · simp [Stmt.items, Item.callee?]
    · simp [Stmt.items, Item.callee?]
  | .whileLoop _ e b | .forOf _ _ _ e b => by
    refine (makes_bind (expr_makes next e) (makes_map (block_makes _ b))).of_eq ?_ ?_
    · simp [Stmt.items, Item.callee?]
    · simp [Stmt.items, Item.callee?]
  | .block _ b | .defer _ b => makes_map (block_makes next b)
  | .tryFinally _ b f => by
    refine (makes_bind (block_makes next b) (makes_map (block_makes _ f))).of_eq ?_ ?_
    · simp [Stmt.items, Item.callee?]
    · simp [Stmt.items, Item.callee?]

theorem stmts_make (next : NodeId) : ∀ ss : List Stmt,
    Makes (Stmt.rebuildAll (operatorLowering table) ss) next (Stmt.asCallsAll table next ss)
      (callees table (Stmt.itemsAll true ss)).length (nameNodes table (Stmt.itemsAll true ss))
  | [] => makes_pure
  | s :: ss => by
    refine (makes_bind (stmt_makes next s) (makes_map (stmts_make _ ss))).of_eq ?_ ?_
    · simp [Stmt.itemsAll]
    · simp [Stmt.itemsAll]

theorem members_make (next : NodeId) : ∀ ms : List Member,
    Makes (Member.rebuildAll (operatorLowering table) ms) next (Member.asCallsAll table next ms)
      (callees table (Member.itemsAll true ms)).length (nameNodes table (Member.itemsAll true ms))
  | [] => makes_pure
  | .field _ _ none :: ms => makes_map (members_make next ms)
  | .field _ _ (some e) :: ms => by
    refine (makes_bind (expr_makes next e) (makes_map (members_make _ ms))).of_eq ?_ ?_
    · simp [Member.itemsAll]
    · simp [Member.itemsAll]
  | .method s head b :: ms => by
    have hmore := makes_map (g := (.method s head (b.asCalls table next) :: ·))
      (members_make (next + nameNodes table (b.items true)) ms)
    refine (makes_bind (block_makes next b) hmore).of_eq ?_ ?_
    · simp [Member.itemsAll, bodyItems_true]
    · simp [Member.itemsAll, bodyItems_true]

theorem block_makes (next : NodeId) : ∀ b : Block,
    Makes (b.rebuild (operatorLowering table)) next (b.asCalls table next)
      (callees table (b.items true)).length (nameNodes table (b.items true))
  | ⟨_, ss⟩ => makes_map (stmts_make next ss)

end

end Rebuilt

end Lowering

def Item.isAwait : Item → Bool
  | .expr (.await _ _) => true
  | _ => false

section Settled

variable {table : OperatorTable}

/-- Nodes with no operator left that the table has a name for, with the same deferred statements as
other nodes, and with an `await` if those have one. -/
structure Settled (table : OperatorTable) (items settled : List Item) : Prop where
  callees : callees table settled = []
  spans : Control.deferSpans settled = Control.deferSpans items
  awaits : settled.any Item.isAwait = items.any Item.isAwait

namespace Settled

variable {is js is' js' : List Item}

theorem nil : Settled table [] [] := ⟨rfl, rfl, rfl⟩

theorem append (h : Settled table is js) (h' : Settled table is' js') :
    Settled table (is ++ is') (js ++ js') where
  callees := by simp [h.callees, h'.callees]
  spans := by simp [h.spans, h'.spans]
  awaits := by simp [h.awaits, h'.awaits]

theorem expr {e e' : Expr} (h : Settled table is js)
    (hcallee : Item.callee? table (.expr e') = none)
    (hawait : Item.isAwait (.expr e') = Item.isAwait (.expr e)) :
    Settled table (.expr e :: is) (.expr e' :: js) where
  callees := by simp [hcallee, h.callees]
  spans := by simp [h.spans]
  awaits := by simp [hawait, h.awaits]

theorem stmt {s s' : Stmt} (h : Settled table is js) (hdefer : s'.isDefer = s.isDefer)
    (hspan : s'.span = s.span) : Settled table (.stmt s :: is) (.stmt s' :: js) where
  callees := by simp [Item.callee?, h.callees]
  spans := by simp [hdefer, hspan, h.spans]
  awaits := by simp [Item.isAwait, h.awaits]

/-- The nodes of a body, if it is entered. -/
theorem entered (enter : Bool) (h : Settled table is js) :
    Settled table (if enter then is else []) (if enter then js else []) := by
  split
  · exact h
  · exact .nil

end Settled

variable (table) (enter : Bool)

theorem Expr.memberOf_settled (properties : List String) : ∀ (object : Expr) (next : NodeId),
    Settled table [] (object.items enter) →
      Settled table [] ((object.memberOf next properties).items enter) := by
  induction properties with
  | nil => exact fun _ _ h => h
  | cons property more ih =>
    intro object next h
    refine ih _ _ ⟨?_, ?_, ?_⟩
    · simp [Expr.items, Item.callee?, h.callees]
    · simp [Expr.items, h.spans]
    · simp [Expr.items, Item.isAwait, h.awaits]

/-- A name has no operators, no deferred statements and no `await`. -/
theorem Expr.dotted_settled (next : NodeId) (name : String) :
    Settled table [] ((Expr.dotted next name).items enter) :=
  Expr.memberOf_settled table enter _ _ _ ⟨rfl, rfl, rfl⟩

mutual

theorem Expr.asCalls_settled : ∀ (e : Expr) (next : NodeId),
    Settled table (e.items enter) ((e.asCalls table next).items enter)
  | .ident _ _, _ | .number _ _, _ | .str _ _, _ | .bool _ _, _ | .null _, _ | .this _, _
  | .template _ _, _ | .tagged _ _ _, _ => Settled.nil.expr rfl rfl
  | .array _ es, next | .invoke _ _ es, next => (Expr.asCallsAll_settled es next).expr rfl rfl
  | .object _ ps, next => (Expr.asCallsProperties_settled ps next).expr rfl rfl
  | .paren _ e, next | .member _ e _, next | .unary _ _ e, next | .await _ e, next =>
    (e.asCalls_settled next).expr rfl rfl
  | .call _ c as, next =>
    ((c.asCalls_settled next).append (Expr.asCallsAll_settled as _)).expr rfl rfl
  | .assign _ t v, next => ((t.asCalls_settled next).append (v.asCalls_settled _)).expr rfl rfl
  | .binary _ op l r, next => by
    have hsides := (l.asCalls_settled next).append
      (r.asCalls_settled (next + nameNodes table (l.items true)))
    rw [Expr.asCalls]
    cases h : table.get? op with
    | none => exact hsides.expr h rfl
    | some name =>
      refine Settled.expr ?_ rfl rfl
      simpa [Expr.itemsAll] using (Expr.dotted_settled table enter _ name).append hsides
  | .arrowExpr _ _ _ e, next => ((e.asCalls_settled next).entered enter).expr rfl rfl
  | .arrow _ _ _ b, next | .function _ _ b, next => (b.asCalls_bodySettled next).expr rfl rfl

theorem Expr.asCallsAll_settled : ∀ (es : List Expr) (next : NodeId),
    Settled table (Expr.itemsAll enter es) (Expr.itemsAll enter (Expr.asCallsAll table next es))
  | [], _ => .nil
  | e :: es, next => (e.asCalls_settled next).append (Expr.asCallsAll_settled es _)

theorem Expr.asCallsProperties_settled : ∀ (ps : List (String × Expr)) (next : NodeId),
    Settled table (Expr.itemsProperties enter ps)
      (Expr.itemsProperties enter (Expr.asCallsProperties table next ps))
  | [], _ => .nil
  | (_, e) :: ps, next => (e.asCalls_settled next).append (Expr.asCallsProperties_settled ps _)

theorem Stmt.asCalls_settled : ∀ (s : Stmt) (next : NodeId),
    Settled table (s.items enter) ((s.asCalls table next).items enter)
  | .importNames _ _ _, _ | .empty _, _ | .binding _ _ _ none _, _ | .ret _ none, _ =>
    Settled.nil.stmt rfl rfl
  | .function _ _ b, next => (b.asCalls_bodySettled next).stmt rfl rfl
  | .classDecl _ _ ms, next => (Member.asCallsAll_settled ms next).stmt rfl rfl
  | .binding _ _ _ (some e) _, next | .expr _ e, next | .ret _ (some e), next
  | .throwExpr _ e, next => (e.asCalls_settled next).stmt rfl rfl
  | .ifElse _ c t none, next =>
    ((c.asCalls_settled next).append (t.asCalls_settled _)).stmt rfl rfl
  | .ifElse _ c t (some e), next => ((c.asCalls_settled next).append
    ((t.asCalls_settled _).append (e.asCalls_settled _))).stmt rfl rfl
  | .whileLoop _ e b, next | .forOf _ _ _ e b, next =>
    ((e.asCalls_settled next).append (b.asCalls_settled _)).stmt rfl rfl
  | .block _ b, next | .defer _ b, next => (b.asCalls_settled next).stmt rfl rfl
  | .tryFinally _ b f, next =>
    ((b.asCalls_settled next).append (f.asCalls_settled _)).stmt rfl rfl

theorem Stmt.asCallsAll_settled : ∀ (ss : List Stmt) (next : NodeId),
    Settled table (Stmt.itemsAll enter ss) (Stmt.itemsAll enter (Stmt.asCallsAll table next ss))
  | [], _ => .nil
  | s :: ss, next => (s.asCalls_settled next).append (Stmt.asCallsAll_settled ss _)

theorem Member.asCallsAll_settled : ∀ (ms : List Member) (next : NodeId),
    Settled table (Member.itemsAll enter ms)
      (Member.itemsAll enter (Member.asCallsAll table next ms))
  | [], _ => .nil
  | .field _ _ none :: ms, next => Member.asCallsAll_settled ms next
  | .field _ _ (some e) :: ms, next =>
    (e.asCalls_settled next).append (Member.asCallsAll_settled ms _)
  | .method _ _ b :: ms, next =>
    (b.asCalls_bodySettled next).append (Member.asCallsAll_settled ms _)

theorem Block.asCalls_settled : ∀ (b : Block) (next : NodeId),
    Settled table (b.items enter) ((b.asCalls table next).items enter)
  | ⟨_, ss⟩, next => Stmt.asCallsAll_settled ss next

theorem Block.asCalls_bodySettled : ∀ (b : Block) (next : NodeId),
    Settled table (b.bodyItems enter) ((b.asCalls table next).bodyItems enter)
  | ⟨_, ss⟩, next => (Stmt.asCallsAll_settled ss next).entered enter

end

end Settled

namespace Lowering

variable (table : OperatorTable) (file : SourceFile) (next : NodeId)

/-- Lowering a file gives the file with operators as calls and counts those with a name. -/
theorem run_operators : (operators table file).run next =
    ((file.asCalls table next, (callees table file.items).length),
      next + nameNodes table file.items) := by
  have hrun := stmts_make table next file.statements 0
  rw [Nat.zero_add] at hrun
  rw [operators, StateT.run_bind, hrun]
  rfl

theorem asCalls_settled : Settled table file.items (file.asCalls table next).items :=
  Stmt.asCallsAll_settled table true file.statements next

/-- Nodes without an operator that the table has a name for. -/
theorem unlowered_of_callees {items : List Item} (h : callees table items = []) :
    ∀ i ∈ items, Unlowered table i := by
  intro i hi
  have hcallee : i.callee? table = none := List.filterMap_eq_nil_iff.mp h i hi
  cases i with
  | stmt s => exact trivial
  | expr e =>
    cases e with
    | binary s op l r => exact hcallee
    | _ => exact trivial

theorem unlowered_empty (i : Item) : Unlowered .empty i := by
  cases i with
  | stmt s => exact trivial
  | expr e => cases e <;> trivial

/-- Lowering operators is the structural map: every operator with a name, and nothing else, becomes a
call. They are counted, and none is left for a second time; without names nothing happens. -/
theorem operators_eq_asCalls :
    (operators table file).run next = ((file.asCalls table next, (callees table file.items).length),
      next + nameNodes table file.items) ∧
    callees table (file.asCalls table next).items = [] ∧
    (∀ next', (operators table (file.asCalls table next)).run next' =
      ((file.asCalls table next, 0), next')) ∧
    (operators .empty file).run next = ((file, 0), next) := by
  have hnone := (asCalls_settled table file next).callees
  refine ⟨run_operators table file next, hnone, fun next' => ?_, ?_⟩
  · exact run_operators_of_unlowered (unlowered_of_callees table hnone) next'
  · exact run_operators_of_unlowered (fun i _ => unlowered_empty i) next

end Lowering

end MacroEngine
