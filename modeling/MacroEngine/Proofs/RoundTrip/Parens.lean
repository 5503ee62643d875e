import MacroEngine.Tree.Printer

/-!
# Trees up to parentheses

Printing puts parentheses around an expression that binds less tightly than its place asks for. A
tree can be recast with those parentheses as nodes (`explicit`), with the nodes it has (`bare`), or
without any (`core`), and in each case without its stamps. The first two print like the tree itself,
and all three have the same core.
-/

namespace MacroEngine

/-- A place in a tree that may call for parentheses. -/
inductive Place where
  | level (least : Nat)
  | statement
  | arrowBody

def Place.wraps : Place → Expr → Bool
  | level least, e => e.level < least
  | statement, e => Printer.needsParens e
  | arrowBody, e => Printer.isObject e

/-- What becomes of parentheses: whether those of the tree are kept, and whether those that printing
adds become nodes. -/
structure Parens where
  keep : Bool
  add : Bool

def Parens.node (k : Parens) (e : Expr) : Expr := if k.keep then .paren default e else e

def Parens.put (k : Parens) (place : Place) (e e' : Expr) : Expr :=
  if k.add && place.wraps e then .paren default e' else e'

mutual

def Expr.recast (k : Parens) : Expr → Expr
  | .ident _ name => .ident default name
  | .number _ digits => .number default digits
  | .str _ value => .str default value
  | .bool _ value => .bool default value
  | .null _ => .null default
  | .this _ => .this default
  | .template _ raw => .template default raw
  | .tagged _ tag raw => .tagged default tag raw
  | .array _ items => .array default (Expr.recastAll k items)
  | .object _ properties => .object default (Expr.recastProperties k properties)
  | .paren _ e => k.node (e.recast k)
  | .member _ object property =>
    .member default (k.put (.level Level.postfixed) object (object.recast k)) property
  | .call _ callee args =>
    .call default (k.put (.level Level.postfixed) callee (callee.recast k)) (Expr.recastAll k args)
  | .invoke _ name args => .invoke default name (Expr.recastAll k args)
  | .unary _ op operand =>
    .unary default op (k.put (.level Level.unary) operand (operand.recast k))
  | .binary _ op lhs rhs =>
    .binary default op (k.put (.level (Printer.operandLevels op).1) lhs (lhs.recast k))
      (k.put (.level (Printer.operandLevels op).2) rhs (rhs.recast k))
  | .assign _ target value =>
    .assign default (k.put (.level Level.postfixed) target (target.recast k)) (value.recast k)
  | .await _ operand => .await default (k.put (.level Level.unary) operand (operand.recast k))
  | .arrow _ names isAsync body => .arrow default names isAsync (body.recast k)
  | .arrowExpr _ names isAsync body =>
    .arrowExpr default names isAsync (k.put .arrowBody body (body.recast k))
  | .function _ head body => .function default head (body.recast k)

def Expr.recastAll (k : Parens) : List Expr → List Expr
  | [] => []
  | e :: es => e.recast k :: Expr.recastAll k es

def Expr.recastProperties (k : Parens) : List (String × Expr) → List (String × Expr)
  | [] => []
  | (name, e) :: ps => (name, e.recast k) :: Expr.recastProperties k ps

def Stmt.recast (k : Parens) : Stmt → Stmt
  | .importNames _ names specifier => .importNames default names specifier
  | .function _ head body => .function default head (body.recast k)
  | .classDecl _ head members => .classDecl default head (Member.recastAll k members)
  | .binding _ kind name none visibility => .binding default kind name none visibility
  | .binding _ kind name (some e) visibility =>
    .binding default kind name (some (e.recast k)) visibility
  | .expr _ e => .expr default (k.put .statement e (e.recast k))
  | .ret _ none => .ret default none
  | .ret _ (some e) => .ret default (some (e.recast k))
  | .ifElse _ c t none => .ifElse default (c.recast k) (t.recast k) none
  | .ifElse _ c t (some e) => .ifElse default (c.recast k) (t.recast k) (some (e.recast k))
  | .whileLoop _ c body => .whileLoop default (c.recast k) (body.recast k)
  | .forOf _ kind name iterable body =>
    .forOf default kind name (iterable.recast k) (body.recast k)
  | .block _ body => .block default (body.recast k)
  | .defer _ body => .defer default (body.recast k)
  | .tryFinally _ body finalizer => .tryFinally default (body.recast k) (finalizer.recast k)
  | .throwExpr _ e => .throwExpr default (e.recast k)
  | .empty _ => .empty default

def Stmt.recastAll (k : Parens) : List Stmt → List Stmt
  | [] => []
  | s :: ss => s.recast k :: Stmt.recastAll k ss

def Member.recastAll (k : Parens) : List Member → List Member
  | [] => []
  | .field _ name none :: ms => .field default name none :: Member.recastAll k ms
  | .field _ name (some e) :: ms => .field default name (some (e.recast k)) :: Member.recastAll k ms
  | .method _ head body :: ms => .method default head (body.recast k) :: Member.recastAll k ms

def Block.recast (k : Parens) : Block → Block
  | ⟨_, ss⟩ => ⟨default, Stmt.recastAll k ss⟩

end

namespace Parens

def core : Parens := ⟨false, false⟩

def bare : Parens := ⟨true, false⟩

/-- With the parentheses of the tree and those that printing adds. -/
def explicit : Parens := ⟨true, true⟩

@[simp] theorem put_core (place : Place) (e e' : Expr) : core.put place e e' = e' := by
  simp [core, put]

@[simp] theorem put_bare (place : Place) (e e' : Expr) : bare.put place e e' = e' := by
  simp [bare, put]

@[simp] theorem node_core (e : Expr) : core.node e = e := by simp [core, node]

@[simp] theorem node_bare (e : Expr) : bare.node e = .paren default e := by simp [bare, node]

@[simp] theorem recast_core_put (k : Parens) (place : Place) (e e' : Expr) :
    (k.put place e e').recast core = e'.recast core := by
  unfold put
  split
  · simp [Expr.recast]
  · rfl

@[simp] theorem recast_core_node (k : Parens) (e : Expr) :
    (k.node e).recast core = e.recast core := by
  unfold node
  split
  · simp [Expr.recast]
  · rfl

end Parens

section Core

variable (k : Parens)

mutual

/-- However a tree is recast, its core stays the same. -/
theorem Expr.recast_core_recast : ∀ e : Expr, (e.recast k).recast .core = e.recast .core
  | .ident _ _ | .number _ _ | .str _ _ | .bool _ _ | .null _ | .this _ | .template _ _
  | .tagged _ _ _ => rfl
  | .array _ items => by simp [Expr.recast, Expr.recastAll_core_recastAll items]
  | .object _ ps => by simp [Expr.recast, Expr.recastProperties_core_recastProperties ps]
  | .paren _ e => by simp [Expr.recast, e.recast_core_recast]
  | .member _ object _ => by simp [Expr.recast, object.recast_core_recast]
  | .call _ callee args => by
    simp [Expr.recast, callee.recast_core_recast, Expr.recastAll_core_recastAll args]
  | .invoke _ _ args => by simp [Expr.recast, Expr.recastAll_core_recastAll args]
  | .unary _ _ operand => by simp [Expr.recast, operand.recast_core_recast]
  | .binary _ _ lhs rhs => by
    simp [Expr.recast, lhs.recast_core_recast, rhs.recast_core_recast]
  | .assign _ target value => by
    simp [Expr.recast, target.recast_core_recast, value.recast_core_recast]
  | .await _ operand => by simp [Expr.recast, operand.recast_core_recast]
  | .arrow _ _ _ body => by simp [Expr.recast, body.recast_core_recast]
  | .arrowExpr _ _ _ body => by simp [Expr.recast, body.recast_core_recast]
  | .function _ _ body => by simp [Expr.recast, body.recast_core_recast]

theorem Expr.recastAll_core_recastAll :
    ∀ es : List Expr, Expr.recastAll .core (Expr.recastAll k es) = Expr.recastAll .core es
  | [] => rfl
  | e :: es => by simp [Expr.recastAll, e.recast_core_recast, Expr.recastAll_core_recastAll es]

theorem Expr.recastProperties_core_recastProperties : ∀ ps : List (String × Expr),
    Expr.recastProperties .core (Expr.recastProperties k ps) = Expr.recastProperties .core ps
  | [] => rfl
  | (_, e) :: ps => by
    simp [Expr.recastProperties, e.recast_core_recast,
      Expr.recastProperties_core_recastProperties ps]

theorem Stmt.recast_core_recast : ∀ s : Stmt, (s.recast k).recast .core = s.recast .core
  | .importNames _ _ _ | .binding _ _ _ none _ | .ret _ none | .empty _ => rfl
  | .function _ _ body => by simp [Stmt.recast, body.recast_core_recast]
  | .classDecl _ _ members => by simp [Stmt.recast, Member.recastAll_core_recastAll members]
  | .binding _ _ _ (some e) _ => by simp [Stmt.recast, e.recast_core_recast]
  | .expr _ e => by simp [Stmt.recast, e.recast_core_recast]
  | .ret _ (some e) => by simp [Stmt.recast, e.recast_core_recast]
  | .ifElse _ c t none => by simp [Stmt.recast, c.recast_core_recast, t.recast_core_recast]
  | .ifElse _ c t (some e) => by
    simp [Stmt.recast, c.recast_core_recast, t.recast_core_recast, e.recast_core_recast]
  | .whileLoop _ c body => by simp [Stmt.recast, c.recast_core_recast, body.recast_core_recast]
  | .forOf _ _ _ iterable body => by
    simp [Stmt.recast, iterable.recast_core_recast, body.recast_core_recast]
  | .block _ body => by simp [Stmt.recast, body.recast_core_recast]
  | .defer _ body => by simp [Stmt.recast, body.recast_core_recast]
  | .tryFinally _ body finalizer => by
    simp [Stmt.recast, body.recast_core_recast, finalizer.recast_core_recast]
  | .throwExpr _ e => by simp [Stmt.recast, e.recast_core_recast]

theorem Stmt.recastAll_core_recastAll :
    ∀ ss : List Stmt, Stmt.recastAll .core (Stmt.recastAll k ss) = Stmt.recastAll .core ss
  | [] => rfl
  | s :: ss => by simp [Stmt.recastAll, s.recast_core_recast, Stmt.recastAll_core_recastAll ss]

theorem Member.recastAll_core_recastAll :
    ∀ ms : List Member, Member.recastAll .core (Member.recastAll k ms) = Member.recastAll .core ms
  | [] => rfl
  | .field _ _ none :: ms => by simp [Member.recastAll, Member.recastAll_core_recastAll ms]
  | .field _ _ (some e) :: ms => by
    simp [Member.recastAll, e.recast_core_recast, Member.recastAll_core_recastAll ms]
  | .method _ _ body :: ms => by
    simp [Member.recastAll, body.recast_core_recast, Member.recastAll_core_recastAll ms]

theorem Block.recast_core_recast : ∀ b : Block, (b.recast k).recast .core = b.recast .core
  | ⟨_, ss⟩ => by simp [Block.recast, Stmt.recastAll_core_recastAll ss]

end

end Core

section Text

variable (add : Bool)

@[simp] theorem level_recast (e : Expr) : (e.recast ⟨true, add⟩).level = e.level := by
  cases e <;> rfl

@[simp] theorem isObject_recast (e : Expr) :
    Printer.isObject (e.recast ⟨true, add⟩) = Printer.isObject e := by
  cases e <;> rfl

@[simp] theorem needsParens_recast (e : Expr) :
    Printer.needsParens (e.recast ⟨true, add⟩) = Printer.needsParens e := by
  cases e <;> rfl

theorem place_put {least : Nat} {e e' : Expr} (hleast : least ≤ Level.primary)
    (hlevel : e'.level = e.level) (depth : Nat) :
    Printer.place least (Parens.put ⟨true, add⟩ (.level least) e e')
      ((Parens.put ⟨true, add⟩ (.level least) e e').textAt depth) =
      Printer.place least e (e'.textAt depth) := by
  unfold Parens.put Place.wraps Printer.place
  by_cases hwraps : e.level < least
  · cases add with
    | true =>
      have hparen : (Expr.paren default e').level = Level.primary := rfl
      have hnot : ¬ (Expr.paren default e').level < least := by omega
      simp [hwraps, hnot, Expr.textAt]
    | false => simp [hwraps, hlevel]
  · simp [hwraps, hlevel]

theorem statement_put {e e' : Expr} (h : Printer.needsParens e' = Printer.needsParens e)
    (depth : Nat) :
    (if Printer.needsParens (Parens.put ⟨true, add⟩ .statement e e') then
      Printer.parens ((Parens.put ⟨true, add⟩ .statement e e').textAt depth)
      else (Parens.put ⟨true, add⟩ .statement e e').textAt depth) =
    if Printer.needsParens e then Printer.parens (e'.textAt depth) else e'.textAt depth := by
  unfold Parens.put Place.wraps
  cases hneeds : Printer.needsParens e with
  | false => simp [hneeds, h]
  | true =>
    have hparen : Printer.needsParens (.paren default e') = false := rfl
    cases add <;> simp [hneeds, h, hparen, Expr.textAt]

theorem arrowBody_put {e e' : Expr} (h : Printer.isObject e' = Printer.isObject e) (depth : Nat) :
    (if Printer.isObject (Parens.put ⟨true, add⟩ .arrowBody e e') then
      Printer.parens ((Parens.put ⟨true, add⟩ .arrowBody e e').textAt depth)
      else (Parens.put ⟨true, add⟩ .arrowBody e e').textAt depth) =
    if Printer.isObject e then Printer.parens (e'.textAt depth) else e'.textAt depth := by
  unfold Parens.put Place.wraps
  cases hobject : Printer.isObject e with
  | false => simp [hobject, h]
  | true =>
    have hparen : Printer.isObject (.paren default e') = false := rfl
    cases add <;> simp [hobject, h, hparen, Expr.textAt]

theorem operandLevels_le (op : BinaryOp) : (Printer.operandLevels op).1 ≤ Level.primary ∧
    (Printer.operandLevels op).2 ≤ Level.primary := by
  cases op <;> decide

mutual

/-- With all the parentheses it has, a tree prints the same text, also when those that printing adds
have become nodes. -/
theorem Expr.textAt_recast (depth : Nat) :
    ∀ e : Expr, (e.recast ⟨true, add⟩).textAt depth = e.textAt depth
  | .ident _ _ | .number _ _ | .str _ _ | .bool _ _ | .null _ | .this _ | .template _ _
  | .tagged _ _ _ => rfl
  | .array _ items => by simp [Expr.recast, Expr.textAt, Expr.textsAt_recastAll depth items]
  | .object _ [] => rfl
  | .object _ (p :: ps) => by
    have h := Expr.propertiesAt_recastProperties depth (p :: ps)
    simp only [Expr.recast]
    obtain ⟨name, e⟩ := p
    simp only [Expr.recastProperties] at h ⊢
    simp only [Expr.textAt, h]
  | .paren _ e => by simp [Expr.recast, Parens.node, Expr.textAt, e.textAt_recast depth]
  | .member _ object _ => by
    simp only [Expr.recast, Expr.textAt]
    rw [place_put add (by decide) (level_recast add object), object.textAt_recast depth]
  | .call _ callee args => by
    simp only [Expr.recast, Expr.textAt]
    rw [place_put add (by decide) (level_recast add callee), callee.textAt_recast depth,
      Expr.textsAt_recastAll depth args]
  | .invoke _ _ args => by
    simp only [Expr.recast, Expr.textAt]
    rw [Expr.textsAt_recastAll depth args]
  | .unary _ _ operand => by
    simp only [Expr.recast, Expr.textAt]
    rw [place_put add (by decide) (level_recast add operand), operand.textAt_recast depth]
  | .binary _ op lhs rhs => by
    simp only [Expr.recast, Expr.textAt]
    rw [place_put add (operandLevels_le op).1 (level_recast add lhs), lhs.textAt_recast depth,
      place_put add (operandLevels_le op).2 (level_recast add rhs), rhs.textAt_recast depth]
  | .assign _ target value => by
    simp only [Expr.recast, Expr.textAt]
    rw [place_put add (by decide) (level_recast add target), target.textAt_recast depth,
      value.textAt_recast depth]
  | .await _ operand => by
    simp only [Expr.recast, Expr.textAt]
    rw [place_put add (by decide) (level_recast add operand), operand.textAt_recast depth]
  | .arrow _ _ _ body => by simp only [Expr.recast, Expr.textAt, body.textAt_recast depth]
  | .arrowExpr _ _ _ body => by
    simp only [Expr.recast, Expr.textAt]
    rw [arrowBody_put add (isObject_recast add body), body.textAt_recast depth]
  | .function _ _ body => by simp only [Expr.recast, Expr.textAt, body.textAt_recast depth]

theorem Expr.textsAt_recastAll (depth : Nat) :
    ∀ es : List Expr, Expr.textsAt depth (Expr.recastAll ⟨true, add⟩ es) = Expr.textsAt depth es
  | [] => rfl
  | e :: es => by
    simp only [Expr.recastAll, Expr.textsAt, e.textAt_recast depth, Expr.textsAt_recastAll depth es]

theorem Expr.propertiesAt_recastProperties (depth : Nat) : ∀ ps : List (String × Expr),
    Expr.propertiesAt depth (Expr.recastProperties ⟨true, add⟩ ps) = Expr.propertiesAt depth ps
  | [] => rfl
  | (_, e) :: ps => by
    simp only [Expr.recastProperties, Expr.propertiesAt, e.textAt_recast depth,
      Expr.propertiesAt_recastProperties depth ps]

theorem Stmt.textAt_recast (depth : Nat) :
    ∀ s : Stmt, (s.recast ⟨true, add⟩).textAt depth = s.textAt depth
  | .importNames _ _ _ | .binding _ _ _ none _ | .ret _ none | .empty _ => rfl
  | .function _ _ body => by simp only [Stmt.recast, Stmt.textAt, body.textAt_recast depth]
  | .classDecl _ _ members => by
    simp only [Stmt.recast, Stmt.textAt, Member.linesAt_recastAll (depth + 1) members]
  | .binding _ _ _ (some e) _ => by simp only [Stmt.recast, Stmt.textAt, e.textAt_recast depth]
  | .expr _ e => by
    simp only [Stmt.recast, Stmt.textAt]
    rw [statement_put add (needsParens_recast add e), e.textAt_recast depth]
  | .ret _ (some e) => by simp only [Stmt.recast, Stmt.textAt, e.textAt_recast depth]
  | .ifElse _ c t none => by
    simp only [Stmt.recast, Stmt.textAt, c.textAt_recast depth, t.textAt_recast depth]
  | .ifElse _ c t (some e) => by
    simp only [Stmt.recast, Stmt.textAt, c.textAt_recast depth, t.textAt_recast depth,
      e.textAt_recast depth]
  | .whileLoop _ c body => by
    simp only [Stmt.recast, Stmt.textAt, c.textAt_recast depth, body.textAt_recast depth]
  | .forOf _ _ _ iterable body => by
    simp only [Stmt.recast, Stmt.textAt, iterable.textAt_recast depth, body.textAt_recast depth]
  | .block _ body => by simp only [Stmt.recast, Stmt.textAt, body.textAt_recast depth]
  | .defer _ body => by simp only [Stmt.recast, Stmt.textAt, body.textAt_recast depth]
  | .tryFinally _ body finalizer => by
    simp only [Stmt.recast, Stmt.textAt, body.textAt_recast depth, finalizer.textAt_recast depth]
  | .throwExpr _ e => by simp only [Stmt.recast, Stmt.textAt, e.textAt_recast depth]

theorem Stmt.linesAt_recastAll (depth : Nat) : ∀ ss : List Stmt,
    Stmt.linesAt depth (Stmt.recastAll ⟨true, add⟩ ss) = Stmt.linesAt depth ss
  | [] => rfl
  | s :: ss => by
    simp only [Stmt.recastAll, Stmt.linesAt, s.textAt_recast depth, Stmt.linesAt_recastAll depth ss]

theorem Member.linesAt_recastAll (depth : Nat) : ∀ ms : List Member,
    Member.linesAt depth (Member.recastAll ⟨true, add⟩ ms) = Member.linesAt depth ms
  | [] => rfl
  | .field _ _ none :: ms => by
    simp only [Member.recastAll, Member.linesAt, Member.linesAt_recastAll depth ms]
  | .field _ _ (some e) :: ms => by
    simp only [Member.recastAll, Member.linesAt, e.textAt_recast depth,
      Member.linesAt_recastAll depth ms]
  | .method _ _ body :: ms => by
    simp only [Member.recastAll, Member.linesAt, body.textAt_recast depth,
      Member.linesAt_recastAll depth ms]

theorem Block.textAt_recast (depth : Nat) :
    ∀ b : Block, (b.recast ⟨true, add⟩).textAt depth = b.textAt depth
  | ⟨_, ss⟩ => by
    simp only [Block.recast, Block.textAt, Stmt.linesAt_recastAll (depth + 1) ss]

end

end Text

end MacroEngine
