import Mathlib.Logic.Function.Basic
import MacroEngine.Binding
import MacroEngine.Hook
import MacroEngine.Proofs.RoundTrip.Parens

/-!
# Renumbering trees

The identities of nodes depend on how many nodes came before them. `renumber` gives every node of a
tree another identity and leaves everything else as it is. What is read off a tree without asking
for identities is the same after a renumbering: its shape, its text, its sites, the macros that it
declares.
-/

namespace MacroEngine

def Stamp.renumber (ρ : NodeId → NodeId) (s : Stamp) : Stamp := ⟨ρ s.id, s.span⟩

section Definitions

variable (ρ : NodeId → NodeId)

mutual

/-- The expression with `ρ i` for every identity `i`. -/
def Expr.renumber : Expr → Expr
  | .ident s n => .ident (s.renumber ρ) n
  | .number s d => .number (s.renumber ρ) d
  | .str s v => .str (s.renumber ρ) v
  | .bool s v => .bool (s.renumber ρ) v
  | .null s => .null (s.renumber ρ)
  | .this s => .this (s.renumber ρ)
  | .template s r => .template (s.renumber ρ) r
  | .tagged s t r => .tagged (s.renumber ρ) t r
  | .array s es => .array (s.renumber ρ) (Expr.renumberAll es)
  | .object s ps => .object (s.renumber ρ) (Expr.renumberProperties ps)
  | .paren s e => .paren (s.renumber ρ) e.renumber
  | .member s o p => .member (s.renumber ρ) o.renumber p
  | .call s c as => .call (s.renumber ρ) c.renumber (Expr.renumberAll as)
  | .invoke s n as => .invoke (s.renumber ρ) n (Expr.renumberAll as)
  | .unary s o e => .unary (s.renumber ρ) o e.renumber
  | .binary s o l r => .binary (s.renumber ρ) o l.renumber r.renumber
  | .assign s t v => .assign (s.renumber ρ) t.renumber v.renumber
  | .await s e => .await (s.renumber ρ) e.renumber
  | .arrow s p a b => .arrow (s.renumber ρ) p a b.renumber
  | .arrowExpr s p a e => .arrowExpr (s.renumber ρ) p a e.renumber
  | .function s h b => .function (s.renumber ρ) h b.renumber

def Expr.renumberAll : List Expr → List Expr
  | [] => []
  | e :: es => e.renumber :: Expr.renumberAll es

def Expr.renumberProperties : List (String × Expr) → List (String × Expr)
  | [] => []
  | (name, e) :: ps => (name, e.renumber) :: Expr.renumberProperties ps

def Stmt.renumber : Stmt → Stmt
  | .importNames s ns m => .importNames (s.renumber ρ) ns m
  | .function s h b => .function (s.renumber ρ) h b.renumber
  | .classDecl s h ms => .classDecl (s.renumber ρ) h (Member.renumberAll ms)
  | .binding s k n none v => .binding (s.renumber ρ) k n none v
  | .binding s k n (some e) v => .binding (s.renumber ρ) k n (some e.renumber) v
  | .expr s e => .expr (s.renumber ρ) e.renumber
  | .ret s none => .ret (s.renumber ρ) none
  | .ret s (some e) => .ret (s.renumber ρ) (some e.renumber)
  | .ifElse s c t none => .ifElse (s.renumber ρ) c.renumber t.renumber none
  | .ifElse s c t (some e) => .ifElse (s.renumber ρ) c.renumber t.renumber (some e.renumber)
  | .whileLoop s c b => .whileLoop (s.renumber ρ) c.renumber b.renumber
  | .forOf s k n i b => .forOf (s.renumber ρ) k n i.renumber b.renumber
  | .block s b => .block (s.renumber ρ) b.renumber
  | .defer s b => .defer (s.renumber ρ) b.renumber
  | .tryFinally s b f => .tryFinally (s.renumber ρ) b.renumber f.renumber
  | .throwExpr s e => .throwExpr (s.renumber ρ) e.renumber
  | .empty s => .empty (s.renumber ρ)

def Stmt.renumberAll : List Stmt → List Stmt
  | [] => []
  | s :: ss => s.renumber :: Stmt.renumberAll ss

def Member.renumber : Member → Member
  | .field s n none => .field (s.renumber ρ) n none
  | .field s n (some e) => .field (s.renumber ρ) n (some e.renumber)
  | .method s h b => .method (s.renumber ρ) h b.renumber

def Member.renumberAll : List Member → List Member
  | [] => []
  | m :: ms => m.renumber :: Member.renumberAll ms

def Block.renumber : Block → Block
  | ⟨s, ss⟩ => ⟨s.renumber ρ, Stmt.renumberAll ss⟩

end

def Item.renumber : Item → Item
  | .stmt s => .stmt (s.renumber ρ)
  | .expr e => .expr (e.renumber ρ)

def Node.renumber : Node → Node
  | .expr e => .expr (e.renumber ρ)
  | .stmt s => .stmt (s.renumber ρ)
  | .void span => .void span

def SourceFile.renumber (file : SourceFile) : SourceFile :=
  { file with id := ρ file.id, statements := file.statements.map (Stmt.renumber ρ) }

def Declaration.renumber (d : Declaration) : Declaration := { d with id := ρ d.id }

def Finding.renumber : Finding → Finding
  | .declares d => .declares (d.renumber ρ)
  | .unbound name span => .unbound name span

def SiteView.renumber (view : SiteView) : SiteView where
  node := view.node.renumber ρ
  declaration := view.declaration.renumber ρ
  path := view.path
  statements := view.statements.map (Stmt.renumber ρ)

@[simp] theorem Expr.renumberAll_eq_map (es : List Expr) :
    Expr.renumberAll ρ es = es.map (Expr.renumber ρ) := by
  induction es with
  | nil => rfl
  | cons e es ih => simp [Expr.renumberAll, ih]

@[simp] theorem Expr.renumberProperties_eq_map (ps : List (String × Expr)) :
    Expr.renumberProperties ρ ps = ps.map fun p => (p.1, p.2.renumber ρ) := by
  induction ps with
  | nil => rfl
  | cons p ps ih => simp [Expr.renumberProperties, ih]

@[simp] theorem Stmt.renumberAll_eq_map (ss : List Stmt) :
    Stmt.renumberAll ρ ss = ss.map (Stmt.renumber ρ) := by
  induction ss with
  | nil => rfl
  | cons s ss ih => simp [Stmt.renumberAll, ih]

@[simp] theorem Member.renumberAll_eq_map (ms : List Member) :
    Member.renumberAll ρ ms = ms.map (Member.renumber ρ) := by
  induction ms with
  | nil => rfl
  | cons m ms ih => simp [Member.renumberAll, ih]

end Definitions

section Stamps

variable (ρ : NodeId → NodeId)

@[simp] theorem Expr.stamp_renumber (e : Expr) : (e.renumber ρ).stamp = e.stamp.renumber ρ := by
  cases e <;> rfl

@[simp] theorem Expr.id_renumber (e : Expr) : (e.renumber ρ).id = ρ e.id := by
  simp [Expr.id, Stamp.renumber]

@[simp] theorem Expr.span_renumber (e : Expr) : (e.renumber ρ).span = e.span := by
  simp [Expr.span, Stamp.renumber]

@[simp] theorem Expr.withStamp_renumber (s : Stamp) (e : Expr) :
    (e.withStamp s).renumber ρ = (e.renumber ρ).withStamp (s.renumber ρ) := by
  cases e <;> rfl

@[simp] theorem Expr.withSpan_renumber (span : Span) (e : Expr) :
    (e.withSpan span).renumber ρ = (e.renumber ρ).withSpan span := by
  simp [Expr.withSpan, Stamp.renumber]

@[simp] theorem Stmt.stamp_renumber (s : Stmt) : (s.renumber ρ).stamp = s.stamp.renumber ρ := by
  cases s with
  | binding _ _ _ init _ => cases init <;> rfl
  | ret _ value => cases value <;> rfl
  | ifElse _ _ _ alternative => cases alternative <;> rfl
  | _ => rfl

@[simp] theorem Stmt.id_renumber (s : Stmt) : (s.renumber ρ).id = ρ s.id := by
  simp [Stmt.id, Stamp.renumber]

@[simp] theorem Stmt.span_renumber (s : Stmt) : (s.renumber ρ).span = s.span := by
  simp [Stmt.span, Stamp.renumber]

@[simp] theorem Stmt.withStamp_renumber (stamp : Stamp) (s : Stmt) :
    (s.withStamp stamp).renumber ρ = (s.renumber ρ).withStamp (stamp.renumber ρ) := by
  cases s with
  | binding _ _ _ init _ => cases init <;> rfl
  | ret _ value => cases value <;> rfl
  | ifElse _ _ _ alternative => cases alternative <;> rfl
  | _ => rfl

@[simp] theorem Stmt.withSpan_renumber (span : Span) (s : Stmt) :
    (s.withSpan span).renumber ρ = (s.renumber ρ).withSpan span := by
  simp [Stmt.withSpan, Stamp.renumber]

@[simp] theorem Stmt.withId_renumber (i : NodeId) (s : Stmt) :
    (s.withId i).renumber ρ = (s.renumber ρ).withId (ρ i) := by
  simp [Stmt.withId, Stamp.renumber]

@[simp] theorem Node.span_renumber (n : Node) : (n.renumber ρ).span = n.span := by
  cases n <;> simp [Node.renumber, Node.span]

@[simp] theorem Node.withSpan_renumber (span : Span) (n : Node) :
    (n.withSpan span).renumber ρ = (n.renumber ρ).withSpan span := by
  cases n <;> simp [Node.renumber, Node.withSpan]

@[simp] theorem Node.isVoid_renumber (n : Node) : (n.renumber ρ).isVoid = n.isVoid := by
  cases n <;> rfl

end Stamps

section Shapes

variable (ρ : NodeId → NodeId)

@[simp] theorem Expr.useSite?_renumber (e : Expr) : (e.renumber ρ).useSite? = e.useSite? := by
  cases e <;> rfl

@[simp] theorem Stmt.isDerivedClass_renumber (s : Stmt) :
    (s.renumber ρ).isDerivedClass = s.isDerivedClass := by
  unfold Stmt.renumber
  split <;> rfl

@[simp] theorem Stmt.isReturn_renumber (s : Stmt) : (s.renumber ρ).isReturn = s.isReturn := by
  unfold Stmt.renumber
  split <;> rfl

@[simp] theorem Stmt.isDefer_renumber (s : Stmt) : (s.renumber ρ).isDefer = s.isDefer := by
  unfold Stmt.renumber
  split <;> rfl

@[simp] theorem Stmt.isExit_renumber (s : Stmt) : (s.renumber ρ).isExit = s.isExit := by
  unfold Stmt.renumber
  split <;> rfl

@[simp] theorem Declaration.exportName?_renumber (d : Declaration) :
    (d.renumber ρ).exportName? = d.exportName? := rfl

end Shapes

section Composition

variable (ρ σ : NodeId → NodeId)

mutual

theorem Expr.renumber_renumber : ∀ e : Expr,
    (e.renumber ρ).renumber σ = e.renumber fun i => σ (ρ i)
  | .ident _ _ | .number _ _ | .str _ _ | .bool _ _ | .null _ | .this _ | .template _ _
  | .tagged _ _ _ => rfl
  | .array _ es => congrArg (Expr.array _) (Expr.renumberAll_renumberAll es)
  | .object _ ps => congrArg (Expr.object _) (Expr.renumberProperties_renumberProperties ps)
  | .paren _ e => congrArg (Expr.paren _) e.renumber_renumber
  | .member _ o p => congrArg (Expr.member _ · p) o.renumber_renumber
  | .call _ c as =>
    congrArg₂ (Expr.call _) c.renumber_renumber (Expr.renumberAll_renumberAll as)
  | .invoke _ n as => congrArg (Expr.invoke _ n) (Expr.renumberAll_renumberAll as)
  | .unary _ o e => congrArg (Expr.unary _ o) e.renumber_renumber
  | .binary _ o l r => congrArg₂ (Expr.binary _ o) l.renumber_renumber r.renumber_renumber
  | .assign _ t v => congrArg₂ (Expr.assign _) t.renumber_renumber v.renumber_renumber
  | .await _ e => congrArg (Expr.await _) e.renumber_renumber
  | .arrow _ p a b => congrArg (Expr.arrow _ p a) b.renumber_renumber
  | .arrowExpr _ p a e => congrArg (Expr.arrowExpr _ p a) e.renumber_renumber
  | .function _ h b => congrArg (Expr.function _ h) b.renumber_renumber

theorem Expr.renumberAll_renumberAll : ∀ es : List Expr,
    Expr.renumberAll σ (Expr.renumberAll ρ es) = Expr.renumberAll (fun i => σ (ρ i)) es
  | [] => rfl
  | e :: es => congrArg₂ List.cons e.renumber_renumber (Expr.renumberAll_renumberAll es)

theorem Expr.renumberProperties_renumberProperties : ∀ ps : List (String × Expr),
    Expr.renumberProperties σ (Expr.renumberProperties ρ ps) =
      Expr.renumberProperties (fun i => σ (ρ i)) ps
  | [] => rfl
  | (name, e) :: ps => congrArg₂ (fun e ps => (name, e) :: ps) e.renumber_renumber
    (Expr.renumberProperties_renumberProperties ps)

theorem Stmt.renumber_renumber : ∀ s : Stmt,
    (s.renumber ρ).renumber σ = s.renumber fun i => σ (ρ i)
  | .importNames _ _ _ | .binding _ _ _ none _ | .ret _ none | .empty _ => rfl
  | .function _ h b => congrArg (Stmt.function _ h) b.renumber_renumber
  | .classDecl _ h ms => congrArg (Stmt.classDecl _ h) (Member.renumberAll_renumberAll ms)
  | .binding _ k n (some e) v =>
    congrArg (fun e => Stmt.binding _ k n (some e) v) e.renumber_renumber
  | .expr _ e => congrArg (Stmt.expr _) e.renumber_renumber
  | .ret _ (some e) => congrArg (fun e => Stmt.ret _ (some e)) e.renumber_renumber
  | .ifElse _ c t none =>
    congrArg₂ (Stmt.ifElse _ · · none) c.renumber_renumber t.renumber_renumber
  | .ifElse _ c t (some e) => by
    simp only [Stmt.renumber, c.renumber_renumber, t.renumber_renumber, e.renumber_renumber]
    rfl
  | .whileLoop _ c b => congrArg₂ (Stmt.whileLoop _) c.renumber_renumber b.renumber_renumber
  | .forOf _ k n i b => congrArg₂ (Stmt.forOf _ k n) i.renumber_renumber b.renumber_renumber
  | .block _ b => congrArg (Stmt.block _) b.renumber_renumber
  | .defer _ b => congrArg (Stmt.defer _) b.renumber_renumber
  | .tryFinally _ b f =>
    congrArg₂ (Stmt.tryFinally _) b.renumber_renumber f.renumber_renumber
  | .throwExpr _ e => congrArg (Stmt.throwExpr _) e.renumber_renumber

theorem Stmt.renumberAll_renumberAll : ∀ ss : List Stmt,
    Stmt.renumberAll σ (Stmt.renumberAll ρ ss) = Stmt.renumberAll (fun i => σ (ρ i)) ss
  | [] => rfl
  | s :: ss => congrArg₂ List.cons s.renumber_renumber (Stmt.renumberAll_renumberAll ss)

theorem Member.renumber_renumber : ∀ m : Member,
    (m.renumber ρ).renumber σ = m.renumber fun i => σ (ρ i)
  | .field _ _ none => rfl
  | .field _ n (some e) => congrArg (fun e => Member.field _ n (some e)) e.renumber_renumber
  | .method _ h b => congrArg (Member.method _ h) b.renumber_renumber

theorem Member.renumberAll_renumberAll : ∀ ms : List Member,
    Member.renumberAll σ (Member.renumberAll ρ ms) = Member.renumberAll (fun i => σ (ρ i)) ms
  | [] => rfl
  | m :: ms => congrArg₂ List.cons m.renumber_renumber (Member.renumberAll_renumberAll ms)

theorem Block.renumber_renumber : ∀ b : Block,
    (b.renumber ρ).renumber σ = b.renumber fun i => σ (ρ i)
  | ⟨_, ss⟩ => congrArg (Block.mk _) (Stmt.renumberAll_renumberAll ss)

end

theorem SourceFile.renumber_renumber (file : SourceFile) :
    (file.renumber ρ).renumber σ = file.renumber fun i => σ (ρ i) := by
  simp [SourceFile.renumber, Stmt.renumber_renumber]

end Composition

section Text

variable (ρ : NodeId → NodeId)

mutual

/-- A tree without its stamps is the same after a renumbering. -/
theorem Expr.recast_renumber : ∀ e : Expr, (e.renumber ρ).recast .bare = e.recast .bare
  | .ident _ _ | .number _ _ | .str _ _ | .bool _ _ | .null _ | .this _ | .template _ _
  | .tagged _ _ _ => rfl
  | .array _ es => congrArg (Expr.array _) (Expr.recastAll_renumberAll es)
  | .object _ ps => congrArg (Expr.object _) (Expr.recastProperties_renumberProperties ps)
  | .paren _ e => congrArg (Parens.node .bare) e.recast_renumber
  | .member _ o _ => by simp [Expr.renumber, Expr.recast, o.recast_renumber]
  | .call _ c as => by
    have has := Expr.recastAll_renumberAll as
    rw [Expr.renumberAll_eq_map] at has
    simp [Expr.renumber, Expr.recast, c.recast_renumber, has]
  | .invoke _ n as => congrArg (Expr.invoke _ n) (Expr.recastAll_renumberAll as)
  | .unary _ _ e | .await _ e | .arrowExpr _ _ _ e => by
    simp [Expr.renumber, Expr.recast, e.recast_renumber]
  | .binary _ _ a b | .assign _ a b => by
    simp [Expr.renumber, Expr.recast, a.recast_renumber, b.recast_renumber]
  | .arrow _ p a b => congrArg (Expr.arrow _ p a) b.recast_renumber
  | .function _ h b => congrArg (Expr.function _ h) b.recast_renumber

theorem Expr.recastAll_renumberAll : ∀ es : List Expr,
    Expr.recastAll .bare (Expr.renumberAll ρ es) = Expr.recastAll .bare es
  | [] => rfl
  | e :: es => congrArg₂ List.cons e.recast_renumber (Expr.recastAll_renumberAll es)

theorem Expr.recastProperties_renumberProperties : ∀ ps : List (String × Expr),
    Expr.recastProperties .bare (Expr.renumberProperties ρ ps) = Expr.recastProperties .bare ps
  | [] => rfl
  | (name, e) :: ps => congrArg₂ (fun e ps => (name, e) :: ps) e.recast_renumber
    (Expr.recastProperties_renumberProperties ps)

theorem Stmt.recast_renumber : ∀ s : Stmt, (s.renumber ρ).recast .bare = s.recast .bare
  | .importNames _ _ _ | .binding _ _ _ none _ | .ret _ none | .empty _ => rfl
  | .function _ h b => congrArg (Stmt.function _ h) b.recast_renumber
  | .classDecl _ h ms => congrArg (Stmt.classDecl _ h) (Member.recastAll_renumberAll ms)
  | .binding _ k n (some e) v =>
    congrArg (fun e => Stmt.binding _ k n (some e) v) e.recast_renumber
  | .expr _ e => by simp [Stmt.renumber, Stmt.recast, e.recast_renumber]
  | .ret _ (some e) => congrArg (fun e => Stmt.ret _ (some e)) e.recast_renumber
  | .ifElse _ c t none => congrArg₂ (Stmt.ifElse _ · · none) c.recast_renumber t.recast_renumber
  | .ifElse _ c t (some e) => by
    simp only [Stmt.renumber, Stmt.recast, c.recast_renumber, t.recast_renumber, e.recast_renumber]
  | .whileLoop _ c b => congrArg₂ (Stmt.whileLoop _) c.recast_renumber b.recast_renumber
  | .forOf _ k n i b => congrArg₂ (Stmt.forOf _ k n) i.recast_renumber b.recast_renumber
  | .block _ b => congrArg (Stmt.block _) b.recast_renumber
  | .defer _ b => congrArg (Stmt.defer _) b.recast_renumber
  | .tryFinally _ b f => congrArg₂ (Stmt.tryFinally _) b.recast_renumber f.recast_renumber
  | .throwExpr _ e => congrArg (Stmt.throwExpr _) e.recast_renumber

theorem Stmt.recastAll_renumberAll : ∀ ss : List Stmt,
    Stmt.recastAll .bare (Stmt.renumberAll ρ ss) = Stmt.recastAll .bare ss
  | [] => rfl
  | s :: ss => congrArg₂ List.cons s.recast_renumber (Stmt.recastAll_renumberAll ss)

theorem Member.recastAll_renumberAll : ∀ ms : List Member,
    Member.recastAll .bare (Member.renumberAll ρ ms) = Member.recastAll .bare ms
  | [] => rfl
  | .field _ n none :: ms =>
    congrArg (Member.field _ n none :: ·) (Member.recastAll_renumberAll ms)
  | .field _ n (some e) :: ms => congrArg₂ (fun e ms => Member.field _ n (some e) :: ms)
    e.recast_renumber (Member.recastAll_renumberAll ms)
  | .method _ h b :: ms => congrArg₂ (fun b ms => Member.method _ h b :: ms)
    b.recast_renumber (Member.recastAll_renumberAll ms)

theorem Block.recast_renumber : ∀ b : Block, (b.renumber ρ).recast .bare = b.recast .bare
  | ⟨_, ss⟩ => congrArg (Block.mk _) (Stmt.recastAll_renumberAll ss)

end

/-- A file prints the same text after a renumbering. -/
@[simp] theorem SourceFile.print_renumber (file : SourceFile) : (file.renumber ρ).print = file.print := by
  have h := Stmt.recastAll_renumberAll ρ file.statements
  calc (file.renumber ρ).print
      = Stmt.linesAt 0 (Stmt.recastAll .bare (Stmt.renumberAll ρ file.statements)) := by
        rw [Stmt.renumberAll_eq_map]
        exact (Stmt.linesAt_recastAll false 0 _).symm
    _ = Stmt.linesAt 0 (Stmt.recastAll .bare file.statements) := by rw [h]
    _ = file.print := Stmt.linesAt_recastAll false 0 file.statements

end Text

section Items

variable (ρ : NodeId → NodeId) (enter : Bool)

mutual

theorem Expr.items_renumber : ∀ e : Expr,
    (e.renumber ρ).items enter = (e.items enter).map (Item.renumber ρ)
  | .ident _ _ | .number _ _ | .str _ _ | .bool _ _ | .null _ | .this _ | .template _ _
  | .tagged _ _ _ => rfl
  | .array _ es => congrArg (List.cons _) (Expr.itemsAll_renumberAll es)
  | .object _ ps => congrArg (List.cons _) (Expr.itemsProperties_renumberProperties ps)
  | .invoke _ _ as => congrArg (List.cons _) (Expr.itemsAll_renumberAll as)
  | .paren _ e | .member _ e _ | .unary _ _ e | .await _ e => congrArg (List.cons _) e.items_renumber
  | .call _ c as => by
    have has := Expr.itemsAll_renumberAll as
    rw [Expr.renumberAll_eq_map] at has
    simp [Expr.renumber, Expr.items, Item.renumber, c.items_renumber, has]
  | .binary _ _ a b | .assign _ a b => by
    simp [Expr.renumber, Expr.items, Item.renumber, a.items_renumber, b.items_renumber]
  | .arrow _ _ _ b | .function _ _ b => congrArg (List.cons _) b.bodyItems_renumber
  | .arrowExpr _ _ _ e => by
    have he := e.items_renumber
    cases enter
    · rfl
    · exact congrArg (List.cons _) he

theorem Expr.itemsAll_renumberAll : ∀ es : List Expr,
    Expr.itemsAll enter (Expr.renumberAll ρ es) = (Expr.itemsAll enter es).map (Item.renumber ρ)
  | [] => rfl
  | e :: es => by
    rw [Expr.renumberAll, Expr.itemsAll, e.items_renumber, Expr.itemsAll_renumberAll es,
      Expr.itemsAll, List.map_append]

theorem Expr.itemsProperties_renumberProperties : ∀ ps : List (String × Expr),
    Expr.itemsProperties enter (Expr.renumberProperties ρ ps) =
      (Expr.itemsProperties enter ps).map (Item.renumber ρ)
  | [] => rfl
  | (_, e) :: ps => by
    rw [Expr.renumberProperties, Expr.itemsProperties, e.items_renumber,
      Expr.itemsProperties_renumberProperties ps, Expr.itemsProperties, List.map_append]

theorem Stmt.items_renumber : ∀ s : Stmt,
    (s.renumber ρ).items enter = (s.items enter).map (Item.renumber ρ)
  | .importNames _ _ _ | .binding _ _ _ none _ | .ret _ none | .empty _ => rfl
  | .function _ _ b => congrArg (List.cons _) b.bodyItems_renumber
  | .classDecl _ _ ms => congrArg (List.cons _) (Member.itemsAll_renumberAll ms)
  | .binding _ _ _ (some e) _ | .expr _ e | .ret _ (some e) | .throwExpr _ e =>
    congrArg (List.cons _) e.items_renumber
  | .ifElse _ c t none => by
    simp [Stmt.renumber, Stmt.items, Item.renumber, c.items_renumber, t.items_renumber]
  | .ifElse _ c t (some e) => by
    simp [Stmt.renumber, Stmt.items, Item.renumber, c.items_renumber, t.items_renumber,
      e.items_renumber]
  | .whileLoop _ e b | .forOf _ _ _ e b => by
    simp [Stmt.renumber, Stmt.items, Item.renumber, e.items_renumber, b.items_renumber]
  | .block _ b | .defer _ b => congrArg (List.cons _) b.items_renumber
  | .tryFinally _ b f => by
    simp [Stmt.renumber, Stmt.items, Item.renumber, b.items_renumber, f.items_renumber]

theorem Stmt.itemsAll_renumberAll : ∀ ss : List Stmt,
    Stmt.itemsAll enter (Stmt.renumberAll ρ ss) = (Stmt.itemsAll enter ss).map (Item.renumber ρ)
  | [] => rfl
  | s :: ss => by
    rw [Stmt.renumberAll, Stmt.itemsAll, s.items_renumber, Stmt.itemsAll_renumberAll ss,
      Stmt.itemsAll, List.map_append]

theorem Member.itemsAll_renumberAll : ∀ ms : List Member,
    Member.itemsAll enter (Member.renumberAll ρ ms) =
      (Member.itemsAll enter ms).map (Item.renumber ρ)
  | [] => rfl
  | .field _ _ none :: ms => Member.itemsAll_renumberAll ms
  | .field _ _ (some e) :: ms => by
    rw [Member.renumberAll, Member.renumber, Member.itemsAll, e.items_renumber,
      Member.itemsAll_renumberAll ms, Member.itemsAll, List.map_append]
  | .method _ _ b :: ms => by
    rw [Member.renumberAll, Member.renumber, Member.itemsAll, b.bodyItems_renumber,
      Member.itemsAll_renumberAll ms, Member.itemsAll, List.map_append]

theorem Block.items_renumber : ∀ b : Block,
    (b.renumber ρ).items enter = (b.items enter).map (Item.renumber ρ)
  | ⟨_, ss⟩ => Stmt.itemsAll_renumberAll ss

theorem Block.bodyItems_renumber : ∀ b : Block,
    (b.renumber ρ).bodyItems enter = (b.bodyItems enter).map (Item.renumber ρ)
  | ⟨_, ss⟩ => by
    have hss := Stmt.itemsAll_renumberAll ss
    cases enter
    · rfl
    · exact hss

end

theorem SourceFile.items_renumber (file : SourceFile) :
    (file.renumber ρ).items = file.items.map (Item.renumber ρ) := by
  rw [SourceFile.items, SourceFile.renumber, ← Stmt.renumberAll_eq_map, Stmt.itemsAll_renumberAll]
  rfl

end Items

section Findings

variable (ρ : NodeId → NodeId) (path : SourcePath)

theorem Finding.ofHead_renumber (stamp : Stamp) (shape : DeclarationShape) (name : Option String)
    (kind : Option MacroKind) : Finding.ofHead path (stamp.renumber ρ) shape name kind =
      (Finding.ofHead path stamp shape name kind).map (Finding.renumber ρ) := by
  cases kind <;> cases name <;> rfl

mutual

theorem Expr.findings_renumber : ∀ e : Expr,
    (e.renumber ρ).findings path = (e.findings path).map (Finding.renumber ρ)
  | .ident _ _ | .number _ _ | .str _ _ | .bool _ _ | .null _ | .this _ | .template _ _
  | .tagged _ _ _ => rfl
  | .array _ es => Expr.findingsAll_renumberAll es
  | .object _ ps => Expr.findingsProperties_renumberProperties ps
  | .invoke _ _ as => Expr.findingsAll_renumberAll as
  | .paren _ e | .member _ e _ | .unary _ _ e | .await _ e | .arrowExpr _ _ _ e => e.findings_renumber
  | .call _ c as => by
    rw [Expr.renumber, Expr.findings, c.findings_renumber, Expr.findingsAll_renumberAll as,
      Expr.findings, List.map_append]
  | .binary _ _ a b | .assign _ a b => by
    rw [Expr.renumber, Expr.findings, a.findings_renumber, b.findings_renumber, Expr.findings,
      List.map_append]
  | .arrow _ _ _ b => b.findings_renumber
  | .function s h b => by
    rw [Expr.renumber, Expr.findings, Expr.findings, b.findings_renumber]
    split <;> rfl

theorem Expr.findingsAll_renumberAll : ∀ es : List Expr,
    Expr.findingsAll path (Expr.renumberAll ρ es) =
      (Expr.findingsAll path es).map (Finding.renumber ρ)
  | [] => rfl
  | e :: es => by
    rw [Expr.renumberAll, Expr.findingsAll, e.findings_renumber, Expr.findingsAll_renumberAll es,
      Expr.findingsAll, List.map_append]

theorem Expr.findingsProperties_renumberProperties : ∀ ps : List (String × Expr),
    Expr.findingsProperties path (Expr.renumberProperties ρ ps) =
      (Expr.findingsProperties path ps).map (Finding.renumber ρ)
  | [] => rfl
  | (_, e) :: ps => by
    rw [Expr.renumberProperties, Expr.findingsProperties, e.findings_renumber,
      Expr.findingsProperties_renumberProperties ps, Expr.findingsProperties, List.map_append]

theorem Stmt.findings_renumber : ∀ s : Stmt,
    (s.renumber ρ).findings path = (s.findings path).map (Finding.renumber ρ)
  | .importNames _ _ _ | .binding _ _ _ none _ | .ret _ none | .empty _ => rfl
  | .function s h b => by
    rw [Stmt.renumber, Stmt.findings, Finding.ofHead_renumber, b.findings_renumber, Stmt.findings,
      List.map_append]
  | .classDecl _ _ ms => Member.findingsAll_renumberAll ms
  | .binding _ _ name (some e) _ => by
    have he := e.findings_renumber
    cases e with
    | function s h b =>
      have hb := b.findings_renumber
      rw [Stmt.renumber, Expr.renumber, Stmt.findings, Finding.ofHead_renumber, hb, Stmt.findings,
        List.map_append]
    | _ => exact he
  | .expr _ e | .ret _ (some e) | .throwExpr _ e => e.findings_renumber
  | .ifElse _ c t none => by
    rw [Stmt.renumber, Stmt.findings, c.findings_renumber, t.findings_renumber, Stmt.findings,
      List.map_append]
  | .ifElse _ c t (some e) => by
    rw [Stmt.renumber, Stmt.findings, c.findings_renumber, t.findings_renumber, e.findings_renumber,
      Stmt.findings, List.map_append, List.map_append]
  | .whileLoop _ e b | .forOf _ _ _ e b => by
    rw [Stmt.renumber, Stmt.findings, e.findings_renumber, b.findings_renumber, Stmt.findings,
      List.map_append]
  | .block _ b | .defer _ b => b.findings_renumber
  | .tryFinally _ b f => by
    rw [Stmt.renumber, Stmt.findings, b.findings_renumber, f.findings_renumber, Stmt.findings,
      List.map_append]

theorem Stmt.findingsAll_renumberAll : ∀ ss : List Stmt,
    Stmt.findingsAll path (Stmt.renumberAll ρ ss) =
      (Stmt.findingsAll path ss).map (Finding.renumber ρ)
  | [] => rfl
  | s :: ss => by
    rw [Stmt.renumberAll, Stmt.findingsAll, s.findings_renumber, Stmt.findingsAll_renumberAll ss,
      Stmt.findingsAll, List.map_append]

theorem Member.findingsAll_renumberAll : ∀ ms : List Member,
    Member.findingsAll path (Member.renumberAll ρ ms) =
      (Member.findingsAll path ms).map (Finding.renumber ρ)
  | [] => rfl
  | .field _ _ none :: ms => Member.findingsAll_renumberAll ms
  | .field _ _ (some e) :: ms => by
    rw [Member.renumberAll, Member.renumber, Member.findingsAll, e.findings_renumber,
      Member.findingsAll_renumberAll ms, Member.findingsAll, List.map_append]
  | .method _ _ b :: ms => by
    rw [Member.renumberAll, Member.renumber, Member.findingsAll, b.findings_renumber,
      Member.findingsAll_renumberAll ms, Member.findingsAll, List.map_append]

theorem Block.findings_renumber : ∀ b : Block,
    (b.renumber ρ).findings path = (b.findings path).map (Finding.renumber ρ)
  | ⟨_, ss⟩ => Stmt.findingsAll_renumberAll ss

end

theorem SourceFile.findings_renumber (file : SourceFile) :
    (file.renumber ρ).findings = file.findings.map (Finding.renumber ρ) := by
  rw [SourceFile.findings, SourceFile.renumber, ← Stmt.renumberAll_eq_map,
    Stmt.findingsAll_renumberAll]
  rfl

end Findings

end MacroEngine
