import MacroEngine.Proofs.Order.Renumber

/-!
# The derive names that a tree lists

Every class in a tree lists the derive names that it is to be expanded by. A tree is within some
names if its classes list no others. This does not depend on the numbers of its nodes.
-/

namespace MacroEngine

section Within

variable (names : String → Prop)

mutual

/-- The classes in an expression list some names only. -/
def Expr.Within : Expr → Prop
  | .ident _ _ | .number _ _ | .str _ _ | .bool _ _ | .null _ | .this _ | .template _ _
  | .tagged _ _ _ => True
  | .array _ es => Expr.WithinAll es
  | .object _ ps => Expr.WithinProperties ps
  | .paren _ e => e.Within
  | .member _ o _ => o.Within
  | .call _ c as => c.Within ∧ Expr.WithinAll as
  | .invoke _ _ as => Expr.WithinAll as
  | .unary _ _ e => e.Within
  | .binary _ _ l r => l.Within ∧ r.Within
  | .assign _ t v => t.Within ∧ v.Within
  | .await _ e => e.Within
  | .arrow _ _ _ b => b.Within
  | .arrowExpr _ _ _ e => e.Within
  | .function _ _ b => b.Within

def Expr.WithinAll : List Expr → Prop
  | [] => True
  | e :: es => e.Within ∧ Expr.WithinAll es

def Expr.WithinProperties : List (String × Expr) → Prop
  | [] => True
  | (_, e) :: ps => e.Within ∧ Expr.WithinProperties ps

def Stmt.Within : Stmt → Prop
  | .importNames _ _ _ | .binding _ _ _ none _ | .ret _ none | .empty _ => True
  | .function _ _ b => b.Within
  | .classDecl _ head ms => (∀ name ∈ head.derives, names name) ∧ Member.WithinAll ms
  | .binding _ _ _ (some e) _ => e.Within
  | .expr _ e => e.Within
  | .ret _ (some e) => e.Within
  | .ifElse _ c t none => c.Within ∧ t.Within
  | .ifElse _ c t (some e) => c.Within ∧ t.Within ∧ e.Within
  | .whileLoop _ c b => c.Within ∧ b.Within
  | .forOf _ _ _ i b => i.Within ∧ b.Within
  | .block _ b => b.Within
  | .defer _ b => b.Within
  | .tryFinally _ b f => b.Within ∧ f.Within
  | .throwExpr _ e => e.Within

def Stmt.WithinAll : List Stmt → Prop
  | [] => True
  | s :: ss => s.Within ∧ Stmt.WithinAll ss

def Member.Within : Member → Prop
  | .field _ _ none => True
  | .field _ _ (some e) => e.Within
  | .method _ _ b => b.Within

def Member.WithinAll : List Member → Prop
  | [] => True
  | m :: ms => m.Within ∧ Member.WithinAll ms

def Block.Within : Block → Prop
  | ⟨_, ss⟩ => Stmt.WithinAll ss

end

def Node.Within : Node → Prop
  | .expr e => e.Within names
  | .stmt s => s.Within names
  | .void _ => True

def Item.Within : Item → Prop
  | .stmt (.classDecl _ head _) => ∀ name ∈ head.derives, names name
  | _ => True

variable {names}

theorem Expr.withinAll_iff {es : List Expr} :
    Expr.WithinAll names es ↔ ∀ e ∈ es, e.Within names := by
  induction es with
  | nil => exact ⟨fun _ _ h => absurd h List.not_mem_nil, fun _ => trivial⟩
  | cons e es ih => rw [List.forall_mem_cons, ← ih, Expr.WithinAll]

theorem Expr.withinProperties_iff {ps : List (String × Expr)} :
    Expr.WithinProperties names ps ↔ ∀ p ∈ ps, p.2.Within names := by
  induction ps with
  | nil => exact ⟨fun _ _ h => absurd h List.not_mem_nil, fun _ => trivial⟩
  | cons p ps ih => rw [List.forall_mem_cons, ← ih, Expr.WithinProperties]

theorem Stmt.withinAll_iff {ss : List Stmt} :
    Stmt.WithinAll names ss ↔ ∀ s ∈ ss, s.Within names := by
  induction ss with
  | nil => exact ⟨fun _ _ h => absurd h List.not_mem_nil, fun _ => trivial⟩
  | cons s ss ih => rw [List.forall_mem_cons, ← ih, Stmt.WithinAll]

theorem Member.withinAll_iff {ms : List Member} :
    Member.WithinAll names ms ↔ ∀ m ∈ ms, m.Within names := by
  induction ms with
  | nil => exact ⟨fun _ _ h => absurd h List.not_mem_nil, fun _ => trivial⟩
  | cons m ms ih => rw [List.forall_mem_cons, ← ih, Member.WithinAll]

end Within

section Items

variable (names : String → Prop)

/-- A node that lists no name does not count. -/
theorem Item.forall_within_cons {i : Item} {items : List Item} {p : Prop}
    (h : p ↔ ∀ i ∈ items, i.Within names) (hi : i.Within names := by trivial) :
    p ↔ ∀ j ∈ i :: items, j.Within names := by
  rw [List.forall_mem_cons, h]
  exact (and_iff_right hi).symm

theorem Item.forall_within_append {items more : List Item} {p q : Prop}
    (hp : p ↔ ∀ i ∈ items, i.Within names) (hq : q ↔ ∀ i ∈ more, i.Within names) :
    p ∧ q ↔ ∀ i ∈ items ++ more, i.Within names := by
  rw [List.forall_mem_append, hp, hq]

open Item

mutual

/-- A tree is within some names just if each of its nodes is. -/
theorem Expr.within_iff : ∀ e : Expr, e.Within names ↔ ∀ i ∈ e.items true, i.Within names
  | .ident _ _ | .number _ _ | .str _ _ | .bool _ _ | .null _ | .this _ | .template _ _
  | .tagged _ _ _ => iff_of_true trivial (List.forall_mem_singleton.mpr trivial)
  | .array _ es => forall_within_cons names (Expr.withinAll_iff_items es)
  | .object _ ps => forall_within_cons names (Expr.withinProperties_iff_items ps)
  | .paren _ e | .member _ e _ | .unary _ _ e | .await _ e | .arrowExpr _ _ _ e =>
    forall_within_cons names e.within_iff
  | .call _ c as => forall_within_cons names
    (forall_within_append names c.within_iff (Expr.withinAll_iff_items as))
  | .invoke _ _ as => forall_within_cons names (Expr.withinAll_iff_items as)
  | .binary _ _ a b | .assign _ a b =>
    forall_within_cons names (forall_within_append names a.within_iff b.within_iff)
  | .arrow _ _ _ b | .function _ _ b =>
    forall_within_cons names (bodyItems_true b ▸ b.within_iff)

theorem Expr.withinAll_iff_items : ∀ es : List Expr,
    Expr.WithinAll names es ↔ ∀ i ∈ Expr.itemsAll true es, i.Within names
  | [] => iff_of_true trivial fun _ h => absurd h List.not_mem_nil
  | e :: es => forall_within_append names e.within_iff (Expr.withinAll_iff_items es)

theorem Expr.withinProperties_iff_items : ∀ ps : List (String × Expr),
    Expr.WithinProperties names ps ↔ ∀ i ∈ Expr.itemsProperties true ps, i.Within names
  | [] => iff_of_true trivial fun _ h => absurd h List.not_mem_nil
  | (_, e) :: ps => forall_within_append names e.within_iff (Expr.withinProperties_iff_items ps)

theorem Stmt.within_iff : ∀ s : Stmt, s.Within names ↔ ∀ i ∈ s.items true, i.Within names
  | .importNames _ _ _ | .binding _ _ _ none _ | .ret _ none | .empty _ =>
    iff_of_true trivial (List.forall_mem_singleton.mpr trivial)
  | .function _ _ b => forall_within_cons names (bodyItems_true b ▸ b.within_iff)
  | .classDecl s head ms => by
    rw [Stmt.Within, Stmt.items, List.forall_mem_cons, Member.withinAll_iff_items ms]
    rfl
  | .binding _ _ _ (some e) _ | .expr _ e | .ret _ (some e) | .throwExpr _ e =>
    forall_within_cons names e.within_iff
  | .ifElse _ c t none =>
    forall_within_cons names (forall_within_append names c.within_iff t.within_iff)
  | .ifElse _ c t (some e) => forall_within_cons names
    (forall_within_append names c.within_iff (forall_within_append names t.within_iff e.within_iff))
  | .whileLoop _ e b | .forOf _ _ _ e b =>
    forall_within_cons names (forall_within_append names e.within_iff b.within_iff)
  | .block _ b | .defer _ b => forall_within_cons names b.within_iff
  | .tryFinally _ b f =>
    forall_within_cons names (forall_within_append names b.within_iff f.within_iff)

theorem Stmt.withinAll_iff_items : ∀ ss : List Stmt,
    Stmt.WithinAll names ss ↔ ∀ i ∈ Stmt.itemsAll true ss, i.Within names
  | [] => iff_of_true trivial fun _ h => absurd h List.not_mem_nil
  | s :: ss => forall_within_append names s.within_iff (Stmt.withinAll_iff_items ss)

theorem Member.withinAll_iff_items : ∀ ms : List Member,
    Member.WithinAll names ms ↔ ∀ i ∈ Member.itemsAll true ms, i.Within names
  | [] => iff_of_true trivial fun _ h => absurd h List.not_mem_nil
  | .field _ _ none :: ms => (and_iff_right trivial).trans (Member.withinAll_iff_items ms)
  | .field _ _ (some e) :: ms =>
    forall_within_append names e.within_iff (Member.withinAll_iff_items ms)
  | .method _ _ b :: ms =>
    forall_within_append names (bodyItems_true b ▸ b.within_iff) (Member.withinAll_iff_items ms)

theorem Block.within_iff : ∀ b : Block, b.Within names ↔ ∀ i ∈ b.items true, i.Within names
  | ⟨_, ss⟩ => Stmt.withinAll_iff_items ss

end

end Items

section Computed

variable (names : String → Prop) [DecidablePred names]

instance Item.decidableWithin : DecidablePred (Item.Within names)
  | .stmt (.classDecl _ head _) => inferInstanceAs (Decidable (∀ name ∈ head.derives, names name))
  | .expr _ | .stmt (.importNames _ _ _) | .stmt (.function _ _ _) | .stmt (.binding _ _ _ _ _)
  | .stmt (.expr _ _) | .stmt (.ret _ _) | .stmt (.ifElse _ _ _ _) | .stmt (.whileLoop _ _ _)
  | .stmt (.forOf _ _ _ _ _) | .stmt (.block _ _) | .stmt (.defer _ _) | .stmt (.tryFinally _ _ _)
  | .stmt (.throwExpr _ _) | .stmt (.empty _) => isTrue trivial

instance Stmt.decidableWithin : DecidablePred (Stmt.Within names) :=
  fun s => decidable_of_iff _ (s.within_iff names).symm

end Computed

section Numbers

variable {names : String → Prop}

theorem Item.within_renumber (ρ : NodeId → NodeId) (i : Item) :
    (i.renumber ρ).Within names ↔ i.Within names := by
  cases i with
  | expr e => exact Iff.rfl
  | stmt s =>
    cases s with
    | binding _ _ _ init _ => cases init <;> exact Iff.rfl
    | ret _ value => cases value <;> exact Iff.rfl
    | ifElse _ _ _ alternative => cases alternative <;> exact Iff.rfl
    | _ => exact Iff.rfl

/-- The numbers of a tree do not count. -/
theorem Stmt.within_renumber (ρ : NodeId → NodeId) (s : Stmt) :
    (s.renumber ρ).Within names ↔ s.Within names := by
  rw [Stmt.within_iff, Stmt.within_iff, s.items_renumber, List.forall_mem_map]
  exact forall₂_congr fun i _ => i.within_renumber ρ

/-- It does not count either where a tree is from. -/
theorem Expr.within_withSpan (span : Span) (e : Expr) :
    (e.withSpan span).Within names ↔ e.Within names := by
  cases e <;> exact Iff.rfl

theorem Stmt.within_withStamp (stamp : Stamp) (s : Stmt) :
    (s.withStamp stamp).Within names ↔ s.Within names := by
  cases s with
  | binding _ _ _ init _ => cases init <;> exact Iff.rfl
  | ret _ value => cases value <;> exact Iff.rfl
  | ifElse _ _ _ alternative => cases alternative <;> exact Iff.rfl
  | _ => exact Iff.rfl

theorem Node.within_withSpan (span : Span) (node : Node) :
    (node.withSpan span).Within names ↔ node.Within names := by
  cases node with
  | expr e => exact e.within_withSpan span
  | stmt s => exact s.within_withStamp _
  | void => exact Iff.rfl

/-- Every tree is within names that leave none out. -/
theorem Node.within_of_forall (h : ∀ name, names name) (node : Node) : node.Within names := by
  have hitem : ∀ i : Item, i.Within names := fun i => by
    unfold Item.Within
    split
    · exact fun name _ => h name
    · trivial
  cases node with
  | expr e => exact (e.within_iff names).mpr fun i _ => hitem i
  | stmt s => exact (s.within_iff names).mpr fun i _ => hitem i
  | void => trivial

end Numbers

end MacroEngine
