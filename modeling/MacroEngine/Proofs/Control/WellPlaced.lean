import MacroEngine.Proofs.Control.Covering
import MacroEngine.Proofs.Unchanged.Rebuilding

/-!
# Where deferred statements may stand

Lowering a file accepts it just if each deferred statement stands directly in the body of a function, a
method or an arrow, whatever the body stands in; then none is left. `Stmt.standsIn` lists the statements
of a tree in source order, each with whether it stands so. Bodies are lowered from the inside out, and
what is searched in the end is the lowered tree. The invariant of the walk is that the deferred
statements left in a tree are, one by one, those that do not stand directly in a body.
-/

namespace MacroEngine

mutual

/-- The statements in an expression, in source order, each with whether it stands directly in the body
of a function, a method or an arrow. -/
def Expr.stands : Expr → List (Stmt × Bool)
  | .ident _ _ | .number _ _ | .str _ _ | .bool _ _ | .null _ | .this _ | .template _ _
  | .tagged _ _ _ => []
  | .array _ es | .invoke _ _ es => Expr.standsAll es
  | .object _ ps => Expr.standsProperties ps
  | .paren _ e | .member _ e _ | .unary _ _ e | .await _ e | .arrowExpr _ _ _ e => e.stands
  | .call _ c as => c.stands ++ Expr.standsAll as
  | .binary _ _ l r | .assign _ l r => l.stands ++ r.stands
  | .arrow _ _ _ b | .function _ _ b => b.stands true

def Expr.standsAll : List Expr → List (Stmt × Bool)
  | [] => []
  | e :: es => e.stands ++ Expr.standsAll es

def Expr.standsProperties : List (String × Expr) → List (Stmt × Bool)
  | [] => []
  | (_, e) :: ps => e.stands ++ Expr.standsProperties ps

/-- The statements in a statement, which is not among them. -/
def Stmt.standsIn : Stmt → List (Stmt × Bool)
  | .importNames _ _ _ | .empty _ | .binding _ _ _ none _ | .ret _ none => []
  | .function _ _ b => b.stands true
  | .classDecl _ _ ms => Member.standsAll ms
  | .binding _ _ _ (some e) _ | .expr _ e | .ret _ (some e) | .throwExpr _ e => e.stands
  | .ifElse _ c t none => c.stands ++ t.stands false
  | .ifElse _ c t (some e) => c.stands ++ (t.stands false ++ (e, false) :: e.standsIn)
  | .whileLoop _ e b | .forOf _ _ _ e b => e.stands ++ b.stands false
  | .block _ b | .defer _ b => b.stands false
  | .tryFinally _ b f => b.stands false ++ f.stands false

/-- The statements of a list and those in them; the list is a body or not. -/
def Stmt.standsAll (own : Bool) : List Stmt → List (Stmt × Bool)
  | [] => []
  | s :: ss => (s, own) :: (s.standsIn ++ Stmt.standsAll own ss)

def Member.standsAll : List Member → List (Stmt × Bool)
  | [] => []
  | .field _ _ none :: ms => Member.standsAll ms
  | .field _ _ (some e) :: ms => e.stands ++ Member.standsAll ms
  | .method _ _ b :: ms => b.stands true ++ Member.standsAll ms

def Block.stands (own : Bool) : Block → List (Stmt × Bool)
  | ⟨_, ss⟩ => Stmt.standsAll own ss

end

/-- The statements of a file, in source order, each with whether it stands directly in the body of a
function, a method or an arrow. -/
def SourceFile.stands (file : SourceFile) : List (Stmt × Bool) :=
  Stmt.standsAll false file.statements

def Item.stmts (items : List Item) : List Stmt := items.filterMap Item.stmt?

section Stands

@[simp] theorem Item.stmts_append (is js : List Item) :
    Item.stmts (is ++ js) = Item.stmts is ++ Item.stmts js := List.filterMap_append

@[simp] theorem Item.stmts_cons_stmt (s : Stmt) (is : List Item) :
    Item.stmts (.stmt s :: is) = s :: Item.stmts is := rfl

@[simp] theorem Item.stmts_cons_expr (e : Expr) (is : List Item) :
    Item.stmts (.expr e :: is) = Item.stmts is := rfl

@[simp] theorem Item.stmts_nil : Item.stmts [] = [] := rfl

mutual

/-- The statements that stand somewhere are all the statements there are. -/
theorem Expr.map_fst_stands : ∀ e : Expr, e.stands.map (·.1) = Item.stmts (e.items true)
  | .ident _ _ | .number _ _ | .str _ _ | .bool _ _ | .null _ | .this _ | .template _ _
  | .tagged _ _ _ => by simp [Expr.stands, Expr.items]
  | .array _ es | .invoke _ _ es => by
    simp [Expr.stands, Expr.items, Expr.map_fst_standsAll es]
  | .object _ ps => by simp [Expr.stands, Expr.items, Expr.map_fst_standsProperties ps]
  | .paren _ e | .member _ e _ | .unary _ _ e | .await _ e | .arrowExpr _ _ _ e => by
    simp [Expr.stands, Expr.items, e.map_fst_stands]
  | .call _ c as => by
    simp [Expr.stands, Expr.items, c.map_fst_stands, Expr.map_fst_standsAll as]
  | .binary _ _ l r | .assign _ l r => by
    simp [Expr.stands, Expr.items, l.map_fst_stands, r.map_fst_stands]
  | .arrow _ _ _ b | .function _ _ b => by
    simp [Expr.stands, Expr.items, bodyItems_true, b.map_fst_stands true]

theorem Expr.map_fst_standsAll : ∀ es : List Expr,
    (Expr.standsAll es).map (·.1) = Item.stmts (Expr.itemsAll true es)
  | [] => by simp [Expr.standsAll, Expr.itemsAll]
  | e :: es => by
    simp [Expr.standsAll, Expr.itemsAll, e.map_fst_stands, Expr.map_fst_standsAll es]

theorem Expr.map_fst_standsProperties : ∀ ps : List (String × Expr),
    (Expr.standsProperties ps).map (·.1) = Item.stmts (Expr.itemsProperties true ps)
  | [] => by simp [Expr.standsProperties, Expr.itemsProperties]
  | (_, e) :: ps => by
    simp [Expr.standsProperties, Expr.itemsProperties, e.map_fst_stands,
      Expr.map_fst_standsProperties ps]

theorem Stmt.map_fst_standsIn : ∀ s : Stmt,
    s :: s.standsIn.map (·.1) = Item.stmts (s.items true)
  | .importNames _ _ _ | .empty _ | .binding _ _ _ none _ | .ret _ none => by
    simp [Stmt.standsIn, Stmt.items]
  | .function _ _ b => by
    simp [Stmt.standsIn, Stmt.items, bodyItems_true, b.map_fst_stands true]
  | .classDecl _ _ ms => by simp [Stmt.standsIn, Stmt.items, Member.map_fst_standsAll ms]
  | .binding _ _ _ (some e) _ | .expr _ e | .ret _ (some e) | .throwExpr _ e => by
    simp [Stmt.standsIn, Stmt.items, e.map_fst_stands]
  | .ifElse _ c t none => by
    simp [Stmt.standsIn, Stmt.items, c.map_fst_stands, t.map_fst_stands false]
  | .ifElse _ c t (some e) => by
    simp [Stmt.standsIn, Stmt.items, c.map_fst_stands, t.map_fst_stands false,
      e.map_fst_standsIn]
  | .whileLoop _ e b | .forOf _ _ _ e b => by
    simp [Stmt.standsIn, Stmt.items, e.map_fst_stands, b.map_fst_stands false]
  | .block _ b | .defer _ b => by simp [Stmt.standsIn, Stmt.items, b.map_fst_stands false]
  | .tryFinally _ b f => by
    simp [Stmt.standsIn, Stmt.items, b.map_fst_stands false, f.map_fst_stands false]

theorem Stmt.map_fst_standsAll (own : Bool) : ∀ ss : List Stmt,
    (Stmt.standsAll own ss).map (·.1) = Item.stmts (Stmt.itemsAll true ss)
  | [] => by simp [Stmt.standsAll, Stmt.itemsAll]
  | s :: ss => by
    simp [Stmt.standsAll, Stmt.itemsAll, ← s.map_fst_standsIn, Stmt.map_fst_standsAll own ss]

theorem Member.map_fst_standsAll : ∀ ms : List Member,
    (Member.standsAll ms).map (·.1) = Item.stmts (Member.itemsAll true ms)
  | [] => by simp [Member.standsAll, Member.itemsAll]
  | .field _ _ none :: ms => by
    simp [Member.standsAll, Member.itemsAll, Member.map_fst_standsAll ms]
  | .field _ _ (some e) :: ms => by
    simp [Member.standsAll, Member.itemsAll, e.map_fst_stands, Member.map_fst_standsAll ms]
  | .method _ _ b :: ms => by
    simp [Member.standsAll, Member.itemsAll, bodyItems_true, b.map_fst_stands true,
      Member.map_fst_standsAll ms]

theorem Block.map_fst_stands (own : Bool) : ∀ b : Block,
    (b.stands own).map (·.1) = Item.stmts (b.items true)
  | ⟨_, ss⟩ => by simp [Block.stands, Block.items, Stmt.map_fst_standsAll own ss]

end

end Stands

def Member.body? : Member → Option Block
  | .method _ _ b => some b
  | .field _ _ _ => none

/-- The bodies that belong to a node: of a function or an arrow, or of the methods of a class. -/
def Item.bodies : Item → List Block
  | .expr (.arrow _ _ _ b) | .expr (.function _ _ b) | .stmt (.function _ _ b) => [b]
  | .stmt (.classDecl _ _ ms) => ms.filterMap Member.body?
  | _ => []

namespace Control

open Lowering

/-- The number of bodies among nodes that have deferred statements of their own. -/
def deferringBodies (items : List Item) : Nat :=
  (items.flatMap Item.bodies).countP fun b => b.stmts.any Stmt.isDefer

def deferSpans (items : List Item) : List Span :=
  ((Item.stmts items).filter Stmt.isDefer).map Stmt.span

/-- Where the deferred statements came from that do not stand directly in a body. -/
def misplaced (stands : List (Stmt × Bool)) : List Span :=
  (stands.filter fun p => p.1.isDefer && !p.2).map (·.1.span)

section Places

@[simp] theorem deferringBodies_nil : deferringBodies [] = 0 := rfl

@[simp] theorem deferringBodies_append (is js : List Item) :
    deferringBodies (is ++ js) = deferringBodies is + deferringBodies js := by
  simp [deferringBodies]

@[simp] theorem deferringBodies_cons (i : Item) (is : List Item) : deferringBodies (i :: is) =
    (i.bodies.countP fun b => b.stmts.any Stmt.isDefer) + deferringBodies is := by
  simp [deferringBodies]

@[simp] theorem deferSpans_nil : deferSpans [] = [] := rfl

@[simp] theorem deferSpans_append (is js : List Item) :
    deferSpans (is ++ js) = deferSpans is ++ deferSpans js := by
  simp [deferSpans]

@[simp] theorem deferSpans_cons_expr (e : Expr) (is : List Item) :
    deferSpans (.expr e :: is) = deferSpans is := rfl

@[simp] theorem deferSpans_cons_stmt (s : Stmt) (is : List Item) : deferSpans (.stmt s :: is) =
    (if s.isDefer then [s.span] else []) ++ deferSpans is := by
  cases h : s.isDefer <;> simp [deferSpans, h]

@[simp] theorem misplaced_nil : misplaced [] = [] := rfl

@[simp] theorem misplaced_append (ps qs : List (Stmt × Bool)) :
    misplaced (ps ++ qs) = misplaced ps ++ misplaced qs := by
  simp [misplaced]

theorem misplaced_cons (s : Stmt) (own : Bool) (ps : List (Stmt × Bool)) :
    misplaced ((s, own) :: ps) = (if s.isDefer && !own then [s.span] else []) ++ misplaced ps := by
  cases h : s.isDefer && !own <;> simp [misplaced, h]

def spansIn (s : Stmt) : List Span := deferSpans (s.items true).tail

theorem deferSpans_items (s : Stmt) : deferSpans (s.items true) =
    (if s.isDefer then [s.span] else []) ++ spansIn s := by
  rw [s.items_eq_cons, deferSpans_cons_stmt]
  rfl

end Places

section Lowered

variable {isAsync : Bool} {fresh : NodeId} {s s' : Stmt} {ss ss' : List Stmt}

theorem IsCleanup.spans (h : IsCleanup s) : deferSpans (s.items true) = [] := by
  obtain ⟨hcall⟩ := h
  cases hcall <;> rfl

mutual

/-- Covering brings in no deferred statement and takes none away. -/
theorem CoversAll.spans : ∀ {ss ss' : List Stmt}, CoversAll isAsync fresh ss ss' →
    deferSpans (Stmt.itemsAll true ss') = deferSpans (Stmt.itemsAll true ss)
  | _, _, .nil => rfl
  | _, _, .ret hrun hss => by
    simp only [Stmt.itemsAll, deferSpans_append, hrun.isCleanup.spans,
      List.nil_append, hss.spans]
  | _, _, .cons hs hss => by
    simp only [Stmt.itemsAll, deferSpans_append, hs.spans, hss.spans]

theorem CoversIn.spans : ∀ {s s' : Stmt}, CoversIn isAsync fresh s s' →
    deferSpans (s'.items true) = deferSpans (s.items true)
  | _, _, .same _ => rfl
  | _, _, .ifElse ht | _, _, .whileLoop ht | _, _, .forOf ht | _, _, .block ht => by
    simp [Stmt.items, Block.items, Stmt.isDefer, ht.spans]
  | _, _, .elseReturn ht hrun _ => by
    simp [Stmt.items, Block.items, Stmt.itemsAll, Stmt.isDefer, ht.spans,
      hrun.isCleanup.spans]
  | _, _, .elseIn ht he => by
    simp [Stmt.items, Block.items, Stmt.isDefer, ht.spans, he.spans]
  | _, _, .tryFinally ht hu => by
    simp [Stmt.items, Block.items, Stmt.isDefer, ht.spans, hu.spans]

end

/-- Of the deferred statements, registering takes away those of the list itself. -/
theorem Registered.spans (h : Registered isAsync fresh ss ss') :
    deferSpans (Stmt.itemsAll true ss') = ss.flatMap spansIn := by
  induction h with
  | nil => rfl
  | register _ _ _ ih =>
    simp [Stmt.itemsAll, Stmt.items, Expr.items, Expr.itemsAll, bodyItems_true,
      Stmt.isDefer, spansIn, ih]
  | @keep s _ _ hs _ ih =>
    simp [Stmt.itemsAll, deferSpans_items, hs, ih]

theorem Lowers.spans {inner : List Stmt} (h : Lowers isAsync fresh ss inner) :
    deferSpans (Stmt.itemsAll true inner) = ss.flatMap spansIn := by
  cases h with
  | leaves hrs hss _ => rw [hss.spans, hrs.spans]
  | falls hrs hss _ hrun =>
    rw [← hrs.spans, ← hss.spans]
    simp [Stmt.itemsAll_eq_flatMap, hrun.isCleanup.spans]

theorem Frames.spans {inner : List Stmt} (h : Frames isAsync inner ss) :
    deferSpans (Stmt.itemsAll true ss) =
      deferSpans (Stmt.itemsAll true inner) := by
  obtain ⟨hrun⟩ := h
  simp [Stmt.itemsAll, Stmt.items, Block.items, Expr.items, Expr.itemsAll, Stmt.isDefer, hrun.isCleanup.spans]

/-- Of the deferred statements of a function body, lowering takes away those of the body itself. -/
theorem functionBody_spans (isAsync : Bool) (b : Block) : Always (functionBody isAsync b) fun r =>
    deferSpans (r.1.items true) = b.stmts.flatMap spansIn ∧
      r.2.isSome = b.stmts.any Stmt.isDefer := by
  obtain ⟨stamp, ss⟩ := b
  intro next
  unfold functionBody
  split
  · rename_i hdefer
    obtain ⟨inner, hlowers, hframes⟩ := lowered_frames isAsync next ss next (Nat.le_refl next)
    exact ⟨hframes.spans.trans hlowers.spans, hdefer.symm⟩
  · rename_i hdefer
    refine ⟨?_, (Bool.eq_false_iff.mpr hdefer).symm⟩
    have hnone : ∀ s ∈ ss, s.isDefer = false := by simpa using hdefer
    clear hdefer
    change deferSpans (Stmt.itemsAll true ss) = ss.flatMap spansIn
    induction ss with
    | nil => rfl
    | cons s ss ih =>
      obtain ⟨hs, hss⟩ := List.forall_mem_cons.mp hnone
      simp [Stmt.itemsAll, deferSpans_items, hs, ih hss]

end Lowered

/-- What a computation that counts yields, and by how much it counts, whatever the next number is. -/
def Counts {α : Type} (x : Counted α) (k : Nat) (P : α → Prop) : Prop :=
  ∀ n, Always (x.run n) fun out => P out.1 ∧ out.2 = n + k

section Counts

variable {α β : Type} {x : Counted α} {f : α → Counted β} {g : α → β} {j k : Nat} {P : α → Prop}
  {Q : β → Prop}

theorem counts_pure {a : α} (h : P a) : Counts (pure a) 0 P := fun _ _ => ⟨h, rfl⟩

theorem counts_bind (hx : Counts x j P) (hf : ∀ a, P a → Counts (f a) k Q) :
    Counts (x >>= f) (j + k) Q := by
  intro n next
  obtain ⟨hP, hj⟩ := hx n next
  obtain ⟨hQ, hk⟩ := hf _ hP _ ((x.run n).run next).2
  exact ⟨hQ, by rw [← Nat.add_assoc, ← hj]; exact hk⟩

theorem counts_map (hx : Counts x k P) (hg : ∀ a, P a → Q (g a)) :
    Counts (x >>= fun a => pure (g a)) k Q :=
  counts_bind hx fun a ha => counts_pure (hg a ha)

theorem counts_lift {y : Fresh α} (h : Always y P) : Counts (liftM y : Counted α) 0 P :=
  fun _ next => ⟨h next, rfl⟩

theorem counts_count : Counts count 1 fun _ => True := fun _ _ => ⟨trivial, rfl⟩

theorem Counts.of_eq (h : Counts x j P) (hjk : j = k) : Counts x k P := hjk ▸ h

end Counts

/-- What is left of the deferred statements in a list: in it as a body, and in it as another list. -/
structure Leaves (ss ss' : List Stmt) : Prop where
  direct : ss'.any Stmt.isDefer = ss.any Stmt.isDefer
  own : ss'.flatMap spansIn = misplaced (Stmt.standsAll true ss)
  others : deferSpans (Stmt.itemsAll true ss') = misplaced (Stmt.standsAll false ss)

structure LeavesIn (s s' : Stmt) : Prop where
  isDefer : s'.isDefer = s.isDefer
  span : s'.span = s.span
  below : spansIn s' = misplaced s.standsIn

theorem Leaves.nil : Leaves [] [] := ⟨rfl, rfl, rfl⟩

theorem Leaves.cons {s s' : Stmt} {ss ss' : List Stmt} (hs : LeavesIn s s') (hss : Leaves ss ss') :
    Leaves (s :: ss) (s' :: ss') where
  direct := by simp [hs.isDefer, hss.direct]
  own := by simp [Stmt.standsAll, misplaced_cons, hs.below, hss.own]
  others := by
    simp [Stmt.standsAll, Stmt.itemsAll, misplaced_cons, deferSpans_items, hs.isDefer, hs.span,
      hs.below, hss.others]

/-- What is left in a block that is no body. -/
theorem Leaves.block {b b' : Block} (h : Leaves b.stmts b'.stmts) :
    deferSpans (b'.items true) = misplaced (b.stands false) := by
  obtain ⟨_, ss⟩ := b
  obtain ⟨_, ss'⟩ := b'
  exact h.others

/-- Lowering a body counts if it has deferred statements of its own, and takes those away. -/
theorem onBody_counts (isAsync : Bool) {ss : List Stmt} {b : Block} (h : Leaves ss b.stmts) :
    Counts (deferLowering.onBody isAsync b) (if ss.any Stmt.isDefer then 1 else 0) fun b' =>
      deferSpans (b'.items true) = misplaced (Stmt.standsAll true ss) := by
  refine (counts_bind (counts_lift (functionBody_spans isAsync b)) fun out hout => ?_).of_eq
    (Nat.zero_add _)
  obtain ⟨b', actions⟩ := out
  obtain ⟨hspans, hsome⟩ := hout
  have hleft : deferSpans (b'.items true) = misplaced (Stmt.standsAll true ss) := hspans.trans h.own
  rw [← h.direct, ← hsome]
  dsimp only
  split
  · exact counts_map counts_count fun _ _ => hleft
  · exact counts_pure hleft

section Rebuilt

mutual

/-- The deferred statements that are left in a tree that is lowered are those that do not stand
directly in a body, and the bodies that have some of their own are counted. -/
theorem expr_counts : ∀ e : Expr, Counts (e.rebuild deferLowering)
    (deferringBodies (e.items true)) fun e' => deferSpans (e'.items true) = misplaced e.stands
  | .ident _ _ | .number _ _ | .str _ _ | .bool _ _ | .null _ | .this _ | .template _ _
  | .tagged _ _ _ => counts_pure rfl
  | .array _ es | .invoke _ _ es => (counts_map (exprs_counts es) fun _ h => h).of_eq (by
    simp [Expr.items, Item.bodies])
  | .object _ ps => (counts_map (properties_counts ps) fun _ h => h).of_eq (by
    simp [Expr.items, Item.bodies])
  | .paren _ e | .member _ e _ | .unary _ _ e | .await _ e | .arrowExpr _ _ _ e =>
    (counts_map (expr_counts e) fun _ h => h).of_eq (by simp [Expr.items, Item.bodies])
  | .call _ c as => by
    refine (counts_bind (expr_counts c) fun c' hc =>
      counts_map (exprs_counts as) fun as' has => ?_).of_eq ?_
    · simp [Expr.items, Expr.stands, hc, has]
    · simp [Expr.items, Item.bodies]
  | .binary _ _ l r | .assign _ l r => by
    refine (counts_bind (expr_counts l) fun l' hl =>
      counts_map (expr_counts r) fun r' hr => ?_).of_eq ?_
    · simp [Expr.items, Expr.stands, hl, hr]
    · simp [Expr.items, Item.bodies]
  | .arrow _ _ _ ⟨b, ss⟩ | .function _ _ ⟨b, ss⟩ => by
    refine (counts_bind (block_counts ⟨b, ss⟩) fun b' hb =>
      counts_map (onBody_counts _ hb) fun b'' hb' => ?_).of_eq ?_
    · simp [Expr.items, Expr.stands, Block.stands, bodyItems_true, hb']
    · simp [Expr.items, Item.bodies, bodyItems_true, List.countP_cons, Nat.add_comm]

theorem exprs_counts : ∀ es : List Expr, Counts (Expr.rebuildAll deferLowering es)
    (deferringBodies (Expr.itemsAll true es)) fun es' =>
      deferSpans (Expr.itemsAll true es') = misplaced (Expr.standsAll es)
  | [] => counts_pure rfl
  | e :: es => by
    refine (counts_bind (expr_counts e) fun e' he =>
      counts_map (exprs_counts es) fun es' hes => ?_).of_eq ?_
    · simp [Expr.itemsAll, Expr.standsAll, he, hes]
    · simp [Expr.itemsAll]

theorem properties_counts : ∀ ps : List (String × Expr),
    Counts (Expr.rebuildProperties deferLowering ps)
      (deferringBodies (Expr.itemsProperties true ps)) fun ps' =>
        deferSpans (Expr.itemsProperties true ps') = misplaced (Expr.standsProperties ps)
  | [] => counts_pure rfl
  | (_, e) :: ps => by
    refine (counts_bind (expr_counts e) fun e' he =>
      counts_map (properties_counts ps) fun ps' hps => ?_).of_eq ?_
    · simp [Expr.itemsProperties, Expr.standsProperties, he, hps]
    · simp [Expr.itemsProperties]

theorem stmt_counts : ∀ s : Stmt, Counts (s.rebuild deferLowering)
    (deferringBodies (s.items true)) (LeavesIn s)
  | .importNames _ _ _ | .empty _ | .binding _ _ _ none _ | .ret _ none =>
    counts_pure ⟨rfl, rfl, rfl⟩
  | .function _ _ ⟨b, ss⟩ => by
    refine (counts_bind (block_counts ⟨b, ss⟩) fun b' hb =>
      counts_map (onBody_counts _ hb) fun b'' hb' => .mk rfl rfl ?_).of_eq ?_
    · simp [Stmt.items, Item.bodies, bodyItems_true, List.countP_cons, Nat.add_comm]
    · simp [spansIn, Stmt.items, Stmt.standsIn, Block.stands, bodyItems_true, hb']
  | .classDecl _ _ ms => by
    refine (counts_map (members_counts ms) fun ms' hms => ⟨rfl, rfl, hms⟩).of_eq ?_
    simp [Stmt.items, Item.bodies]
  | .binding _ _ _ (some e) _ | .expr _ e | .ret _ (some e) | .throwExpr _ e =>
    (counts_map (expr_counts e) fun _ h => ⟨rfl, rfl, h⟩).of_eq (by
      simp [Stmt.items, Item.bodies])
  | .ifElse _ c t none => by
    refine (counts_bind (expr_counts c) fun c' hc =>
      counts_map (block_counts t) fun t' ht => .mk rfl rfl ?_).of_eq ?_
    · simp [Stmt.items, Item.bodies]
    · simp [spansIn, Stmt.items, Stmt.standsIn, hc, ht.block]
  | .ifElse _ c t (some e) => by
    refine (counts_bind (expr_counts c) fun c' hc => counts_bind (block_counts t) fun t' ht =>
      counts_map (stmt_counts e) fun e' he => .mk rfl rfl ?_).of_eq ?_
    · simp [Stmt.items, Item.bodies]
    · simp [spansIn, Stmt.items, Stmt.standsIn, hc, ht.block, misplaced_cons, deferSpans_items,
        he.isDefer, he.span]
      exact he.below
  | .whileLoop _ e b | .forOf _ _ _ e b => by
    refine (counts_bind (expr_counts e) fun e' he =>
      counts_map (block_counts b) fun b' hb => .mk rfl rfl ?_).of_eq ?_
    · simp [Stmt.items, Item.bodies]
    · simp [spansIn, Stmt.items, Stmt.standsIn, he, hb.block]
  | .block _ b | .defer _ b => by
    refine (counts_map (block_counts b) fun b' hb => .mk rfl rfl ?_).of_eq ?_
    · simp [Stmt.items, Item.bodies]
    · simp [spansIn, Stmt.items, Stmt.standsIn, hb.block]
  | .tryFinally _ b f => by
    refine (counts_bind (block_counts b) fun b' hb =>
      counts_map (block_counts f) fun f' hf => .mk rfl rfl ?_).of_eq ?_
    · simp [Stmt.items, Item.bodies]
    · simp [spansIn, Stmt.items, Stmt.standsIn, hb.block, hf.block]

theorem stmts_counts : ∀ ss : List Stmt, Counts (Stmt.rebuildAll deferLowering ss)
    (deferringBodies (Stmt.itemsAll true ss)) (Leaves ss)
  | [] => counts_pure .nil
  | s :: ss => by
    refine (counts_bind (stmt_counts s) fun s' hs =>
      counts_map (stmts_counts ss) fun ss' hss => .cons hs hss).of_eq ?_
    simp [Stmt.itemsAll]

theorem members_counts : ∀ ms : List Member, Counts (Member.rebuildAll deferLowering ms)
    (((ms.filterMap Member.body?).countP fun b => b.stmts.any Stmt.isDefer) +
      deferringBodies (Member.itemsAll true ms)) fun ms' =>
        deferSpans (Member.itemsAll true ms') = misplaced (Member.standsAll ms)
  | [] => counts_pure rfl
  | .field _ _ none :: ms => counts_map (members_counts ms) fun ms' hms => hms
  | .field _ _ (some e) :: ms => by
    refine (counts_bind (expr_counts e) fun e' he =>
      counts_map (members_counts ms) fun ms' hms => ?_).of_eq ?_
    · simp [Member.itemsAll, Member.standsAll, he, hms]
    · simp [Member.itemsAll, List.filterMap_cons, Member.body?, Nat.add_left_comm]
  | .method _ _ ⟨b, ss⟩ :: ms => by
    refine (counts_bind (block_counts ⟨b, ss⟩) fun b' hb => counts_bind (onBody_counts _ hb)
      fun b'' hb' => counts_map (members_counts ms) fun ms' hms => ?_).of_eq ?_
    · simp [Member.itemsAll, Member.standsAll, Block.stands, bodyItems_true, hb', hms]
    · simp [Member.itemsAll, Member.body?, bodyItems_true, List.countP_cons]
      omega

theorem block_counts : ∀ b : Block, Counts (b.rebuild deferLowering)
    (deferringBodies (b.items true)) fun b' => Leaves b.stmts b'.stmts
  | ⟨_, ss⟩ => counts_map (stmts_counts ss) fun _ h => h

end

end Rebuilt

def firstMisplaced? (file : SourceFile) : Option (Stmt × Bool) :=
  file.stands.find? fun p => p.1.isDefer && !p.2

/-- What lowering a file does, whatever the next number is. -/
theorem run_defers (file : SourceFile) (next : NodeId) : ∃ statements next',
    (defers file).run next = (({ file with statements },
      match firstDefer? { file with statements } with
      | some s => .error (.misplacedDefer file.path s.span)
      | none => .ok (deferringBodies file.items)), next') ∧
    (firstDefer? { file with statements }).map Stmt.span =
      (firstMisplaced? file).map (·.1.span) := by
  have hcounts := stmts_counts file.statements 0 next
  generalize hout : ((Stmt.rebuildAll deferLowering file.statements).run 0).run next = out at hcounts
  obtain ⟨⟨statements, n⟩, next'⟩ := out
  obtain ⟨hleaves, hn⟩ := hcounts
  refine ⟨statements, next', ?_, ?_⟩
  · have hcount : n = deferringBodies file.items := hn.trans (Nat.zero_add _)
    rw [defers, StateT.run_bind, hout]
    change (match firstDefer? { file with statements } with
      | some s => ({ file with statements }, Except.error (Error.misplacedDefer file.path s.span))
      | none => ({ file with statements }, Except.ok n), next') = _
    rw [hcount]
    cases firstDefer? { file with statements } <;> rfl
  · have hspans := congrArg List.head? hleaves.others
    rw [deferSpans, misplaced, List.head?_map, List.head?_map, List.head?_filter,
      List.head?_filter] at hspans
    exact hspans

/-- Where no deferred statement is found, there is none. -/
theorem undeferred_of_firstDefer? {file : SourceFile} (h : firstDefer? file = none) :
    ∀ i ∈ file.items, Undeferred i := by
  intro i hi
  cases i with
  | stmt s =>
    have hmem : s ∈ file.items.filterMap Item.stmt? := List.mem_filterMap.mpr ⟨_, hi, rfl⟩
    exact Bool.eq_false_iff.mpr (List.find?_eq_none.mp h s hmem)
  | expr _ => exact trivial

/-- Lowering the deferred statements of a file succeeds just if each of them, at any depth, stands
directly in the body of a function, a method or an arrow. Then none is left, the bodies that had some
of their own are counted, and lowering again changes nothing. If it fails, the error is about the first
one in source order that stands elsewhere. -/
theorem defers_wellPlaced (file : SourceFile) (next : NodeId) :
    file.stands.map (·.1) = Item.stmts file.items ∧
    ∃ file' r next', (defers file).run next = ((file', r), next') ∧
      ((∃ n, r = .ok n) ↔ ∀ p ∈ file.stands, p.1.isDefer = true → p.2 = true) ∧
      (∀ n, r = .ok n → n = deferringBodies file.items ∧ (∀ i ∈ file'.items, Undeferred i) ∧
        ∀ next, (defers file').run next = ((file', .ok 0), next)) ∧
      ∀ e, r = .error e → ∃ s, firstMisplaced? file = some (s, false) ∧
        e = .misplacedDefer file.path s.span := by
  refine ⟨Stmt.map_fst_standsAll false file.statements, ?_⟩
  obtain ⟨statements, next', hrun, hfirst⟩ := run_defers file next
  refine ⟨_, _, next', hrun, ?_⟩
  have hplaced : firstMisplaced? file = none ↔ ∀ p ∈ file.stands, p.1.isDefer = true → p.2 = true := by
    simp [firstMisplaced?, List.find?_eq_none]
  rw [← hplaced]
  cases hleft : firstDefer? { file with statements } with
  | none =>
    rw [hleft, Option.map_none, eq_comm, Option.map_eq_none_iff] at hfirst
    have hnone := undeferred_of_firstDefer? hleft
    refine ⟨iff_of_true ⟨_, rfl⟩ hfirst, fun n hn => ?_, fun e he => by cases he⟩
    cases hn
    exact ⟨rfl, hnone, run_defers_of_undeferred hnone⟩
  | some s =>
    rw [hleft, Option.map_some, eq_comm, Option.map_eq_some_iff] at hfirst
    obtain ⟨⟨s', own⟩, hmisplaced, hspan⟩ := hfirst
    have hown : own = false := by
      have hfound := List.find?_some hmisplaced
      simpa using (Bool.and_eq_true_iff.mp hfound).2
    refine ⟨iff_of_false ?_ (hmisplaced ▸ Option.some_ne_none _), ?_, fun e he => ?_⟩
    · rintro ⟨n, hn⟩
      cases hn
    · intro n hn
      cases hn
    cases he
    exact ⟨s', hown ▸ hmisplaced, by rw [hspan]⟩

end Control

end MacroEngine
