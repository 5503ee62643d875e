import MacroEngine.Lowering.Defer

/-!
# Trees that lowering leaves alone

A rebuilding that finds nothing to do at any node answers with the same tree and does nothing else.
So a file without deferred statements, and without operators that a table has a name for, comes out
of both lowerings as it went in, down to the identities and spans of its nodes.
-/

namespace MacroEngine

section Rebuild

variable {m : Type → Type} [Monad m]

/-- A rebuilding does nothing at nodes that `Q` holds of, nor at bodies made of such nodes. -/
structure Rebuilding.IdleOn (r : Rebuilding m) (Q : Item → Prop) : Prop where
  onExpr : ∀ e, Q (.expr e) → r.onExpr e = pure e
  onBody : ∀ isAsync b, (∀ i ∈ b.items true, Q i) → r.onBody isAsync b = pure b

variable [LawfulMonad m] {r : Rebuilding m} {Q : Item → Prop}

mutual

theorem Expr.rebuild_eq_pure (hr : r.IdleOn Q) :
    ∀ e : Expr, (∀ i ∈ e.items true, Q i) → e.rebuild r = pure e
  | .ident _ _, h | .number _ _, h | .str _ _, h | .bool _ _, h | .null _, h | .this _, h
  | .template _ _, h | .tagged _ _ _, h => hr.onExpr _ (h _ List.mem_cons_self)
  | .array _ es, h => by
    simp only [Expr.items, List.forall_mem_cons] at h
    simp [Expr.rebuild, Expr.rebuildAll_eq_pure hr es h.2, hr.onExpr _ h.1]
  | .object _ ps, h => by
    simp only [Expr.items, List.forall_mem_cons] at h
    simp [Expr.rebuild, Expr.rebuildProperties_eq_pure hr ps h.2, hr.onExpr _ h.1]
  | .paren _ e, h | .member _ e _, h | .unary _ _ e, h | .await _ e, h
  | .arrowExpr _ _ _ e, h => by
    simp only [Expr.items, if_true, List.forall_mem_cons] at h
    simp [Expr.rebuild, e.rebuild_eq_pure hr h.2, hr.onExpr _ h.1]
  | .call _ c as, h => by
    simp only [Expr.items, List.forall_mem_cons, List.forall_mem_append] at h
    simp [Expr.rebuild, c.rebuild_eq_pure hr h.2.1, Expr.rebuildAll_eq_pure hr as h.2.2,
      hr.onExpr _ h.1]
  | .invoke _ _ as, h => by
    simp only [Expr.items, List.forall_mem_cons] at h
    simp [Expr.rebuild, Expr.rebuildAll_eq_pure hr as h.2, hr.onExpr _ h.1]
  | .binary _ _ a b, h | .assign _ a b, h => by
    simp only [Expr.items, List.forall_mem_cons, List.forall_mem_append] at h
    simp [Expr.rebuild, a.rebuild_eq_pure hr h.2.1, b.rebuild_eq_pure hr h.2.2, hr.onExpr _ h.1]
  | .arrow _ _ _ b, h | .function _ _ b, h => by
    simp only [Expr.items, bodyItems_true, List.forall_mem_cons] at h
    simp [Expr.rebuild, b.rebuild_eq_pure hr h.2, hr.onBody _ _ h.2, hr.onExpr _ h.1]

theorem Expr.rebuildAll_eq_pure (hr : r.IdleOn Q) :
    ∀ es : List Expr, (∀ i ∈ Expr.itemsAll true es, Q i) → Expr.rebuildAll r es = pure es
  | [], _ => rfl
  | e :: es, h => by
    simp only [Expr.itemsAll, List.forall_mem_append] at h
    simp [Expr.rebuildAll, e.rebuild_eq_pure hr h.1, Expr.rebuildAll_eq_pure hr es h.2]

theorem Expr.rebuildProperties_eq_pure (hr : r.IdleOn Q) : ∀ ps : List (String × Expr),
    (∀ i ∈ Expr.itemsProperties true ps, Q i) → Expr.rebuildProperties r ps = pure ps
  | [], _ => rfl
  | (_, e) :: ps, h => by
    simp only [Expr.itemsProperties, List.forall_mem_append] at h
    simp [Expr.rebuildProperties, e.rebuild_eq_pure hr h.1,
      Expr.rebuildProperties_eq_pure hr ps h.2]

theorem Stmt.rebuild_eq_pure (hr : r.IdleOn Q) :
    ∀ s : Stmt, (∀ i ∈ s.items true, Q i) → s.rebuild r = pure s
  | .importNames _ _ _, _ | .empty _, _ | .binding _ _ _ none _, _ | .ret _ none, _ => rfl
  | .function _ _ b, h => by
    simp only [Stmt.items, bodyItems_true, List.forall_mem_cons] at h
    simp [Stmt.rebuild, b.rebuild_eq_pure hr h.2, hr.onBody _ _ h.2]
  | .classDecl _ _ ms, h => by
    simp only [Stmt.items, List.forall_mem_cons] at h
    simp [Stmt.rebuild, Member.rebuildAll_eq_pure hr ms h.2]
  | .binding _ _ _ (some e) _, h | .expr _ e, h | .ret _ (some e), h | .throwExpr _ e, h => by
    simp only [Stmt.items, List.forall_mem_cons] at h
    simp [Stmt.rebuild, e.rebuild_eq_pure hr h.2]
  | .ifElse _ c t none, h => by
    simp only [Stmt.items, List.forall_mem_cons, List.forall_mem_append] at h
    simp [Stmt.rebuild, c.rebuild_eq_pure hr h.2.1, t.rebuild_eq_pure hr h.2.2]
  | .ifElse _ c t (some e), h => by
    simp only [Stmt.items, List.forall_mem_cons, List.forall_mem_append] at h
    simp [Stmt.rebuild, c.rebuild_eq_pure hr h.2.1, t.rebuild_eq_pure hr h.2.2.1,
      e.rebuild_eq_pure hr h.2.2.2]
  | .whileLoop _ e b, h | .forOf _ _ _ e b, h => by
    simp only [Stmt.items, List.forall_mem_cons, List.forall_mem_append] at h
    simp [Stmt.rebuild, e.rebuild_eq_pure hr h.2.1, b.rebuild_eq_pure hr h.2.2]
  | .block _ b, h | .defer _ b, h => by
    simp only [Stmt.items, List.forall_mem_cons] at h
    simp [Stmt.rebuild, b.rebuild_eq_pure hr h.2]
  | .tryFinally _ b f, h => by
    simp only [Stmt.items, List.forall_mem_cons, List.forall_mem_append] at h
    simp [Stmt.rebuild, b.rebuild_eq_pure hr h.2.1, f.rebuild_eq_pure hr h.2.2]

theorem Stmt.rebuildAll_eq_pure (hr : r.IdleOn Q) :
    ∀ ss : List Stmt, (∀ i ∈ Stmt.itemsAll true ss, Q i) → Stmt.rebuildAll r ss = pure ss
  | [], _ => rfl
  | s :: ss, h => by
    simp only [Stmt.itemsAll, List.forall_mem_append] at h
    simp [Stmt.rebuildAll, s.rebuild_eq_pure hr h.1, Stmt.rebuildAll_eq_pure hr ss h.2]

theorem Member.rebuildAll_eq_pure (hr : r.IdleOn Q) :
    ∀ ms : List Member, (∀ i ∈ Member.itemsAll true ms, Q i) → Member.rebuildAll r ms = pure ms
  | [], _ => rfl
  | .field _ _ none :: ms, h => by simp [Member.rebuildAll, Member.rebuildAll_eq_pure hr ms h]
  | .field _ _ (some e) :: ms, h => by
    simp only [Member.itemsAll, List.forall_mem_append] at h
    simp [Member.rebuildAll, e.rebuild_eq_pure hr h.1, Member.rebuildAll_eq_pure hr ms h.2]
  | .method _ _ b :: ms, h => by
    simp only [Member.itemsAll, bodyItems_true, List.forall_mem_append] at h
    simp [Member.rebuildAll, b.rebuild_eq_pure hr h.1, hr.onBody _ _ h.1,
      Member.rebuildAll_eq_pure hr ms h.2]

theorem Block.rebuild_eq_pure (hr : r.IdleOn Q) :
    ∀ b : Block, (∀ i ∈ b.items true, Q i) → b.rebuild r = pure b
  | ⟨_, ss⟩, h => by simp [Block.rebuild, Stmt.rebuildAll_eq_pure hr ss h]

end

end Rebuild

namespace Lowering

def Undeferred : Item → Prop
  | .stmt s => s.isDefer = false
  | .expr _ => True

def Unlowered (table : OperatorTable) : Item → Prop
  | .expr (.binary _ op _ _) => table.get? op = none
  | _ => True

/-- A body without deferred statements stays as it is and is not counted. -/
theorem functionBody_of_undeferred (isAsync : Bool) {b : Block}
    (h : ∀ i ∈ b.items true, Undeferred i) : functionBody isAsync b = pure (b, none) := by
  obtain ⟨stamp, ss⟩ := b
  have hany : ss.any Stmt.isDefer = false := by
    refine List.any_eq_false.mpr fun s hs => ?_
    have hmem : .stmt s ∈ Stmt.itemsAll true ss := by
      rw [Stmt.itemsAll_eq_flatMap]
      exact List.mem_flatMap.mpr ⟨s, hs, s.mem_items_self true⟩
    simp [show s.isDefer = false from h _ hmem]
  simp [functionBody, hany]

theorem run_defers_of_undeferred {file : SourceFile} (h : ∀ i ∈ file.items, Undeferred i)
    (next : NodeId) : (defers file).run next = ((file, .ok 0), next) := by
  have hr : deferLowering.IdleOn Undeferred := by
    refine ⟨fun _ _ => rfl, fun isAsync b hb => ?_⟩
    simp [deferLowering, functionBody_of_undeferred isAsync hb]
  have hfirst : firstDefer? file = none := by
    refine List.find?_eq_none.mpr fun s hs => ?_
    obtain ⟨i, hi, his⟩ := List.mem_filterMap.mp hs
    cases i with
    | stmt s' =>
      obtain rfl := Option.some.inj his
      simp [show s'.isDefer = false from h _ hi]
    | expr _ => cases his
  rw [defers, Stmt.rebuildAll_eq_pure hr _ h]
  simp only [StateT.run_pure, pure_bind, hfirst]
  rfl

theorem run_operators_of_unlowered {table : OperatorTable} {file : SourceFile}
    (h : ∀ i ∈ file.items, Unlowered table i) (next : NodeId) :
    (operators table file).run next = ((file, 0), next) := by
  have hr : (operatorLowering table).IdleOn (Unlowered table) := by
    refine ⟨fun e he => ?_, fun _ _ _ => rfl⟩
    cases e with
    | binary s op l r =>
      have he : table.get? op = none := he
      simp only [operatorLowering, lowerOperator, he]
    | _ => rfl
  rw [operators, Stmt.rebuildAll_eq_pure hr _ h]
  rfl

end Lowering

end MacroEngine
