import MacroEngine.Proofs.Operators.Calls
import MacroEngine.Proofs.Operators.Numbers

/-!
# The order of the two lowerings

Lowering deferred statements moves statements into closures and puts others in; lowering operators
rewrites expressions in place. Neither makes work for the other or hides any from it. The code that is
put in has no operators with a name, an operator becomes no `await`, and a call holds the statements
that its operands held. So up to identities the two lowerings can be done in either order.

Operators become calls here by a map without a state, `called`, that numbers the names in some way.
Lowering deferred statements goes through this map in lockstep with itself.
-/

namespace MacroEngine

def calling (table : OperatorTable) : Rebuilding Id where
  onExpr
    | .binary s op l r =>
      match table.get? op with
      | none => .binary s op l r
      | some name => .call s (.dotted 0 name) [l, r]
    | e => e
  onBody _ b := b

section Called

variable (table : OperatorTable)

def Expr.called (e : Expr) : Expr := (e.rebuild (calling table)).run

def Expr.calledAll (es : List Expr) : List Expr := (Expr.rebuildAll (calling table) es).run

def Expr.calledProperties (ps : List (String × Expr)) : List (String × Expr) :=
  (Expr.rebuildProperties (calling table) ps).run

def Stmt.called (s : Stmt) : Stmt := (s.rebuild (calling table)).run

def Stmt.calledAll (ss : List Stmt) : List Stmt := (Stmt.rebuildAll (calling table) ss).run

def Member.calledAll (ms : List Member) : List Member := (Member.rebuildAll (calling table) ms).run

def Block.called (b : Block) : Block := (b.rebuild (calling table)).run

def SourceFile.called (file : SourceFile) : SourceFile :=
  { file with statements := Stmt.calledAll table file.statements }

theorem Expr.called_binary (s : Stamp) (op : BinaryOp) (l r : Expr) :
    (Expr.binary s op l r).called table =
      match table.get? op with
      | none => .binary s op (l.called table) (r.called table)
      | some name => .call s (.dotted 0 name) [l.called table, r.called table] := rfl

theorem Stmt.calledAll_eq_map (ss : List Stmt) :
    Stmt.calledAll table ss = ss.map (Stmt.called table) := by
  induction ss with
  | nil => rfl
  | cons s ss ih => exact congrArg (s.called table :: ·) ih

theorem Stmt.isReturn_called (s : Stmt) : (s.called table).isReturn = s.isReturn := by
  cases s with
  | binding _ _ _ init _ => cases init <;> rfl
  | ret _ value => cases value <;> rfl
  | ifElse _ _ _ alternative => cases alternative <;> rfl
  | _ => rfl

theorem Stmt.isExit_called (s : Stmt) : (s.called table).isExit = s.isExit := by
  cases s with
  | binding _ _ _ init _ => cases init <;> rfl
  | ret _ value => cases value <;> rfl
  | ifElse _ _ _ alternative => cases alternative <;> rfl
  | _ => rfl

theorem Stmt.isDefer_called (s : Stmt) : (s.called table).isDefer = s.isDefer := by
  cases s with
  | binding _ _ _ init _ => cases init <;> rfl
  | ret _ value => cases value <;> rfl
  | ifElse _ _ _ alternative => cases alternative <;> rfl
  | _ => rfl

theorem Expr.memberOf_forget (properties : List String) : ∀ (e e' : Expr) (next next' : NodeId),
    e.renumber forget = e'.renumber forget →
      (e.memberOf next properties).renumber forget = (e'.memberOf next' properties).renumber forget := by
  induction properties with
  | nil => exact fun _ _ _ _ h => h
  | cons property more ih =>
    intro e e' next next' h
    exact ih _ _ _ _ (congrArg (Expr.member ⟨0, ⟨0, 0⟩⟩ · property) h)

theorem Expr.dotted_forget (next next' : NodeId) (name : String) :
    (Expr.dotted next name).renumber forget = (Expr.dotted next' name).renumber forget :=
  Expr.memberOf_forget _ _ _ _ _ rfl

mutual

/-- Lowering operators makes calls of them, up to identities. -/
theorem Expr.asCalls_forget : ∀ (e : Expr) (next : NodeId),
    (e.asCalls table next).renumber forget = (e.called table).renumber forget
  | .ident _ _, _ | .number _ _, _ | .str _ _, _ | .bool _ _, _ | .null _, _ | .this _, _
  | .template _ _, _ | .tagged _ _ _, _ => rfl
  | .array _ es, next => congrArg (Expr.array _) (Expr.asCallsAll_forget es next)
  | .object _ ps, next => congrArg (Expr.object _) (Expr.asCallsProperties_forget ps next)
  | .paren _ e, next => congrArg (Expr.paren _) (e.asCalls_forget next)
  | .member _ o p, next => congrArg (Expr.member _ · p) (o.asCalls_forget next)
  | .call _ c as, next =>
    congrArg₂ (Expr.call _) (c.asCalls_forget next) (Expr.asCallsAll_forget as _)
  | .invoke _ n as, next => congrArg (Expr.invoke _ n) (Expr.asCallsAll_forget as next)
  | .unary _ o e, next => congrArg (Expr.unary _ o) (e.asCalls_forget next)
  | .binary s op l r, next => by
    have hl := l.asCalls_forget next
    have hr := r.asCalls_forget (next + nameNodes table (l.items true))
    rw [Expr.asCalls, Expr.called_binary]
    cases table.get? op with
    | none => exact congrArg₂ (Expr.binary _ op) hl hr
    | some name =>
      simp only [Expr.renumber, Expr.renumberAll, hl, hr, Expr.dotted_forget _ 0 name]
  | .assign _ t v, next => congrArg₂ (Expr.assign _) (t.asCalls_forget next) (v.asCalls_forget _)
  | .await _ e, next => congrArg (Expr.await _) (e.asCalls_forget next)
  | .arrow _ p a b, next => congrArg (Expr.arrow _ p a) (b.asCalls_forget next)
  | .arrowExpr _ p a e, next => congrArg (Expr.arrowExpr _ p a) (e.asCalls_forget next)
  | .function _ h b, next => congrArg (Expr.function _ h) (b.asCalls_forget next)

theorem Expr.asCallsAll_forget : ∀ (es : List Expr) (next : NodeId),
    Expr.renumberAll forget (Expr.asCallsAll table next es) =
      Expr.renumberAll forget (Expr.calledAll table es)
  | [], _ => rfl
  | e :: es, next => congrArg₂ List.cons (e.asCalls_forget next) (Expr.asCallsAll_forget es _)

theorem Expr.asCallsProperties_forget : ∀ (ps : List (String × Expr)) (next : NodeId),
    Expr.renumberProperties forget (Expr.asCallsProperties table next ps) =
      Expr.renumberProperties forget (Expr.calledProperties table ps)
  | [], _ => rfl
  | (name, e) :: ps, next => congrArg₂ (fun e ps => (name, e) :: ps) (e.asCalls_forget next)
    (Expr.asCallsProperties_forget ps _)

theorem Stmt.asCalls_forget : ∀ (s : Stmt) (next : NodeId),
    (s.asCalls table next).renumber forget = (s.called table).renumber forget
  | .importNames _ _ _, _ | .binding _ _ _ none _, _ | .ret _ none, _ | .empty _, _ => rfl
  | .function _ h b, next => congrArg (Stmt.function _ h) (b.asCalls_forget next)
  | .classDecl _ h ms, next => congrArg (Stmt.classDecl _ h) (Member.asCallsAll_forget ms next)
  | .binding _ k n (some e) v, next =>
    congrArg (fun e => Stmt.binding _ k n (some e) v) (e.asCalls_forget next)
  | .expr _ e, next => congrArg (Stmt.expr _) (e.asCalls_forget next)
  | .ret _ (some e), next => congrArg (fun e => Stmt.ret _ (some e)) (e.asCalls_forget next)
  | .ifElse _ c t none, next =>
    congrArg₂ (Stmt.ifElse _ · · none) (c.asCalls_forget next) (t.asCalls_forget _)
  | .ifElse s c t (some e), next => by
    have hc := c.asCalls_forget next
    have ht := t.asCalls_forget (next + nameNodes table (c.items true))
    have he := e.asCalls_forget
      (next + nameNodes table (c.items true) + nameNodes table (t.items true))
    change Stmt.ifElse _ _ _ (some _) = Stmt.ifElse _ _ _ (some _)
    rw [hc, ht, he]
    rfl
  | .whileLoop _ c b, next =>
    congrArg₂ (Stmt.whileLoop _) (c.asCalls_forget next) (b.asCalls_forget _)
  | .forOf _ k n i b, next =>
    congrArg₂ (Stmt.forOf _ k n) (i.asCalls_forget next) (b.asCalls_forget _)
  | .block _ b, next => congrArg (Stmt.block _) (b.asCalls_forget next)
  | .defer _ b, next => congrArg (Stmt.defer _) (b.asCalls_forget next)
  | .tryFinally _ b f, next =>
    congrArg₂ (Stmt.tryFinally _) (b.asCalls_forget next) (f.asCalls_forget _)
  | .throwExpr _ e, next => congrArg (Stmt.throwExpr _) (e.asCalls_forget next)

theorem Stmt.asCallsAll_forget : ∀ (ss : List Stmt) (next : NodeId),
    Stmt.renumberAll forget (Stmt.asCallsAll table next ss) =
      Stmt.renumberAll forget (Stmt.calledAll table ss)
  | [], _ => rfl
  | s :: ss, next => congrArg₂ List.cons (s.asCalls_forget next) (Stmt.asCallsAll_forget ss _)

theorem Member.asCallsAll_forget : ∀ (ms : List Member) (next : NodeId),
    Member.renumberAll forget (Member.asCallsAll table next ms) =
      Member.renumberAll forget (Member.calledAll table ms)
  | [], _ => rfl
  | .field s n none :: ms, next =>
    congrArg (Member.field (s.renumber forget) n none :: ·) (Member.asCallsAll_forget ms next)
  | .field s n (some e) :: ms, next =>
    congrArg₂ (fun e ms => Member.field (s.renumber forget) n (some e) :: ms) (e.asCalls_forget next)
      (Member.asCallsAll_forget ms _)
  | .method s h b :: ms, next =>
    congrArg₂ (fun b ms => Member.method (s.renumber forget) h b :: ms) (b.asCalls_forget next)
      (Member.asCallsAll_forget ms _)

theorem Block.asCalls_forget : ∀ (b : Block) (next : NodeId),
    (b.asCalls table next).renumber forget = (b.called table).renumber forget
  | ⟨_, ss⟩, next => congrArg (Block.mk _) (Stmt.asCallsAll_forget ss next)

end

theorem SourceFile.asCalls_forget (file : SourceFile) (next : NodeId) :
    (file.asCalls table next).renumber forget = (file.called table).renumber forget := by
  have h := Stmt.asCallsAll_forget table file.statements next
  rw [Stmt.renumberAll_eq_map, Stmt.renumberAll_eq_map] at h
  exact congrArg (fun ss => ({ file with id := 0, statements := ss } : SourceFile)) h

end Called

namespace Lowering

open Control Fresh

section Kept

variable {table : OperatorTable}

theorem deferSpans_renumber (ρ : NodeId → NodeId) (items : List Item) :
    deferSpans (items.map (Item.renumber ρ)) = deferSpans items := by
  induction items with
  | nil => rfl
  | cons i items ih =>
    cases i with
    | expr e => exact ih
    | stmt s =>
      rw [List.map_cons, Item.renumber, deferSpans_cons_stmt, deferSpans_cons_stmt, ih,
        Stmt.isDefer_renumber, Stmt.span_renumber]

/-- Calls in place of operators change nothing about whether a block awaits. -/
theorem awaits_called (b : Block) : awaits (b.called table) = awaits b := by
  rw [← awaits_renumber (ρ := forget), ← b.asCalls_forget table 0, awaits_renumber]
  exact (b.asCalls_settled table false 0).awaits

theorem deferSpans_called (file : SourceFile) :
    deferSpans (file.called table).items = deferSpans file.items := by
  rw [← deferSpans_renumber forget, ← SourceFile.items_renumber, ← file.asCalls_forget table 0,
    SourceFile.items_renumber, deferSpans_renumber]
  exact (asCalls_settled table file 0).spans

end Kept

section Cover

def same : Lockstep Fresh := .state Eq

variable (table : OperatorTable) (isAsync : Bool)

theorem sends_of_run {α β : Type} {x : Fresh α} {y : Fresh β} {k : α → β}
    (h : ∀ next, (y.run next).1 = k (x.run next).1 ∧ (y.run next).2 = (x.run next).2) :
    same.holds (Sends k) x y := by
  rintro next _ rfl
  exact ⟨(h next).1, (h next).2.symm⟩

theorem built_called {α β : Type} {f : Stamp → α} {g : Stamp → β} {k : α → β}
    (h : ∀ s, g s = k (f s)) : same.holds (Sends k) (return f (← stamp)) (return g (← stamp)) :=
  sends_of_run fun _ => ⟨h _, rfl⟩

theorem cleanup_called : same.holds (Sends (Stmt.called table)) (cleanup isAsync) (cleanup isAsync) := by
  refine sends_of_run fun next => ⟨?_, rfl⟩
  cases isAsync <;> rfl

theorem blockStmt_called (ss : List Stmt) : same.holds (Sends (Stmt.called table))
    (blockStmt ss) (blockStmt (Stmt.calledAll table ss)) := sends_of_run fun _ => ⟨rfl, rfl⟩

mutual

theorem coverAll_called : ∀ ss : List Stmt, same.holds (Sends (Stmt.calledAll table))
    (coverAll isAsync ss) (coverAll isAsync (Stmt.calledAll table ss))
  | [] => same.pure rfl
  | s :: ss => by
    change same.holds _ (coverAll isAsync (s :: ss))
      (coverAll isAsync (s.called table :: Stmt.calledAll table ss))
    rw [coverAll, coverAll, Stmt.isReturn_called]
    split
    · refine same.bindSends (cleanup_called table isAsync) fun run => ?_
      exact same.bindSends (coverAll_called ss) fun _ => same.pure rfl
    · refine same.bindSends (coverInside_called s) fun s' => ?_
      exact same.bindSends (coverAll_called ss) fun _ => same.pure rfl

theorem coverInside_called : ∀ s : Stmt, same.holds (Sends (Stmt.called table))
    (coverInside isAsync s) (coverInside isAsync (s.called table))
  | .ifElse _ _ t none | .block _ t | .whileLoop _ _ t | .forOf _ _ _ _ t =>
    same.bindSends (coverBlock_called t) fun _ => same.pure rfl
  | .ifElse s c t (some e) => by
    change same.holds _ (coverInside isAsync (.ifElse s c t (some e)))
      (coverInside isAsync (.ifElse s (c.called table) (t.called table) (some (e.called table))))
    rw [coverInside, coverInside, Stmt.isReturn_called]
    refine same.bindSends (coverBlock_called t) fun t' => ?_
    split
    · refine same.bindSends (k := fun s => s) (sends_of_run fun _ => ⟨rfl, rfl⟩) fun _ => ?_
      refine same.bindSends (cleanup_called table isAsync) fun run => ?_
      exact same.bindSends (blockStmt_called table [run, e]) fun _ => same.pure rfl
    · exact same.bindSends (coverInside_called e) fun _ => same.pure rfl
  | .tryFinally _ b f => same.bindSends (coverBlock_called b) fun _ =>
    same.bindSends (coverBlock_called f) fun _ => same.pure rfl
  | .importNames _ _ _ | .function _ _ _ | .classDecl _ _ _ | .binding _ _ _ none _
  | .binding _ _ _ (some _) _ | .expr _ _ | .ret _ none | .ret _ (some _) | .defer _ _
  | .throwExpr _ _ | .empty _ => same.pure rfl

theorem coverBlock_called : ∀ b : Block, same.holds (Sends (Block.called table))
    (coverBlock isAsync b) (coverBlock isAsync (b.called table))
  | ⟨_, ss⟩ => same.bindSends (coverAll_called ss) fun _ => same.pure rfl

end

theorem registration_called (span : Span) (action : Block) :
    same.holds (Sends (Stmt.called table)) (registration isAsync span action)
      (registration isAsync span (action.called table)) := by
  unfold registration
  rw [awaits_called]
  exact sends_of_run fun _ => ⟨rfl, rfl⟩

theorem register_called (ss : List Stmt) : same.holds (Sends (Stmt.calledAll table))
    (register isAsync ss) (register isAsync (Stmt.calledAll table ss)) := by
  induction ss with
  | nil => exact same.pure rfl
  | cons s ss ih =>
    change same.holds _ (register isAsync (s :: ss))
      (register isAsync (s.called table :: Stmt.calledAll table ss))
    cases hs : s.isDefer with
    | true =>
      cases s with
      | defer s b =>
        refine same.bindSends (registration_called table isAsync s.span b) fun r => ?_
        exact same.bindSends ih fun _ => same.pure rfl
      | _ => cases hs
    | false =>
      rw [register_cons isAsync ss hs, register_cons isAsync _ ((s.isDefer_called table).trans hs)]
      exact same.bindSends ih fun _ => same.pure rfl

theorem guarded_called (complete : List Stmt) : same.holds (Sends (Stmt.calledAll table))
    (do
      let flag ← Fresh.ident deferredFlag
      let pending ← Fresh.unary .not flag
      let run ← cleanup isAsync
      let guard ← Fresh.ifElse pending (← Fresh.block [run]) none
      let actions ← Fresh.binding .constant deferList (some (← Fresh.array []))
      let flag ← Fresh.binding .mutable deferredFlag (some (← Fresh.bool false))
      let body ← Fresh.block complete
      let finalizer ← Fresh.block [guard]
      return [actions, flag, ← Fresh.tryFinally body finalizer])
    (do
      let flag ← Fresh.ident deferredFlag
      let pending ← Fresh.unary .not flag
      let run ← cleanup isAsync
      let guard ← Fresh.ifElse pending (← Fresh.block [run]) none
      let actions ← Fresh.binding .constant deferList (some (← Fresh.array []))
      let flag ← Fresh.binding .mutable deferredFlag (some (← Fresh.bool false))
      let body ← Fresh.block (Stmt.calledAll table complete)
      let finalizer ← Fresh.block [guard]
      return [actions, flag, ← Fresh.tryFinally body finalizer]) := by
  refine same.bindSends (built_called (k := Expr.called table) fun _ => rfl) fun flag => ?_
  refine same.bindSends (built_called (k := Expr.called table) fun _ => rfl) fun pending => ?_
  refine same.bindSends (cleanup_called table isAsync) fun run => ?_
  refine same.bindSends (built_called (k := Block.called table) fun _ => rfl) fun runs => ?_
  refine same.bindSends (built_called (k := Stmt.called table) fun _ => rfl) fun guard => ?_
  refine same.bindSends (built_called (k := Expr.called table) fun _ => rfl) fun none => ?_
  refine same.bindSends (built_called (k := Stmt.called table) fun _ => rfl) fun actions => ?_
  refine same.bindSends (built_called (k := Expr.called table) fun _ => rfl) fun no => ?_
  refine same.bindSends (built_called (k := Stmt.called table) fun _ => rfl) fun flag => ?_
  refine same.bindSends (built_called (k := Block.called table) fun _ => rfl) fun body => ?_
  refine same.bindSends (built_called (k := Block.called table) fun _ => rfl) fun finalizer => ?_
  exact same.bindSends (built_called (k := Stmt.called table) fun _ => rfl) fun _ => same.pure rfl

theorem lowered_called (ss : List Stmt) : same.holds (Sends (Stmt.calledAll table))
    (lowered isAsync ss) (lowered isAsync (Stmt.calledAll table ss)) := by
  have hexit : ∀ ss : List Stmt, ((Stmt.calledAll table ss).getLast?.map Stmt.isExit).getD false =
      (ss.getLast?.map Stmt.isExit).getD false := by
    intro ss
    rw [Stmt.calledAll_eq_map, List.getLast?_map, Option.map_map,
      show Stmt.isExit ∘ Stmt.called table = Stmt.isExit from funext (Stmt.isExit_called table)]
  unfold lowered
  refine same.bindSends (register_called table isAsync ss) fun registered => ?_
  refine same.bindSends (coverAll_called table isAsync registered) fun covered => ?_
  rw [hexit]
  dsimp only
  split
  · exact same.bindSends (same.pure rfl) (guarded_called table isAsync)
  · refine same.bindSends (cleanup_called table isAsync) fun run => ?_
    refine same.bindSends (same.pure ?_) (guarded_called table isAsync)
    simp [Sends, Stmt.calledAll_eq_map]

theorem functionBody_called (b : Block) :
    same.holds (Sends fun out => (out.1.called table, out.2)) (functionBody isAsync b)
      (functionBody isAsync (b.called table)) := by
  obtain ⟨s, ss⟩ := b
  have hany : (Stmt.calledAll table ss).any Stmt.isDefer = ss.any Stmt.isDefer := by
    rw [Stmt.calledAll_eq_map, List.any_map,
      show Stmt.isDefer ∘ Stmt.called table = Stmt.isDefer from funext (Stmt.isDefer_called table)]
  have hcount : deferCount (Stmt.calledAll table ss) = deferCount ss := by
    rw [Stmt.calledAll_eq_map, deferCount, List.countP_map,
      show Stmt.isDefer ∘ Stmt.called table = Stmt.isDefer from funext (Stmt.isDefer_called table)]
    rfl
  change same.holds _ (functionBody isAsync ⟨s, ss⟩) (functionBody isAsync ⟨s, Stmt.calledAll table ss⟩)
  unfold functionBody
  rw [hany, hcount]
  split
  · exact same.bindSends (lowered_called table isAsync ss) fun _ => same.pure rfl
  · exact same.pure rfl

end Cover

section Callees

variable {table : OperatorTable} {isAsync : Bool} {fresh : NodeId} {ss ss' : List Stmt}

theorem callees_cleanup {s : Stmt} (h : IsCleanup s) : callees table (s.items true) = [] := by
  obtain ⟨hcall⟩ := h
  cases hcall <;> rfl

mutual

/-- Cleanups have no operators. -/
theorem callees_coversAll : ∀ {ss ss' : List Stmt}, CoversAll isAsync fresh ss ss' →
    callees table (Stmt.itemsAll true ss') = callees table (Stmt.itemsAll true ss)
  | _, _, .nil => rfl
  | _, _, .ret hrun hss => by
    simp only [Stmt.itemsAll, callees_append, callees_cleanup hrun.isCleanup, List.nil_append,
      callees_coversAll hss]
  | _, _, .cons hs hss => by
    simp only [Stmt.itemsAll, callees_append, callees_coversIn hs, callees_coversAll hss]

theorem callees_coversIn : ∀ {s s' : Stmt}, CoversIn isAsync fresh s s' →
    callees table (s'.items true) = callees table (s.items true)
  | _, _, .same _ => rfl
  | _, _, .ifElse ht | _, _, .whileLoop ht | _, _, .forOf ht | _, _, .block ht => by
    simp [Stmt.items, Block.items, Item.callee?, callees_coversAll ht]
  | _, _, .elseReturn ht hrun _ => by
    simp [Stmt.items, Block.items, Stmt.itemsAll, Item.callee?, callees_coversAll ht,
      callees_cleanup hrun.isCleanup]
  | _, _, .elseIn ht he => by
    simp [Stmt.items, Block.items, Item.callee?, callees_coversAll ht, callees_coversIn he]
  | _, _, .tryFinally ht hu => by
    simp [Stmt.items, Block.items, Item.callee?, callees_coversAll ht, callees_coversAll hu]

end

theorem callees_registered (h : Registered isAsync fresh ss ss') :
    callees table (Stmt.itemsAll true ss') = callees table (Stmt.itemsAll true ss) := by
  induction h with
  | nil => rfl
  | register _ _ _ ih =>
    simp [Stmt.itemsAll, Stmt.items, Expr.items, Expr.itemsAll, bodyItems_true, Item.callee?, ih]
  | keep _ _ ih => simp [Stmt.itemsAll, ih]

/-- Lowering a body moves its operators and brings in none. -/
theorem callees_lowered {inner : List Stmt} (h : Lowers isAsync fresh ss inner)
    (h' : Frames isAsync inner ss') :
    callees table (Stmt.itemsAll true ss') = callees table (Stmt.itemsAll true ss) := by
  have hinner : callees table (Stmt.itemsAll true inner) = callees table (Stmt.itemsAll true ss) := by
    cases h with
    | leaves hrs hss _ => rw [callees_coversAll hss, callees_registered hrs]
    | falls hrs hss _ hrun =>
      rw [← callees_registered hrs, ← callees_coversAll hss]
      simp [Stmt.itemsAll_eq_flatMap, callees_cleanup hrun.isCleanup]
  obtain ⟨hrun⟩ := h'
  simp [Stmt.itemsAll, Stmt.items, Block.items, Expr.items, Expr.itemsAll, Item.callee?,
    callees_cleanup hrun.isCleanup, hinner]

theorem functionBody_callees (isAsync : Bool) (b : Block) : Always (functionBody isAsync b)
    fun out => callees table (out.1.items true) = callees table (b.items true) := by
  obtain ⟨stamp, ss⟩ := b
  intro next
  unfold functionBody
  split
  · obtain ⟨inner, hlowers, hframes⟩ := lowered_frames isAsync next ss next (Nat.le_refl next)
    exact callees_lowered hlowers hframes
  · rfl

end Callees

section Rebuilt

variable (table : OperatorTable)

def sameCounts : Lockstep Counted := .counting Eq

/-- What is made of a thing: the operators of its nodes are still there, and the map makes the other
thing of it. -/
abbrev Kept {α : Type} (nodes : α → List Item) (k : α → α) (a : α) : α → α → Prop :=
  SendsOn (fun a' => callees table (nodes a') = callees table (nodes a)) k

theorem onBody_called (isAsync : Bool) (b : Block) :
    sameCounts.holds (Kept table (Block.items true) (Block.called table) b)
      (deferLowering.onBody isAsync b) (deferLowering.onBody isAsync (b.called table)) := by
  have hbody : same.holds
      (SendsOn (fun out => callees table (out.1.items true) = callees table (b.items true))
        fun out : Block × Option Nat => (out.1.called table, out.2))
      (functionBody isAsync b) (functionBody isAsync (b.called table)) :=
    Lockstep.sendsOn (functionBody_called table isAsync b) (functionBody_callees isAsync b)
  have hcounted : sameCounts.holds
      (SendsOn (fun out => callees table (out.1.items true) = callees table (b.items true))
        fun out : Block × Option Nat => (out.1.called table, out.2))
      (liftM (functionBody isAsync b) : Counted _)
      (liftM (functionBody isAsync (b.called table)) : Counted _) :=
    fun n next next' hnext => ⟨⟨(hbody next next' hnext).1, rfl⟩, (hbody next next' hnext).2⟩
  refine sameCounts.bindOn hcounted fun out hout => ?_
  obtain ⟨b', actions⟩ := out
  dsimp only
  split
  · have hcount : sameCounts.holds (fun _ _ => True) count count :=
      fun _ _ _ h => ⟨⟨trivial, rfl⟩, h⟩
    exact sameCounts.bind hcount fun _ _ _ => sameCounts.pure ⟨hout, rfl⟩
  · exact sameCounts.pure ⟨hout, rfl⟩

/-- There is nothing to do in a name. -/
theorem rebuild_dotted (next : NodeId) (name : String) :
    (Expr.dotted next name).rebuild deferLowering = pure (.dotted next name) := by
  have hmembers : ∀ (properties : List String) (e : Expr) (next : NodeId),
      e.rebuild deferLowering = pure e →
        (e.memberOf next properties).rebuild deferLowering = pure (e.memberOf next properties) := by
    intro properties
    induction properties with
    | nil => exact fun _ _ h => h
    | cons property more ih =>
      intro e next h
      refine ih _ _ ?_
      rw [Expr.rebuild, h, pure_bind]
      rfl
  exact hmembers _ _ _ rfl

mutual

theorem expr_called : ∀ e : Expr, sameCounts.holds (Kept table (Expr.items true) (Expr.called table) e)
    (e.rebuild deferLowering) ((e.called table).rebuild deferLowering)
  | .ident _ _ | .number _ _ | .str _ _ | .bool _ _ | .null _ | .this _ | .template _ _
  | .tagged _ _ _ => sameCounts.pure ⟨rfl, rfl⟩
  | .array _ es | .invoke _ _ es =>
    sameCounts.bindOn (exprs_called es) fun _ hes => sameCounts.pure ⟨hes, rfl⟩
  | .object _ ps => sameCounts.bindOn (properties_called ps) fun _ hps => sameCounts.pure ⟨hps, rfl⟩
  | .paren _ e | .member _ e _ | .unary _ _ e | .await _ e | .arrowExpr _ _ _ e =>
    sameCounts.bindOn (expr_called e) fun _ he => sameCounts.pure ⟨he, rfl⟩
  | .call _ c as => sameCounts.bindOn (expr_called c) fun c' hc =>
    sameCounts.bindOn (exprs_called as) fun as' has => sameCounts.pure ⟨by
      simp [Expr.items, Item.callee?, hc, has], rfl⟩
  | .assign _ l r => sameCounts.bindOn (expr_called l) fun l' hl =>
    sameCounts.bindOn (expr_called r) fun r' hr => sameCounts.pure ⟨by
      simp [Expr.items, Item.callee?, hl, hr], rfl⟩
  | .binary s op l r => by
    have hboth : ∀ l' r', callees table (Expr.items true l') = callees table (l.items true) →
        callees table (Expr.items true r') = callees table (r.items true) →
        callees table ((Expr.binary s op l' r').items true) =
          callees table ((Expr.binary s op l r).items true) := by
      intro l' r' hl hr
      simp [Expr.items, Item.callee?, hl, hr]
    have hcalled : ∀ l' r' : Expr, Expr.called table (.binary s op l' r') = _ :=
      fun l' r' => Expr.called_binary table s op l' r'
    rw [hcalled]
    cases hname : table.get? op with
    | none =>
      refine sameCounts.bindOn (expr_called l) fun l' hl => ?_
      refine sameCounts.bindOn (expr_called r) fun r' hr => sameCounts.pure ⟨hboth l' r' hl hr, ?_⟩
      rw [hcalled, hname]
    | some name =>
      have hcall : (Expr.call s (.dotted 0 name) [l.called table, r.called table]).rebuild
          deferLowering = (do
            let l' ← (l.called table).rebuild deferLowering
            let r' ← (r.called table).rebuild deferLowering
            return .call s (.dotted 0 name) [l', r']) := by
        have hidle : ∀ e, deferLowering.onExpr e = pure e := fun _ => rfl
        simp [Expr.rebuild, Expr.rebuildAll, rebuild_dotted, hidle]
      rw [hcall]
      refine sameCounts.bindOn (expr_called l) fun l' hl => ?_
      refine sameCounts.bindOn (expr_called r) fun r' hr => sameCounts.pure ⟨hboth l' r' hl hr, ?_⟩
      rw [hcalled, hname]
  | .arrow _ _ a b => sameCounts.bindOn (block_called b) fun b' hb =>
    sameCounts.bindOn (onBody_called table a b') fun b'' hb' =>
      sameCounts.pure ⟨by simp [Expr.items, Item.callee?, bodyItems_true, hb, hb'], rfl⟩
  | .function _ h b => sameCounts.bindOn (block_called b) fun b' hb =>
    sameCounts.bindOn (onBody_called table h.isAsync b') fun b'' hb' =>
      sameCounts.pure ⟨by simp [Expr.items, Item.callee?, bodyItems_true, hb, hb'], rfl⟩

theorem exprs_called : ∀ es : List Expr, sameCounts.holds
    (Kept table (Expr.itemsAll true) (Expr.calledAll table) es)
    (Expr.rebuildAll deferLowering es) (Expr.rebuildAll deferLowering (Expr.calledAll table es))
  | [] => sameCounts.pure ⟨rfl, rfl⟩
  | e :: es => sameCounts.bindOn (expr_called e) fun e' he =>
    sameCounts.bindOn (exprs_called es) fun es' hes =>
      sameCounts.pure ⟨by simp [Expr.itemsAll, he, hes], rfl⟩

theorem properties_called : ∀ ps : List (String × Expr), sameCounts.holds
    (Kept table (Expr.itemsProperties true) (Expr.calledProperties table) ps)
    (Expr.rebuildProperties deferLowering ps)
    (Expr.rebuildProperties deferLowering (Expr.calledProperties table ps))
  | [] => sameCounts.pure ⟨rfl, rfl⟩
  | (_, e) :: ps => sameCounts.bindOn (expr_called e) fun e' he =>
    sameCounts.bindOn (properties_called ps) fun ps' hps =>
      sameCounts.pure ⟨by simp [Expr.itemsProperties, he, hps], rfl⟩

theorem stmt_called : ∀ s : Stmt, sameCounts.holds (Kept table (Stmt.items true) (Stmt.called table) s)
    (s.rebuild deferLowering) ((s.called table).rebuild deferLowering)
  | .importNames _ _ _ | .empty _ | .binding _ _ _ none _ | .ret _ none =>
    sameCounts.pure ⟨rfl, rfl⟩
  | .function _ h b => sameCounts.bindOn (block_called b) fun b' hb =>
    sameCounts.bindOn (onBody_called table h.isAsync b') fun b'' hb' =>
      sameCounts.pure ⟨by simp [Stmt.items, Item.callee?, bodyItems_true, hb, hb'], rfl⟩
  | .classDecl _ _ ms => sameCounts.bindOn (members_called ms) fun _ hms => sameCounts.pure ⟨hms, rfl⟩
  | .binding _ _ _ (some e) _ | .expr _ e | .ret _ (some e) | .throwExpr _ e =>
    sameCounts.bindOn (expr_called e) fun _ he => sameCounts.pure ⟨he, rfl⟩
  | .ifElse _ c t none => sameCounts.bindOn (expr_called c) fun c' hc =>
    sameCounts.bindOn (block_called t) fun t' ht =>
      sameCounts.pure ⟨by simp [Stmt.items, Item.callee?, hc, ht], rfl⟩
  | .ifElse _ c t (some e) => sameCounts.bindOn (expr_called c) fun c' hc =>
    sameCounts.bindOn (block_called t) fun t' ht => sameCounts.bindOn (stmt_called e) fun e' he =>
      sameCounts.pure ⟨by simp [Stmt.items, Item.callee?, hc, ht, he], rfl⟩
  | .whileLoop _ e b | .forOf _ _ _ e b => sameCounts.bindOn (expr_called e) fun e' he =>
    sameCounts.bindOn (block_called b) fun b' hb =>
      sameCounts.pure ⟨by simp [Stmt.items, Item.callee?, he, hb], rfl⟩
  | .block _ b | .defer _ b =>
    sameCounts.bindOn (block_called b) fun _ hb => sameCounts.pure ⟨hb, rfl⟩
  | .tryFinally _ b f => sameCounts.bindOn (block_called b) fun b' hb =>
    sameCounts.bindOn (block_called f) fun f' hf =>
      sameCounts.pure ⟨by simp [Stmt.items, Item.callee?, hb, hf], rfl⟩

theorem stmts_called : ∀ ss : List Stmt, sameCounts.holds
    (Kept table (Stmt.itemsAll true) (Stmt.calledAll table) ss)
    (Stmt.rebuildAll deferLowering ss) (Stmt.rebuildAll deferLowering (Stmt.calledAll table ss))
  | [] => sameCounts.pure ⟨rfl, rfl⟩
  | s :: ss => sameCounts.bindOn (stmt_called s) fun s' hs =>
    sameCounts.bindOn (stmts_called ss) fun ss' hss =>
      sameCounts.pure ⟨by simp [Stmt.itemsAll, hs, hss], rfl⟩

theorem members_called : ∀ ms : List Member, sameCounts.holds
    (Kept table (Member.itemsAll true) (Member.calledAll table) ms)
    (Member.rebuildAll deferLowering ms) (Member.rebuildAll deferLowering (Member.calledAll table ms))
  | [] => sameCounts.pure ⟨rfl, rfl⟩
  | .field _ _ none :: ms =>
    sameCounts.bindOn (members_called ms) fun _ hms => sameCounts.pure ⟨hms, rfl⟩
  | .field _ _ (some e) :: ms => sameCounts.bindOn (expr_called e) fun e' he =>
    sameCounts.bindOn (members_called ms) fun ms' hms =>
      sameCounts.pure ⟨by simp [Member.itemsAll, he, hms], rfl⟩
  | .method _ h b :: ms => sameCounts.bindOn (block_called b) fun b' hb =>
    sameCounts.bindOn (onBody_called table h.isAsync b') fun b'' hb' =>
      sameCounts.bindOn (members_called ms) fun ms' hms =>
        sameCounts.pure ⟨by simp [Member.itemsAll, bodyItems_true, hb, hb', hms], rfl⟩

theorem block_called : ∀ b : Block, sameCounts.holds
    (Kept table (Block.items true) (Block.called table) b)
    (b.rebuild deferLowering) ((b.called table).rebuild deferLowering)
  | ⟨_, ss⟩ => sameCounts.bindOn (stmts_called ss) fun _ hss => sameCounts.pure ⟨hss, rfl⟩

end

end Rebuilt

section Order

variable (table : OperatorTable)

/-- The error, if any, is about the first deferred statement that is left. -/
theorem run_defers_of_rebuildAll {file : SourceFile} {next next' : NodeId} {statements : List Stmt}
    {n : Nat} (h : ((Stmt.rebuildAll deferLowering file.statements).run 0).run next =
      ((statements, n), next')) :
    (defers file).run next = (({ file with statements },
      (deferSpans (Stmt.itemsAll true statements)).head?.elim (.ok n)
        fun span => .error (.misplacedDefer file.path span)), next') := by
  have hspan : (deferSpans (Stmt.itemsAll true statements)).head? =
      (firstDefer? { file with statements }).map Stmt.span := by
    rw [firstDefer?, deferSpans, List.head?_map, List.head?_filter]
    rfl
  rw [defers, StateT.run_bind, h, hspan]
  change (pure _ : Fresh (SourceFile × Except Error Nat)).run next' = _
  cases firstDefer? { file with statements } <;> rfl

/-- Where operators are calls already, deferred statements are lowered to the same tree with operators
as calls: the same bodies are counted, the same statement is misplaced. -/
theorem run_defers_called (file : SourceFile) (next : NodeId) :
    ∃ file' outcome next', (defers file).run next = ((file', outcome), next') ∧
      (defers (file.called table)).run next = ((file'.called table, outcome), next') ∧
      callees table file'.items = callees table file.items := by
  have hwalk := stmts_called table file.statements 0 next next rfl
  generalize hout : ((Stmt.rebuildAll deferLowering file.statements).run 0).run next = out at hwalk
  generalize hout' : ((Stmt.rebuildAll deferLowering (Stmt.calledAll table file.statements)).run
    0).run next = out' at hwalk
  obtain ⟨⟨statements, n⟩, next'⟩ := out
  obtain ⟨⟨_, _⟩, _⟩ := out'
  obtain ⟨⟨⟨hkept, rfl⟩, rfl⟩, rfl⟩ := hwalk
  have hspans : deferSpans (Stmt.itemsAll true (Stmt.calledAll table statements)) =
      deferSpans (Stmt.itemsAll true statements) := deferSpans_called { file with statements }
  have hcalled : (defers (file.called table)).run next = _ := run_defers_of_rebuildAll hout'
  rw [hspans] at hcalled
  exact ⟨_, _, _, run_defers_of_rebuildAll hout, hcalled, hkept⟩

/-- Deferred statements first: the tree, what became of them, and how many operators were lowered. -/
def defersFirst (file : SourceFile) : Fresh (SourceFile × Except Error Nat × Nat) := do
  let (file, bodies) ← defers file
  let (file, calls) ← operators table file
  return (file, bodies, calls)

def operatorsFirst (file : SourceFile) : Fresh (SourceFile × Except Error Nat × Nat) := do
  let (file, calls) ← operators table file
  let (file, bodies) ← defers file
  return (file, bodies, calls)

/-- The lowerings commute: in either order, whatever the next numbers are, a file becomes the same tree
up to identities, as many bodies and operators are counted, and the same statement is misplaced. -/
theorem defers_operators_commute (file : SourceFile) (next next' : NodeId) :
    ((defersFirst table file).run next).1.1.renumber forget =
      ((operatorsFirst table file).run next').1.1.renumber forget ∧
    ((defersFirst table file).run next).1.2 = ((operatorsFirst table file).run next').1.2 := by
  obtain ⟨lowered, outcome, middle, hdefers, hcalled, hkept⟩ := run_defers_called table file next
  have hfirst : (defersFirst table file).run next = ((lowered.asCalls table middle, outcome,
      (callees table lowered.items).length), middle + nameNodes table lowered.items) := by
    rw [defersFirst, StateT.run_bind, hdefers]
    change (operators table lowered >>= fun out => pure (out.1, outcome, out.2)).run middle = _
    rw [StateT.run_bind, run_operators]
    rfl
  have hsecond : (operatorsFirst table file).run next' =
      ((((defers (file.asCalls table next')).run (next' + nameNodes table file.items)).1.1,
        ((defers (file.asCalls table next')).run (next' + nameNodes table file.items)).1.2,
        (callees table file.items).length),
        ((defers (file.asCalls table next')).run (next' + nameNodes table file.items)).2) := by
    rw [operatorsFirst, StateT.run_bind, run_operators]
    rfl
  -- With operators as calls by either map, and from any number on, the same is made of the file.
  obtain ⟨htree, houtcome⟩ := defers_congr (file.asCalls_forget table next')
    (next' + nameNodes table file.items) next
  rw [hfirst, hsecond]
  refine ⟨?_, ?_⟩
  · rw [htree, hcalled, lowered.asCalls_forget]
  · rw [houtcome, hcalled, hkept]

end Order

end Lowering

end MacroEngine
