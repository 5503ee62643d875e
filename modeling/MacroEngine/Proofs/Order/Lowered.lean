import MacroEngine.Lowering.Defer
import MacroEngine.Proofs.Order.Lockstep

/-!
# Lowering with other numbers

New nodes get the next number, whatever it is. So a tree with other numbers is lowered to the same
tree with other numbers, and what is counted on the way is the same.
-/

namespace MacroEngine

/-- The next numbers correspond, and so do all that come after them. Those of the first side are not
below `bound`. -/
structure Aligned (ρ : Nat → Nat) (bound n n' : Nat) : Prop where
  le : bound ≤ n
  carries : ∀ i, ρ (n + i) = n' + i

theorem Aligned.add {ρ : Nat → Nat} {bound n n' : Nat} (h : Aligned ρ bound n n') (used : Nat) :
    Aligned ρ bound (n + used) (n' + used) where
  le := Nat.le_add_right_of_le h.le
  carries i := by rw [Nat.add_assoc, h.carries, Nat.add_assoc]

namespace Fresh

variable {ρ : Nat → Nat} {bound : Nat}

def inStep (ρ : Nat → Nat) (bound : Nat) : Lockstep Fresh := .state (Aligned ρ bound)

theorem stamp_inStep : (inStep ρ bound).holds (Sends (Stamp.renumber ρ)) stamp stamp := by
  intro n n' h
  refine ⟨?_, h.add 1⟩
  exact congrArg (Stamp.mk · _) (h.carries 0).symm

theorem built {α β : Type} {f : Stamp → α} {g : Stamp → β} {k : α → β}
    (h : ∀ s, g (s.renumber ρ) = k (f s)) :
    (inStep ρ bound).holds (Sends k) (return f (← stamp)) (return g (← stamp)) :=
  (inStep ρ bound).bindSends stamp_inStep fun s => (inStep ρ bound).pure (h s)

section Nodes

variable (name : String) (e e' : Expr) (b b' : Block) (ss : List Stmt)

theorem ident_inStep : (inStep ρ bound).holds (Sends (Expr.renumber ρ)) (ident name) (ident name) :=
  built fun _ => rfl

theorem number_inStep : (inStep ρ bound).holds (Sends (Expr.renumber ρ)) (number name) (number name) :=
  built fun _ => rfl

theorem bool_inStep (value : Bool) :
    (inStep ρ bound).holds (Sends (Expr.renumber ρ)) (bool value) (bool value) := built fun _ => rfl

theorem unary_inStep (op : UnaryOp) :
    (inStep ρ bound).holds (Sends (Expr.renumber ρ)) (unary op e) (unary op (e.renumber ρ)) :=
  built fun _ => rfl

theorem member_inStep :
    (inStep ρ bound).holds (Sends (Expr.renumber ρ)) (member e name) (member (e.renumber ρ) name) :=
  built fun _ => rfl

theorem call_inStep (args : List Expr) : (inStep ρ bound).holds (Sends (Expr.renumber ρ))
    (call e args) (call (e.renumber ρ) (args.map (Expr.renumber ρ))) :=
  built fun _ => by simp [Expr.renumber]

theorem array_inStep (items : List Expr) : (inStep ρ bound).holds (Sends (Expr.renumber ρ))
    (array items) (array (items.map (Expr.renumber ρ))) :=
  built fun _ => by simp [Expr.renumber]

theorem assign_inStep : (inStep ρ bound).holds (Sends (Expr.renumber ρ))
    (assign e e') (assign (e.renumber ρ) (e'.renumber ρ)) := built fun _ => rfl

theorem await_inStep :
    (inStep ρ bound).holds (Sends (Expr.renumber ρ)) (await e) (await (e.renumber ρ)) :=
  built fun _ => rfl

theorem arrow_inStep (params : List String) (isAsync : Bool) :
    (inStep ρ bound).holds (Sends (Expr.renumber ρ)) (arrow params isAsync b)
      (arrow params isAsync (b.renumber ρ)) := built fun _ => rfl

theorem voidZero_inStep : (inStep ρ bound).holds (Sends (Expr.renumber ρ)) voidZero voidZero :=
  (inStep ρ bound).bindSends (number_inStep _) fun _ => unary_inStep _ _

theorem members_inStep (properties : List String) :
    (inStep ρ bound).holds (Sends (Expr.renumber ρ)) (members e properties)
      (members (e.renumber ρ) properties) := by
  induction properties generalizing e with
  | nil => exact (inStep ρ bound).pure rfl
  | cons property more ih => exact (inStep ρ bound).bindSends (member_inStep _ e) ih

theorem path_inStep : (inStep ρ bound).holds (Sends (Expr.renumber ρ)) (path name) (path name) := by
  unfold path
  split
  · exact ident_inStep _
  · exact (inStep ρ bound).bindSends (ident_inStep _) fun e => members_inStep e _

theorem block_inStep : (inStep ρ bound).holds (Sends (Block.renumber ρ))
    (block ss) (block (ss.map (Stmt.renumber ρ))) :=
  built fun _ => by simp [Block.renumber]

theorem blockStmt_inStep : (inStep ρ bound).holds (Sends (Stmt.renumber ρ))
    (blockStmt ss) (blockStmt (ss.map (Stmt.renumber ρ))) :=
  (inStep ρ bound).bindSends (block_inStep ss) fun _ => built fun _ => rfl

theorem exprStmt_inStep :
    (inStep ρ bound).holds (Sends (Stmt.renumber ρ)) (exprStmt e) (exprStmt (e.renumber ρ)) :=
  built fun _ => rfl

theorem binding_inStep (kind : VarKind) : (inStep ρ bound).holds (Sends (Stmt.renumber ρ))
    (binding kind name (some e)) (binding kind name (some (e.renumber ρ))) :=
  built fun _ => rfl

theorem ifElse_inStep : (inStep ρ bound).holds (Sends (Stmt.renumber ρ))
    (ifElse e b none) (ifElse (e.renumber ρ) (b.renumber ρ) none) := built fun _ => rfl

theorem forOf_inStep : (inStep ρ bound).holds (Sends (Stmt.renumber ρ))
    (forOf name e b) (forOf name (e.renumber ρ) (b.renumber ρ)) := built fun _ => rfl

theorem tryFinally_inStep : (inStep ρ bound).holds (Sends (Stmt.renumber ρ))
    (tryFinally b b') (tryFinally (b.renumber ρ) (b'.renumber ρ)) := built fun _ => rfl

theorem empty_inStep : (inStep ρ bound).holds (Sends (Stmt.renumber ρ)) empty empty :=
  built fun _ => rfl

end Nodes

end Fresh

namespace Lowering

open Fresh

variable {ρ : Nat → Nat} {bound : Nat}

theorem awaits_renumber (b : Block) : awaits (b.renumber ρ) = awaits b := by
  rw [awaits, awaits, Block.items_renumber, List.any_map]
  congr
  funext i
  cases i with
  | stmt s => rfl
  | expr e => cases e <;> rfl

section Cleanup

variable (isAsync : Bool)

/-- What a cleanup does with the call of an action. -/
theorem runAll_inStep (call : Expr) : (inStep ρ bound).holds (Sends (Stmt.renumber ρ))
    (do
      let actions ← Fresh.ident deferList
      let run ← Fresh.exprStmt call
      let body ← Fresh.block [run]
      let runAll ← Fresh.forOf actionName actions body
      let flag ← Fresh.ident deferredFlag
      let yes ← Fresh.bool true
      let mark ← Fresh.exprStmt (← Fresh.assign flag yes)
      Fresh.blockStmt [mark, runAll])
    (do
      let actions ← Fresh.ident deferList
      let run ← Fresh.exprStmt (call.renumber ρ)
      let body ← Fresh.block [run]
      let runAll ← Fresh.forOf actionName actions body
      let flag ← Fresh.ident deferredFlag
      let yes ← Fresh.bool true
      let mark ← Fresh.exprStmt (← Fresh.assign flag yes)
      Fresh.blockStmt [mark, runAll]) := by
  refine (inStep ρ bound).bindSends (ident_inStep _) fun actions => ?_
  refine (inStep ρ bound).bindSends (exprStmt_inStep call) fun run => ?_
  refine (inStep ρ bound).bindSends (block_inStep [run]) fun body => ?_
  refine (inStep ρ bound).bindSends (forOf_inStep _ actions body) fun runAll => ?_
  refine (inStep ρ bound).bindSends (ident_inStep _) fun flag => ?_
  refine (inStep ρ bound).bindSends (bool_inStep true) fun yes => ?_
  refine (inStep ρ bound).bindSends (assign_inStep flag yes) fun mark => ?_
  refine (inStep ρ bound).bindSends (exprStmt_inStep mark) fun mark => ?_
  exact blockStmt_inStep [mark, runAll]

theorem cleanup_inStep :
    (inStep ρ bound).holds (Sends (Stmt.renumber ρ)) (cleanup isAsync) (cleanup isAsync) := by
  refine (inStep ρ bound).bindSends (ident_inStep _) fun action => ?_
  refine (inStep ρ bound).bindSends (call_inStep action []) fun call => ?_
  cases isAsync
  · exact (inStep ρ bound).bindSends ((inStep ρ bound).pure rfl) runAll_inStep
  · exact (inStep ρ bound).bindSends (await_inStep call) runAll_inStep

mutual

theorem coverAll_inStep : ∀ ss : List Stmt, (inStep ρ bound).holds (Sends (Stmt.renumberAll ρ))
    (coverAll isAsync ss) (coverAll isAsync (Stmt.renumberAll ρ ss))
  | [] => (inStep ρ bound).pure rfl
  | s :: ss => by
    rw [Stmt.renumberAll, coverAll, coverAll, Stmt.isReturn_renumber]
    split
    · refine (inStep ρ bound).bindSends (cleanup_inStep isAsync) fun run => ?_
      exact (inStep ρ bound).bindSends (coverAll_inStep ss) fun _ => (inStep ρ bound).pure rfl
    · refine (inStep ρ bound).bindSends (coverInside_inStep s) fun s' => ?_
      exact (inStep ρ bound).bindSends (coverAll_inStep ss) fun _ => (inStep ρ bound).pure rfl

theorem coverInside_inStep : ∀ s : Stmt, (inStep ρ bound).holds (Sends (Stmt.renumber ρ))
    (coverInside isAsync s) (coverInside isAsync (s.renumber ρ))
  | .ifElse _ _ t none | .block _ t | .whileLoop _ _ t | .forOf _ _ _ _ t =>
    (inStep ρ bound).bindSends (coverBlock_inStep t) fun _ => (inStep ρ bound).pure rfl
  | .ifElse s c t (some e) => by
    rw [Stmt.renumber, coverInside, coverInside, Stmt.isReturn_renumber]
    refine (inStep ρ bound).bindSends (coverBlock_inStep t) fun t' => ?_
    split
    · refine (inStep ρ bound).bindSends empty_inStep fun _ => ?_
      refine (inStep ρ bound).bindSends (cleanup_inStep isAsync) fun run => ?_
      exact (inStep ρ bound).bindSends (blockStmt_inStep [run, e]) fun _ => (inStep ρ bound).pure rfl
    · exact (inStep ρ bound).bindSends (coverInside_inStep e) fun _ => (inStep ρ bound).pure rfl
  | .tryFinally _ b f => (inStep ρ bound).bindSends (coverBlock_inStep b) fun _ =>
    (inStep ρ bound).bindSends (coverBlock_inStep f) fun _ => (inStep ρ bound).pure rfl
  | .importNames _ _ _ | .function _ _ _ | .classDecl _ _ _ | .binding _ _ _ none _
  | .binding _ _ _ (some _) _ | .expr _ _ | .ret _ none | .ret _ (some _) | .defer _ _
  | .throwExpr _ _ | .empty _ => (inStep ρ bound).pure rfl

theorem coverBlock_inStep : ∀ b : Block, (inStep ρ bound).holds (Sends (Block.renumber ρ))
    (coverBlock isAsync b) (coverBlock isAsync (b.renumber ρ))
  | ⟨_, ss⟩ => (inStep ρ bound).bindSends (coverAll_inStep ss) fun _ => (inStep ρ bound).pure rfl

end

theorem registration_inStep (span : Span) (action : Block) :
    (inStep ρ bound).holds (Sends (Stmt.renumber ρ)) (registration isAsync span action)
      (registration isAsync span (action.renumber ρ)) := by
  unfold registration
  rw [awaits_renumber]
  refine (inStep ρ bound).bindSends (arrow_inStep action [] _) fun closure => ?_
  refine (inStep ρ bound).bindSends (ident_inStep _) fun actions => ?_
  refine (inStep ρ bound).bindSends (member_inStep _ actions) fun push => ?_
  refine (inStep ρ bound).bindSends (call_inStep push [closure]) fun call => ?_
  refine (inStep ρ bound).bindSends (exprStmt_inStep call) fun s => (inStep ρ bound).pure ?_
  exact (Stmt.withSpan_renumber ρ span s).symm

theorem register_inStep (ss : List Stmt) : (inStep ρ bound).holds (Sends (List.map (Stmt.renumber ρ)))
    (register isAsync ss) (register isAsync (ss.map (Stmt.renumber ρ))) := by
  induction ss with
  | nil => exact (inStep ρ bound).pure rfl
  | cons s ss ih =>
    cases s with
    | defer s b =>
      refine (inStep ρ bound).bindSends (registration_inStep isAsync s.span b) fun r => ?_
      exact (inStep ρ bound).bindSends ih fun _ => (inStep ρ bound).pure rfl
    | binding _ _ _ init _ =>
      cases init <;> exact (inStep ρ bound).bindSends ih fun _ => (inStep ρ bound).pure rfl
    | ret _ value =>
      cases value <;> exact (inStep ρ bound).bindSends ih fun _ => (inStep ρ bound).pure rfl
    | ifElse _ _ _ alternative =>
      cases alternative <;> exact (inStep ρ bound).bindSends ih fun _ => (inStep ρ bound).pure rfl
    | _ => exact (inStep ρ bound).bindSends ih fun _ => (inStep ρ bound).pure rfl

/-- The statements that a lowered body with a complete end becomes. -/
theorem guarded_inStep (complete : List Stmt) :
    (inStep ρ bound).holds (Sends (List.map (Stmt.renumber ρ)))
    (do
      let flag ← Fresh.ident deferredFlag
      let pending ← Fresh.unary .not flag
      let run ← cleanup isAsync
      let guard ← Fresh.ifElse pending (← Fresh.block [run]) none
      let actions ← Fresh.binding .constant deferList (some (← Fresh.array []))
      let flag ← Fresh.binding .mutable deferredFlag (some (← Fresh.bool false))
      let body ← Fresh.block complete
      let finalizer ← Fresh.block [guard]
      return [actions, flag, ← Fresh.tryFinally body finalizer])
    (do
      let flag ← Fresh.ident deferredFlag
      let pending ← Fresh.unary .not flag
      let run ← cleanup isAsync
      let guard ← Fresh.ifElse pending (← Fresh.block [run]) none
      let actions ← Fresh.binding .constant deferList (some (← Fresh.array []))
      let flag ← Fresh.binding .mutable deferredFlag (some (← Fresh.bool false))
      let body ← Fresh.block (complete.map (Stmt.renumber ρ))
      let finalizer ← Fresh.block [guard]
      return [actions, flag, ← Fresh.tryFinally body finalizer]) := by
  refine (inStep ρ bound).bindSends (ident_inStep _) fun flag => ?_
  refine (inStep ρ bound).bindSends (unary_inStep flag .not) fun pending => ?_
  refine (inStep ρ bound).bindSends (cleanup_inStep isAsync) fun run => ?_
  refine (inStep ρ bound).bindSends (block_inStep [run]) fun runs => ?_
  refine (inStep ρ bound).bindSends (ifElse_inStep pending runs) fun guard => ?_
  refine (inStep ρ bound).bindSends (array_inStep []) fun none => ?_
  refine (inStep ρ bound).bindSends (binding_inStep _ none .constant) fun actions => ?_
  refine (inStep ρ bound).bindSends (bool_inStep false) fun no => ?_
  refine (inStep ρ bound).bindSends (binding_inStep _ no .mutable) fun flag => ?_
  refine (inStep ρ bound).bindSends (block_inStep complete) fun body => ?_
  refine (inStep ρ bound).bindSends (block_inStep [guard]) fun finalizer => ?_
  exact (inStep ρ bound).bindSends (tryFinally_inStep body finalizer) fun _ => (inStep ρ bound).pure rfl

theorem lowered_inStep (ss : List Stmt) : (inStep ρ bound).holds (Sends (List.map (Stmt.renumber ρ)))
    (lowered isAsync ss) (lowered isAsync (ss.map (Stmt.renumber ρ))) := by
  have hcovered : ∀ ss : List Stmt, (inStep ρ bound).holds (Sends (List.map (Stmt.renumber ρ)))
      (coverAll isAsync ss) (coverAll isAsync (ss.map (Stmt.renumber ρ))) := by
    intro ss
    have h := @coverAll_inStep ρ bound isAsync ss
    rwa [Stmt.renumberAll_eq_map, funext (Stmt.renumberAll_eq_map ρ)] at h
  have hexit : ∀ ss : List Stmt, ((ss.map (Stmt.renumber ρ)).getLast?.map Stmt.isExit).getD false =
      (ss.getLast?.map Stmt.isExit).getD false := by
    intro ss
    rw [List.getLast?_map, Option.map_map, show Stmt.isExit ∘ Stmt.renumber ρ = Stmt.isExit from
      funext (Stmt.isExit_renumber ρ)]
  unfold lowered
  refine (inStep ρ bound).bindSends (register_inStep isAsync ss) fun registered => ?_
  refine (inStep ρ bound).bindSends (hcovered registered) fun covered => ?_
  rw [hexit]
  dsimp only
  split
  · exact (inStep ρ bound).bindSends ((inStep ρ bound).pure rfl) (guarded_inStep isAsync)
  · refine (inStep ρ bound).bindSends (cleanup_inStep isAsync) fun run => ?_
    refine (inStep ρ bound).bindSends ((inStep ρ bound).pure ?_) (guarded_inStep isAsync)
    simp [Sends]

theorem functionBody_inStep (body : Block) : (inStep ρ bound).holds
    (Sends fun out => (out.1.renumber ρ, out.2)) (functionBody isAsync body)
    (functionBody isAsync (body.renumber ρ)) := by
  obtain ⟨s, ss⟩ := body
  have hany : (ss.map (Stmt.renumber ρ)).any Stmt.isDefer = ss.any Stmt.isDefer := by
    rw [List.any_map, show Stmt.isDefer ∘ Stmt.renumber ρ = Stmt.isDefer from
      funext (Stmt.isDefer_renumber ρ)]
  have hcount : deferCount (ss.map (Stmt.renumber ρ)) = deferCount ss := by
    rw [deferCount, List.countP_map, show Stmt.isDefer ∘ Stmt.renumber ρ = Stmt.isDefer from
      funext (Stmt.isDefer_renumber ρ)]
    rfl
  unfold functionBody
  rw [Block.renumber, Stmt.renumberAll_eq_map]
  dsimp only
  rw [hany, hcount]
  split
  · refine (inStep ρ bound).bindSends (lowered_inStep isAsync ss) fun _ => (inStep ρ bound).pure ?_
    simp [Sends, Block.renumber]
  · exact (inStep ρ bound).pure (by simp [Sends, Block.renumber])

end Cleanup

def counted (ρ : Nat → Nat) (bound : Nat) : Lockstep Counted := .counting (Aligned ρ bound)

theorem count_inStep : (counted ρ bound).holds (fun _ _ => True) count count :=
  fun _ _ _ h => ⟨⟨trivial, rfl⟩, h⟩

theorem lift_inStep {α β : Type} {V : α → β → Prop} {x : Fresh α} {y : Fresh β}
    (h : (inStep ρ bound).holds V x y) :
    (counted ρ bound).holds V (liftM x : Counted α) (liftM y : Counted β) :=
  fun _ n n' hn => ⟨⟨(h n n' hn).1, rfl⟩, (h n n' hn).2⟩

theorem deferLowering_inStep : deferLowering.InStep (counted ρ bound) ρ where
  expr _ := (counted ρ bound).pure rfl
  body isAsync b := by
    refine (counted ρ bound).bindSends (lift_inStep (functionBody_inStep isAsync b)) fun out => ?_
    obtain ⟨body, actions⟩ := out
    dsimp only
    split
    · exact (counted ρ bound).bind count_inStep fun _ _ _ => (counted ρ bound).pure rfl
    · exact (counted ρ bound).pure rfl

theorem operatorLowering_inStep (table : OperatorTable) :
    (operatorLowering table).InStep (counted ρ bound) ρ where
  expr e := by
    cases e with
    | binary s op lhs rhs =>
      change (counted ρ bound).holds _ (lowerOperator table (.binary s op lhs rhs))
        (lowerOperator table (.binary (s.renumber ρ) op (lhs.renumber ρ) (rhs.renumber ρ)))
      unfold lowerOperator
      dsimp only
      split
      · exact (counted ρ bound).pure rfl
      · refine (counted ρ bound).bindSends (lift_inStep (path_inStep _)) fun _ => ?_
        exact (counted ρ bound).bind count_inStep fun _ _ _ => (counted ρ bound).pure rfl
    | _ => exact (counted ρ bound).pure rfl
  body _ _ := (counted ρ bound).pure rfl

theorem firstDefer?_renumber (file : SourceFile) :
    firstDefer? (file.renumber ρ) = (firstDefer? file).map (Stmt.renumber ρ) := by
  rw [firstDefer?, SourceFile.items_renumber, List.filterMap_map, firstDefer?]
  induction file.items with
  | nil => rfl
  | cons i items ih =>
    cases i with
    | expr e => exact ih
    | stmt s =>
      rw [List.filterMap_cons, List.filterMap_cons]
      simp only [Function.comp, Item.renumber, Item.stmt?, List.find?_cons, Stmt.isDefer_renumber]
      split
      · rfl
      · exact ih

/-- Deferred statements are lowered in lockstep, and they are misplaced in both files or in none. -/
theorem defers_inStep (file : SourceFile) : (inStep ρ bound).holds
    (Sends fun out => (out.1.renumber ρ, out.2)) (defers file) (defers (file.renumber ρ)) := by
  have hwalk := Stmt.rebuildAll_inStep (@deferLowering_inStep ρ bound) file.statements 0
  rw [Stmt.renumberAll_eq_map] at hwalk
  refine (inStep ρ bound).bind hwalk fun out out' hout => (inStep ρ bound).pure ?_
  obtain ⟨statements, n⟩ := out
  obtain ⟨_, _⟩ := out'
  obtain ⟨rfl, rfl⟩ := hout
  have hfile : { file.renumber ρ with statements := Stmt.renumberAll ρ statements } =
      ({ file with statements } : SourceFile).renumber ρ := by simp [SourceFile.renumber]
  dsimp only [Sends]
  rw [hfile, firstDefer?_renumber]
  cases firstDefer? { file with statements } with
  | none => rfl
  | some s => simp [SourceFile.renumber]

theorem operators_inStep (table : OperatorTable) (file : SourceFile) : (inStep ρ bound).holds
    (Sends fun out => (out.1.renumber ρ, out.2)) (operators table file)
    (operators table (file.renumber ρ)) := by
  have hwalk := Stmt.rebuildAll_inStep (@operatorLowering_inStep ρ bound table)
    file.statements 0
  rw [Stmt.renumberAll_eq_map] at hwalk
  refine (inStep ρ bound).bind hwalk fun out out' hout => (inStep ρ bound).pure ?_
  obtain ⟨statements, n⟩ := out
  obtain ⟨_, _⟩ := out'
  obtain ⟨rfl, rfl⟩ := hout
  simp [Sends, SourceFile.renumber]

end Lowering

end MacroEngine
