import MacroEngine.Lowering.Operators
import MacroEngine.Proofs.Order.Purview

/-!
# Computations in lockstep

Two computations do the same up to a renumbering if related states lead to related answers and
related states. A `Lockstep` is such a relation between the computations of a monad: it holds of
answers that are related, and it goes through `bind`. So it goes through everything that is made
from these, such as the walks through trees.
-/

namespace MacroEngine

/-- When two computations of a monad do the same, given which answers count as the same. -/
structure Lockstep (m : Type → Type) [Monad m] where
  holds {α β : Type} (V : α → β → Prop) (x : m α) (y : m β) : Prop
  pure {α β : Type} {V : α → β → Prop} {a : α} {b : β} (h : V a b) :
    holds V (Pure.pure a) (Pure.pure b)
  bind {α β γ δ : Type} {V : α → β → Prop} {W : γ → δ → Prop} {x : m α} {y : m β} {f : α → m γ}
    {g : β → m δ} (h : holds V x y) (h' : ∀ a b, V a b → holds W (f a) (g b)) :
    holds W (x >>= f) (y >>= g)

def Sends {α β : Type} (f : α → β) (a : α) (b : β) : Prop := b = f a

def SendsOn {α β : Type} (p : α → Prop) (f : α → β) (a : α) (b : β) : Prop := p a ∧ b = f a

inductive ExceptRel {ε α β : Type} (V : α → β → Prop) : Except ε α → Except ε β → Prop
  | error (e : ε) : ExceptRel V (.error e) (.error e)
  | ok {a : α} {b : β} (h : V a b) : ExceptRel V (.ok a) (.ok b)

namespace Lockstep

section Monad

variable {m : Type → Type} [Monad m] (l : Lockstep m) {α β γ δ : Type}

/-- One computation continued like another one, on answers that a function makes. -/
theorem bindSends {k : α → β} {W : γ → δ → Prop} {x : m α} {y : m β} {f : α → m γ} {g : β → m δ}
    (h : l.holds (Sends k) x y) (h' : ∀ a, l.holds W (f a) (g (k a))) :
    l.holds W (x >>= f) (y >>= g) := by
  refine l.bind h fun a b hab => ?_
  obtain rfl : b = k a := hab
  exact h' a

/-- One computation continued like another one that answers the same. -/
theorem bindEq {W : γ → δ → Prop} {x y : m α} {f : α → m γ} {g : α → m δ} (h : l.holds Eq x y)
    (h' : ∀ a, l.holds W (f a) (g a)) : l.holds W (x >>= f) (y >>= g) := by
  refine l.bind h fun a b hab => ?_
  subst hab
  exact h' a

theorem bindOn {p : α → Prop} {k : α → β} {W : γ → δ → Prop} {x : m α} {y : m β} {f : α → m γ}
    {g : β → m δ} (h : l.holds (SendsOn p k) x y) (h' : ∀ a, p a → l.holds W (f a) (g (k a))) :
    l.holds W (x >>= f) (y >>= g) := by
  refine l.bind h fun a b hab => ?_
  obtain ⟨ha, rfl⟩ := hab
  exact h' a ha

theorem mapM [LawfulMonad m] {k : α → β} {k' : γ → δ} {f : α → m γ} {g : β → m δ} (as : List α)
    (h : ∀ a ∈ as, l.holds (Sends k') (f a) (g (k a))) :
    l.holds (Sends (List.map k')) (as.mapM f) ((as.map k).mapM g) := by
  induction as with
  | nil => exact l.pure rfl
  | cons a as ih =>
    rw [List.map_cons, List.mapM_cons, List.mapM_cons]
    refine l.bindSends (h a List.mem_cons_self) fun c => ?_
    exact l.bindSends (ih fun a' ha' => h a' (List.mem_cons_of_mem _ ha')) fun cs => l.pure rfl

end Monad

def state {σ : Type} (S : σ → σ → Prop) : Lockstep (StateM σ) where
  holds V x y := ∀ s t, S s t → V (x.run s).1 (y.run t).1 ∧ S (x.run s).2 (y.run t).2
  pure h _ _ hst := ⟨h, hst⟩
  bind h h' s t hst := h' _ _ (h s t hst).1 _ _ (h s t hst).2

def counting {σ : Type} (S : σ → σ → Prop) : Lockstep (StateT Nat (StateM σ)) where
  holds V x y := ∀ n, (state S).holds (fun a b => V a.1 b.1 ∧ a.2 = b.2) (x.run n) (y.run n)
  pure h n _ _ hst := ⟨⟨h, rfl⟩, hst⟩
  bind h h' n := by
    rw [StateT.run_bind, StateT.run_bind]
    refine (state S).bind (h n) fun a b hab => ?_
    rw [hab.2]
    exact h' _ _ hab.1 _

section State

variable {σ α β : Type} {S : σ → σ → Prop} {V : α → β → Prop}

/-- Answers that a function makes, where those of the first computation have a property. -/
theorem sendsOn {p : α → Prop} {k : α → β} {x : StateM σ α} {y : StateM σ β}
    (h : (state S).holds (Sends k) x y) (hp : ∀ s, p (x.run s).1) :
    (state S).holds (SendsOn p k) x y :=
  fun s t hst => ⟨⟨hp s, (h s t hst).1⟩, (h s t hst).2⟩

theorem get : (state S).holds S get get := fun _ _ hst => ⟨hst, hst⟩

theorem modify {f g : σ → σ} (h : ∀ s t, S s t → S (f s) (g t)) :
    (state S).holds (fun _ _ => True) (modify f) (modify g) := fun s t hst => ⟨trivial, h s t hst⟩

end State

end Lockstep

section Children

variable {m : Type → Type} [Monad m] [LawfulMonad m] {l : Lockstep m} {ρ : NodeId → NodeId}
variable {names : String → Prop} {f g : ChildMap m}

/-- Children that list some names only are treated the same. -/
structure ChildMap.InStep (l : Lockstep m) (ρ : NodeId → NodeId) (names : String → Prop)
    (f g : ChildMap m) : Prop where
  expr : ∀ e : Expr, e.Within names →
    l.holds (Sends (Expr.renumber ρ)) (f.onExpr e) (g.onExpr (e.renumber ρ))
  stmt : ∀ s : Stmt, s.Within names →
    l.holds (Sends (Stmt.renumber ρ)) (f.onStmt s) (g.onStmt (s.renumber ρ))
  stmts : ∀ ss : List Stmt, Stmt.WithinAll names ss →
    l.holds (Sends (List.map (Stmt.renumber ρ))) (f.onStmts ss)
      (g.onStmts (ss.map (Stmt.renumber ρ)))

namespace ChildMap.InStep

variable (h : ChildMap.InStep l ρ names f g)

include h

omit [LawfulMonad m] in
theorem block {b : Block} (hb : b.Within names) :
    l.holds (Sends (Block.renumber ρ)) (b.mapChildren f) ((b.renumber ρ).mapChildren g) := by
  obtain ⟨s, ss⟩ := b
  have hss := h.stmts ss hb
  unfold Block.mapChildren
  rw [Block.renumber, Stmt.renumberAll_eq_map]
  exact l.bindSends hss fun ss' => l.pure (by simp [Sends, Block.renumber])

theorem exprs {es : List Expr} (hes : Expr.WithinAll names es) :
    l.holds (Sends (List.map (Expr.renumber ρ))) (es.mapM f.onExpr)
      ((es.map (Expr.renumber ρ)).mapM g.onExpr) :=
  l.mapM es fun e he => h.expr e (Expr.withinAll_iff.mp hes e he)

theorem mapChildren_expr {e : Expr} (he : e.Within names) :
    l.holds (Sends (Expr.renumber ρ)) (e.mapChildren f) ((e.renumber ρ).mapChildren g) := by
  cases e with
  | array s es =>
    rw [Expr.renumber, Expr.renumberAll_eq_map]
    exact l.bindSends (h.exprs he) fun es' => l.pure (by simp [Sends, Expr.renumber])
  | object s ps =>
    rw [Expr.renumber, Expr.renumberProperties_eq_map]
    have hps : l.holds (Sends (List.map fun p : String × Expr => (p.1, p.2.renumber ρ)))
        (ps.mapM fun p => return (p.1, ← f.onExpr p.2))
        ((ps.map fun p => (p.1, p.2.renumber ρ)).mapM fun p => return (p.1, ← g.onExpr p.2)) :=
      l.mapM ps fun p hp => l.bindSends (h.expr p.2 (Expr.withinProperties_iff.mp he p hp))
        fun e => l.pure rfl
    exact l.bindSends hps fun ps' => l.pure (by simp [Sends, Expr.renumber])
  | paren _ e | member _ e _ | unary _ _ e | await _ e | arrowExpr _ _ _ e =>
    exact l.bindSends (h.expr e he) fun e' => l.pure rfl
  | call s c as =>
    rw [Expr.renumber, Expr.renumberAll_eq_map]
    refine l.bindSends (h.expr c he.1) fun c' => l.bindSends (h.exprs he.2) fun as' => l.pure ?_
    simp [Sends, Expr.renumber]
  | invoke s n as =>
    rw [Expr.renumber, Expr.renumberAll_eq_map]
    exact l.bindSends (h.exprs he) fun as' => l.pure (by simp [Sends, Expr.renumber])
  | binary _ _ a b | assign _ a b =>
    exact l.bindSends (h.expr a he.1) fun a' => l.bindSends (h.expr b he.2) fun b' => l.pure rfl
  | arrow _ _ _ b | function _ _ b => exact l.bindSends (h.block he) fun b' => l.pure rfl
  | _ => exact l.pure rfl

omit [LawfulMonad m] in
theorem mapChildren_member {member : Member} (hm : member.Within names) :
    l.holds (Sends (Member.renumber ρ)) (member.mapChildren f)
      ((member.renumber ρ).mapChildren g) := by
  cases member with
  | field s n init =>
    cases init with
    | none => exact l.pure rfl
    | some e => exact l.bindSends (h.expr e hm) fun e' => l.pure rfl
  | method _ _ b => exact l.bindSends (h.block hm) fun b' => l.pure rfl

theorem mapChildren_stmt {s : Stmt} (hs : s.Within names) :
    l.holds (Sends (Stmt.renumber ρ)) (s.mapChildren f) ((s.renumber ρ).mapChildren g) := by
  cases s with
  | function _ _ b | block _ b | defer _ b => exact l.bindSends (h.block hs) fun b' => l.pure rfl
  | classDecl s head ms =>
    rw [Stmt.renumber, Member.renumberAll_eq_map]
    have hms := l.mapM ms fun member hmember =>
      h.mapChildren_member (Member.withinAll_iff.mp hs.2 member hmember)
    exact l.bindSends hms fun ms' => l.pure (by simp [Sends, Stmt.renumber])
  | binding _ _ _ init _ =>
    cases init with
    | none => exact l.pure rfl
    | some e => exact l.bindSends (h.expr e hs) fun e' => l.pure rfl
  | expr _ e | throwExpr _ e => exact l.bindSends (h.expr e hs) fun e' => l.pure rfl
  | ret _ value =>
    cases value with
    | none => exact l.pure rfl
    | some e => exact l.bindSends (h.expr e hs) fun e' => l.pure rfl
  | ifElse _ c t alternative =>
    cases alternative with
    | none =>
      exact l.bindSends (h.expr c hs.1) fun c' => l.bindSends (h.block hs.2) fun t' => l.pure rfl
    | some e =>
      obtain ⟨hc, ht, he⟩ := hs
      refine l.bindSends (h.expr c hc) fun c' => l.bindSends (h.block ht) fun t' => ?_
      exact l.bindSends (h.stmt e he) fun e' => l.pure rfl
  | whileLoop _ e b | forOf _ _ _ e b =>
    exact l.bindSends (h.expr e hs.1) fun e' => l.bindSends (h.block hs.2) fun b' => l.pure rfl
  | tryFinally _ b f =>
    exact l.bindSends (h.block hs.1) fun b' => l.bindSends (h.block hs.2) fun f' => l.pure rfl
  | _ => exact l.pure rfl

end ChildMap.InStep

end Children

section Rebuild

variable {m : Type → Type} [Monad m] {l : Lockstep m} {ρ : NodeId → NodeId} {r : Rebuilding m}

/-- What a rebuilding does at a node is the same with other numbers. -/
structure Rebuilding.InStep (l : Lockstep m) (ρ : NodeId → NodeId) (r : Rebuilding m) : Prop where
  expr : ∀ e : Expr, l.holds (Sends (Expr.renumber ρ)) (r.onExpr e) (r.onExpr (e.renumber ρ))
  body : ∀ (isAsync : Bool) (b : Block),
    l.holds (Sends (Block.renumber ρ)) (r.onBody isAsync b) (r.onBody isAsync (b.renumber ρ))

mutual

theorem Expr.rebuild_inStep (h : r.InStep l ρ) : ∀ e : Expr,
    l.holds (Sends (Expr.renumber ρ)) (e.rebuild r) ((e.renumber ρ).rebuild r)
  | .ident s n => h.expr (.ident s n)
  | .number s d => h.expr (.number s d)
  | .str s v => h.expr (.str s v)
  | .bool s v => h.expr (.bool s v)
  | .null s => h.expr (.null s)
  | .this s => h.expr (.this s)
  | .template s t => h.expr (.template s t)
  | .tagged s t w => h.expr (.tagged s t w)
  | .array s es => l.bindSends (Expr.rebuildAll_inStep h es) fun es' => h.expr (.array s es')
  | .object s ps =>
    l.bindSends (Expr.rebuildProperties_inStep h ps) fun ps' => h.expr (.object s ps')
  | .paren s e => l.bindSends (e.rebuild_inStep h) fun e' => h.expr (.paren s e')
  | .member s o p => l.bindSends (o.rebuild_inStep h) fun o' => h.expr (.member s o' p)
  | .call s c as => l.bindSends (c.rebuild_inStep h) fun c' =>
    l.bindSends (Expr.rebuildAll_inStep h as) fun as' => h.expr (.call s c' as')
  | .invoke s n as => l.bindSends (Expr.rebuildAll_inStep h as) fun as' => h.expr (.invoke s n as')
  | .unary s o e => l.bindSends (e.rebuild_inStep h) fun e' => h.expr (.unary s o e')
  | .binary s o a b => l.bindSends (a.rebuild_inStep h) fun a' =>
    l.bindSends (b.rebuild_inStep h) fun b' => h.expr (.binary s o a' b')
  | .assign s t v => l.bindSends (t.rebuild_inStep h) fun t' =>
    l.bindSends (v.rebuild_inStep h) fun v' => h.expr (.assign s t' v')
  | .await s e => l.bindSends (e.rebuild_inStep h) fun e' => h.expr (.await s e')
  | .arrow s p a b => l.bindSends (b.rebuild_inStep h) fun b' =>
    l.bindSends (h.body a b') fun b'' => h.expr (.arrow s p a b'')
  | .arrowExpr s p a e => l.bindSends (e.rebuild_inStep h) fun e' => h.expr (.arrowExpr s p a e')
  | .function s head b => l.bindSends (b.rebuild_inStep h) fun b' =>
    l.bindSends (h.body head.isAsync b') fun b'' => h.expr (.function s head b'')

theorem Expr.rebuildAll_inStep (h : r.InStep l ρ) : ∀ es : List Expr,
    l.holds (Sends (Expr.renumberAll ρ)) (Expr.rebuildAll r es)
      (Expr.rebuildAll r (Expr.renumberAll ρ es))
  | [] => l.pure rfl
  | e :: es => l.bindSends (e.rebuild_inStep h) fun _ =>
    l.bindSends (Expr.rebuildAll_inStep h es) fun _ => l.pure rfl

theorem Expr.rebuildProperties_inStep (h : r.InStep l ρ) : ∀ ps : List (String × Expr),
    l.holds (Sends (Expr.renumberProperties ρ)) (Expr.rebuildProperties r ps)
      (Expr.rebuildProperties r (Expr.renumberProperties ρ ps))
  | [] => l.pure rfl
  | (_, e) :: ps => l.bindSends (e.rebuild_inStep h) fun _ =>
    l.bindSends (Expr.rebuildProperties_inStep h ps) fun _ => l.pure rfl

theorem Stmt.rebuild_inStep (h : r.InStep l ρ) : ∀ s : Stmt,
    l.holds (Sends (Stmt.renumber ρ)) (s.rebuild r) ((s.renumber ρ).rebuild r)
  | .importNames _ _ _ | .binding _ _ _ none _ | .ret _ none | .empty _ => l.pure rfl
  | .function _ head b => l.bindSends (b.rebuild_inStep h) fun b' =>
    l.bindSends (h.body head.isAsync b') fun _ => l.pure rfl
  | .classDecl _ _ ms => l.bindSends (Member.rebuildAll_inStep h ms) fun _ => l.pure rfl
  | .binding _ _ _ (some e) _ | .expr _ e | .ret _ (some e) | .throwExpr _ e =>
    l.bindSends (e.rebuild_inStep h) fun _ => l.pure rfl
  | .ifElse _ c t none => l.bindSends (c.rebuild_inStep h) fun _ =>
    l.bindSends (t.rebuild_inStep h) fun _ => l.pure rfl
  | .ifElse _ c t (some e) => l.bindSends (c.rebuild_inStep h) fun _ =>
    l.bindSends (t.rebuild_inStep h) fun _ => l.bindSends (e.rebuild_inStep h) fun _ => l.pure rfl
  | .whileLoop _ e b | .forOf _ _ _ e b => l.bindSends (e.rebuild_inStep h) fun _ =>
    l.bindSends (b.rebuild_inStep h) fun _ => l.pure rfl
  | .block _ b | .defer _ b => l.bindSends (b.rebuild_inStep h) fun _ => l.pure rfl
  | .tryFinally _ b f => l.bindSends (b.rebuild_inStep h) fun _ =>
    l.bindSends (f.rebuild_inStep h) fun _ => l.pure rfl

theorem Stmt.rebuildAll_inStep (h : r.InStep l ρ) : ∀ ss : List Stmt,
    l.holds (Sends (Stmt.renumberAll ρ)) (Stmt.rebuildAll r ss)
      (Stmt.rebuildAll r (Stmt.renumberAll ρ ss))
  | [] => l.pure rfl
  | s :: ss => l.bindSends (s.rebuild_inStep h) fun _ =>
    l.bindSends (Stmt.rebuildAll_inStep h ss) fun _ => l.pure rfl

theorem Member.rebuildAll_inStep (h : r.InStep l ρ) : ∀ ms : List Member,
    l.holds (Sends (Member.renumberAll ρ)) (Member.rebuildAll r ms)
      (Member.rebuildAll r (Member.renumberAll ρ ms))
  | [] => l.pure rfl
  | .field _ _ none :: ms => l.bindSends (Member.rebuildAll_inStep h ms) fun _ => l.pure rfl
  | .field _ _ (some e) :: ms => l.bindSends (e.rebuild_inStep h) fun _ =>
    l.bindSends (Member.rebuildAll_inStep h ms) fun _ => l.pure rfl
  | .method _ head b :: ms => l.bindSends (b.rebuild_inStep h) fun b' =>
    l.bindSends (h.body head.isAsync b') fun _ =>
      l.bindSends (Member.rebuildAll_inStep h ms) fun _ => l.pure rfl

theorem Block.rebuild_inStep (h : r.InStep l ρ) : ∀ b : Block,
    l.holds (Sends (Block.renumber ρ)) (b.rebuild r) ((b.renumber ρ).rebuild r)
  | ⟨_, ss⟩ => l.bindSends (Stmt.rebuildAll_inStep h ss) fun _ => l.pure rfl

end

end Rebuild

end MacroEngine
