import MacroEngine.Proofs.Order.Lowered

/-!
# Lowering up to identities

A tree has finitely many identities, so there is a number that they are all below. With the next number
above that bound, what lowering makes of deferred statements corresponds to what it makes of them with
any other next number, and even with other identities in the tree. So up to identities it depends on the
tree up to identities.
-/

namespace MacroEngine

def forget : NodeId → NodeId := fun _ => 0

/-- The renumbered thing is the thing itself if no number below some bound is moved. -/
def Bounded {α : Type} (a : α) (renumbered : (NodeId → NodeId) → α) : Prop :=
  ∃ bound, ∀ ρ : NodeId → NodeId, (∀ i < bound, ρ i = i) → renumbered ρ = a

section Bounded

variable {α β : Type}

theorem Bounded.const (a : α) : Bounded a fun _ => a := ⟨0, fun _ _ => rfl⟩

/-- What is made of two things has the larger bound. -/
theorem Bounded.app {f : α → β} {a : α} {f' : (NodeId → NodeId) → α → β}
    {a' : (NodeId → NodeId) → α} (hf : Bounded f f') (ha : Bounded a a') :
    Bounded (f a) fun ρ => f' ρ (a' ρ) := by
  obtain ⟨m, hm⟩ := hf
  obtain ⟨n, hn⟩ := ha
  refine ⟨max m n, fun ρ hρ => ?_⟩
  dsimp only
  rw [hm ρ fun i hi => hρ i (Nat.lt_of_lt_of_le hi (Nat.le_max_left m n)),
    hn ρ fun i hi => hρ i (Nat.lt_of_lt_of_le hi (Nat.le_max_right m n))]

theorem Bounded.map {a : α} {a' : (NodeId → NodeId) → α} (f : α → β) (ha : Bounded a a') :
    Bounded (f a) fun ρ => f (a' ρ) := (Bounded.const f).app ha

theorem NodeId.bounded (i : NodeId) : Bounded i fun ρ => ρ i :=
  ⟨i + 1, fun _ hρ => hρ i (Nat.lt_succ_self i)⟩

theorem Stamp.bounded (s : Stamp) : Bounded s fun ρ => s.renumber ρ :=
  (NodeId.bounded s.id).map (Stamp.mk · s.span)

mutual

theorem Expr.bounded : ∀ e : Expr, Bounded e fun ρ => e.renumber ρ
  | .ident s n => s.bounded.map (Expr.ident · n)
  | .number s d => s.bounded.map (Expr.number · d)
  | .str s v => s.bounded.map (Expr.str · v)
  | .bool s v => s.bounded.map (Expr.bool · v)
  | .null s => s.bounded.map Expr.null
  | .this s => s.bounded.map Expr.this
  | .template s r => s.bounded.map (Expr.template · r)
  | .tagged s t r => s.bounded.map (Expr.tagged · t r)
  | .array s es => (s.bounded.map Expr.array).app (Expr.boundedAll es)
  | .object s ps => (s.bounded.map Expr.object).app (Expr.boundedProperties ps)
  | .paren s e => (s.bounded.map Expr.paren).app e.bounded
  | .member s o p => (s.bounded.map fun s o => Expr.member s o p).app o.bounded
  | .call s c as => ((s.bounded.map Expr.call).app c.bounded).app (Expr.boundedAll as)
  | .invoke s n as => (s.bounded.map (Expr.invoke · n)).app (Expr.boundedAll as)
  | .unary s o e => (s.bounded.map (Expr.unary · o)).app e.bounded
  | .binary s o l r => ((s.bounded.map (Expr.binary · o)).app l.bounded).app r.bounded
  | .assign s t v => ((s.bounded.map Expr.assign).app t.bounded).app v.bounded
  | .await s e => (s.bounded.map Expr.await).app e.bounded
  | .arrow s p a b => (s.bounded.map (Expr.arrow · p a)).app b.bounded
  | .arrowExpr s p a e => (s.bounded.map (Expr.arrowExpr · p a)).app e.bounded
  | .function s h b => (s.bounded.map (Expr.function · h)).app b.bounded

theorem Expr.boundedAll : ∀ es : List Expr, Bounded es fun ρ => Expr.renumberAll ρ es
  | [] => .const []
  | e :: es => (e.bounded.map List.cons).app (Expr.boundedAll es)

theorem Expr.boundedProperties : ∀ ps : List (String × Expr),
    Bounded ps fun ρ => Expr.renumberProperties ρ ps
  | [] => .const []
  | (name, e) :: ps =>
    (e.bounded.map fun e ps => (name, e) :: ps).app (Expr.boundedProperties ps)

theorem Stmt.bounded : ∀ s : Stmt, Bounded s fun ρ => s.renumber ρ
  | .importNames s ns m => s.bounded.map (Stmt.importNames · ns m)
  | .function s h b => (s.bounded.map (Stmt.function · h)).app b.bounded
  | .classDecl s h ms => (s.bounded.map (Stmt.classDecl · h)).app (Member.boundedAll ms)
  | .binding s k n none v => s.bounded.map (Stmt.binding · k n none v)
  | .binding s k n (some e) v =>
    (s.bounded.map fun s e => Stmt.binding s k n (some e) v).app e.bounded
  | .expr s e => (s.bounded.map Stmt.expr).app e.bounded
  | .ret s none => s.bounded.map (Stmt.ret · none)
  | .ret s (some e) => (s.bounded.map fun s e => Stmt.ret s (some e)).app e.bounded
  | .ifElse s c t none =>
    ((s.bounded.map fun s c t => Stmt.ifElse s c t none).app c.bounded).app t.bounded
  | .ifElse s c t (some e) => (((s.bounded.map fun s c t e => Stmt.ifElse s c t (some e)).app
    c.bounded).app t.bounded).app e.bounded
  | .whileLoop s c b => ((s.bounded.map Stmt.whileLoop).app c.bounded).app b.bounded
  | .forOf s k n i b => ((s.bounded.map (Stmt.forOf · k n)).app i.bounded).app b.bounded
  | .block s b => (s.bounded.map Stmt.block).app b.bounded
  | .defer s b => (s.bounded.map Stmt.defer).app b.bounded
  | .tryFinally s b f => ((s.bounded.map Stmt.tryFinally).app b.bounded).app f.bounded
  | .throwExpr s e => (s.bounded.map Stmt.throwExpr).app e.bounded
  | .empty s => s.bounded.map Stmt.empty

theorem Stmt.boundedAll : ∀ ss : List Stmt, Bounded ss fun ρ => Stmt.renumberAll ρ ss
  | [] => .const []
  | s :: ss => (s.bounded.map List.cons).app (Stmt.boundedAll ss)

theorem Member.bounded : ∀ m : Member, Bounded m fun ρ => m.renumber ρ
  | .field s n none => s.bounded.map (Member.field · n none)
  | .field s n (some e) => (s.bounded.map fun s e => Member.field s n (some e)).app e.bounded
  | .method s h b => (s.bounded.map (Member.method · h)).app b.bounded

theorem Member.boundedAll : ∀ ms : List Member, Bounded ms fun ρ => Member.renumberAll ρ ms
  | [] => .const []
  | m :: ms => (m.bounded.map List.cons).app (Member.boundedAll ms)

theorem Block.bounded : ∀ b : Block, Bounded b fun ρ => b.renumber ρ
  | ⟨s, ss⟩ => (s.bounded.map Block.mk).app (Stmt.boundedAll ss)

end

/-- The identities of a file are below some bound. -/
theorem SourceFile.bounded (file : SourceFile) : Bounded file fun ρ => file.renumber ρ := by
  have hfile := ((NodeId.bounded file.id).map fun i ss =>
    ({ file with id := i, statements := ss } : SourceFile)).app (Stmt.boundedAll file.statements)
  simp only [Stmt.renumberAll_eq_map] at hfile
  exact hfile

end Bounded

namespace Lowering

open Fresh

/-- The numbers below a bound as `low` sends them, and the others to `next` and those after it. -/
def above (bound next : Nat) (low : NodeId → NodeId) (i : NodeId) : NodeId :=
  if i < bound then low i else next + (i - bound)

theorem above_aligned (bound next : Nat) (low : NodeId → NodeId) :
    Aligned (above bound next low) bound bound next where
  le := Nat.le_refl bound
  carries i := by
    rw [above, if_neg (Nat.not_lt.mpr (Nat.le_add_right bound i)), Nat.add_sub_cancel_left]

/-- With another next number, and in a tree without identities, deferred statements are lowered to the
same tree up to identities; as many bodies are counted, and the same statement is misplaced. -/
theorem defers_forget (file : SourceFile) (next : NodeId) :
    ((defers file).run next).1.1.renumber forget =
      ((defers (file.renumber forget)).run 0).1.1.renumber forget ∧
    ((defers file).run next).1.2 = ((defers (file.renumber forget)).run 0).1.2 := by
  obtain ⟨bound, hbound⟩ := file.bounded
  have hhere : file.renumber (above bound next id) = file :=
    hbound _ fun i hi => if_pos hi
  -- Numbers from the bound on are not in the file, so it does not matter where they are sent.
  have hclamp : file.renumber (fun i => if i < bound then i else 0) = file :=
    hbound _ fun i hi => if_pos hi
  have hthere : file.renumber (above bound 0 forget) = file.renumber forget := by
    calc file.renumber (above bound 0 forget)
        = (file.renumber fun i => if i < bound then i else 0).renumber (above bound 0 forget) := by
          rw [hclamp]
      _ = file.renumber forget := by
        rw [SourceFile.renumber_renumber]
        congr
        funext i
        by_cases hi : i < bound
        · simp [above, forget, hi]
        · simp [above, forget, hi]
  obtain ⟨hout, -⟩ := defers_inStep file bound next (above_aligned bound next id)
  obtain ⟨hout', -⟩ := defers_inStep file bound 0 (above_aligned bound 0 forget)
  rw [hhere] at hout
  rw [hthere] at hout'
  constructor
  · rw [hout, hout', SourceFile.renumber_renumber, SourceFile.renumber_renumber]
    rfl
  · rw [hout, hout']

/-- Trees that are the same up to identities are lowered to trees that are. -/
theorem defers_congr {file file' : SourceFile} (h : file.renumber forget = file'.renumber forget)
    (next next' : NodeId) :
    ((defers file).run next).1.1.renumber forget = ((defers file').run next').1.1.renumber forget ∧
    ((defers file).run next).1.2 = ((defers file').run next').1.2 := by
  obtain ⟨htree, hcount⟩ := defers_forget file next
  obtain ⟨htree', hcount'⟩ := defers_forget file' next'
  rw [htree, hcount, htree', hcount', h]
  exact ⟨rfl, rfl⟩

end Lowering

end MacroEngine
