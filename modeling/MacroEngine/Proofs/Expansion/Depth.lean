import MacroEngine.Proofs.Expansion.Visits
import MacroEngine.Proofs.Loading.Idle
import Mathlib.Order.Lattice

/-!
# Walks as their bound grows

The depth of a walk is bounded, so a walk is really a sequence, one for each bound. It ends if from
some bound on nothing changes any more, and what it comes to has not met the bound. This module says
how the ends of parts make the end of a whole: a sequence of parts ends if each of them ends at the
state that the parts before it lead to, and a visit of children is such a sequence.
-/

namespace MacroEngine

namespace Expansion

def Exhausted (st : Expansion) : Prop := ∃ path, st.halted = some (.endlessExpansion path)

variable (g : ExpansionSetting)

def LoadsOn (st st' : Expansion) : Prop :=
  ∀ table, Loader.Reached table st.hooks.loader → Loader.Reached table st'.hooks.loader

/-- What every part of a walk keeps: the sites that are being expanded are those from before, a
class that ran has run, no class runs if no derive name means anything, and the loader is only
called. -/
structure Onward (st st' : Expansion) : Prop where
  expanding : st'.expanding = st.expanding
  classes : st.classCount ≤ st'.classCount
  underived : (∀ head, g.registry.deriveDeclarations head = []) → st'.classCount = st.classCount
  loader : LoadsOn st st'

variable {g}

theorem Onward.refl (st : Expansion) : Onward g st st := ⟨rfl, le_rfl, fun _ => rfl, fun _ h => h⟩

theorem Onward.trans {st st₁ st₂ : Expansion} (h : Onward g st st₁) (h' : Onward g st₁ st₂) :
    Onward g st st₂ :=
  ⟨h'.expanding.trans h.expanding, h.classes.trans h'.classes,
    fun hno => (h'.underived hno).trans (h.underived hno),
    fun table hl => h'.loader table (h.loader table hl)⟩

/-- Classes have run in one change as they have in another. -/
theorem Onward.congr {st st' st₁ st₁' : Expansion} (h : Onward g st st')
    (hexpanding : st₁'.expanding = st₁.expanding) (hbefore : st₁.classCount = st.classCount)
    (hafter : st₁'.classCount = st'.classCount) (hloader : LoadsOn st₁ st₁') : Onward g st₁ st₁' :=
  ⟨hexpanding, by rw [hbefore, hafter]; exact h.classes,
    fun hno => by rw [hbefore, hafter]; exact h.underived hno, hloader⟩

theorem Onward.of_aside {st st' : Expansion} (h : Aside st st') (hloader : LoadsOn st st') :
    Onward g st st' := by
  have hcount : st'.classCount = st.classCount := by rw [classCount, classCount, h.2.2.1]
  exact ⟨h.2.1, hcount.ge, fun _ => hcount, hloader⟩

theorem hooksFor_loadsOn (d : Declaration) (st : Expansion) :
    LoadsOn st ((Walk.hooksFor d).run st).2 :=
  fun _ h => HookCache.reached_hooksFor h st.shop

theorem hooksForAll_loadsOn (ds : List Declaration) (st : Expansion) :
    LoadsOn st ((hooksForAll ds).run st).2 := by
  induction ds generalizing st with
  | nil => exact fun _ h => h
  | cons d ds ih =>
    have hhooks := hooksFor_loadsOn d st
    rw [hooksForAll, run_bind]
    generalize (Walk.hooksFor d).run st = out at hhooks
    obtain ⟨_ | hooks, st'⟩ := out
    · exact hhooks
    · have hmore := ih st'
      simp only [run_bind]
      generalize (hooksForAll ds).run st' = out' at hmore
      obtain ⟨_ | more, st''⟩ := out' <;> exact fun table h => hmore table (hhooks table h)

theorem reportUnresolved_loadsOn (policy : MissPolicy) (className : String) (names : List String)
    (st : Expansion) : LoadsOn st ((reportUnresolved policy className names).run st).2 := by
  induction names generalizing st with
  | nil => exact fun _ h => h
  | cons name names ih =>
    unfold reportUnresolved
    split
    · exact fun _ h => h
    · exact fun table h => ih { st with warnings := st.warnings ++ _ } table h

section Sequences

variable {α β : Type}

/-- A sequence of results, one for each bound, comes to an end. -/
def Settles (r : ℕ → α × Expansion) : Prop :=
  ∃ N, (∀ n ≥ N, r n = r N) ∧ ¬ Exhausted (r N).2

/-- From some bound on at most `k` classes have run. -/
def RunsAtMost (k : ℕ) (r : ℕ → α × Expansion) : Prop := ∃ N, ∀ n ≥ N, (r n).2.classCount ≤ k

def Ends (k : ℕ) (r : ℕ → α × Expansion) : Prop := RunsAtMost k r → Settles r

variable {k : ℕ}

theorem Ends.const {r : α × Expansion} (h : ¬ Exhausted r.2) : Ends k fun _ => r :=
  fun _ => ⟨0, fun _ _ => rfl, h⟩

/-- What happens at one bound does not matter. -/
theorem Ends.of_succ {r : ℕ → α × Expansion} (h : Ends k fun n => r (n + 1)) : Ends k r := by
  rintro ⟨N, hN⟩
  obtain ⟨M, hM, hex⟩ := h ⟨N, fun n hn => hN (n + 1) (by omega)⟩
  refine ⟨M + 1, fun n hn => ?_, hex⟩
  obtain _ | n := n
  · omega
  · exact hM n (by omega)

theorem Ends.map {r : ℕ → α × Expansion} (f : α × Expansion → β × Expansion)
    (hclasses : ∀ a, (f a).2.classCount = a.2.classCount)
    (hhalted : ∀ a, (f a).2.halted = a.2.halted) (h : Ends k r) : Ends k fun n => f (r n) := by
  rintro ⟨N, hN⟩
  obtain ⟨M, hM, hex⟩ := h ⟨N, fun n hn => hclasses (r n) ▸ hN n hn⟩
  refine ⟨M, fun n hn => congrArg f (hM n hn), ?_⟩
  rwa [Exhausted, hhalted]

theorem Ends.bind {q : ℕ → α × Expansion} {r : ℕ → α × Expansion → β × Expansion}
    (hmono : ∀ n a, a.2.classCount ≤ (r n a).2.classCount) (hq : Ends k q)
    (hr : ∀ N, ¬ Exhausted (q N).2 → Ends k fun n => r n (q N)) :
    Ends k fun n => r n (q n) := by
  rintro ⟨N, hN⟩
  obtain ⟨M, hM, hex⟩ := hq ⟨N, fun n hn => (hmono n _).trans (hN n hn)⟩
  obtain ⟨K, hK, hex'⟩ := hr M hex ⟨max N M, fun n hn => by
    have hsame := hM n ((le_max_right N M).trans hn)
    rw [← hsame]
    exact hN n ((le_max_left N M).trans hn)⟩
  refine ⟨max M K, fun n hn => ?_, ?_⟩
  · have hn' := hM n ((le_max_left M K).trans hn)
    have hmax := hM (max M K) (le_max_left M K)
    simp only [hn', hmax, hK n ((le_max_right M K).trans hn), hK (max M K) (le_max_right M K)]
  · simp only [hM (max M K) (le_max_left M K), hK (max M K) (le_max_right M K)]
    exact hex'

end Sequences

section Children

variable {ι : Type}

/-- A property of families of parts of walks that their composition keeps. -/
structure Composes (P : (α : Type) → (ι → Walk α) → Prop) : Prop where
  pure : ∀ {α : Type} (a : α), P α fun _ => pure a
  bind : ∀ {α β : Type} {x : ι → Walk α} {f : ι → α → Walk β}, P α x →
    (∀ a, P β fun n => f n a) → P β fun n => x n >>= f n

structure Visits (P : (α : Type) → (ι → Walk α) → Prop) (f : ι → ChildMap Walk) (size : ℕ) :
    Prop where
  onExpr : ∀ e, sizeOf e < size → P Expr fun n => (f n).onExpr e
  onStmt : ∀ s, sizeOf s < size → P Stmt fun n => (f n).onStmt s
  onStmts : ∀ ss, sizeOf ss < size → P (List Stmt) fun n => (f n).onStmts ss

variable {P : (α : Type) → (ι → Walk α) → Prop} {f : ι → ChildMap Walk} {α β γ : Type}

namespace Composes

variable (hP : Composes P)

include hP

theorem map {x : ι → Walk α} (k : α → β) (hx : P α x) :
    P β fun n => x n >>= fun a => Pure.pure (k a) :=
  hP.bind hx fun a => hP.pure (k a)

theorem map₂ {x : ι → Walk α} {y : ι → Walk β} (k : α → β → γ) (hx : P α x) (hy : P β y) :
    P γ fun n => x n >>= fun a => y n >>= fun b => Pure.pure (k a b) :=
  hP.bind hx fun a => hP.map (k a) hy

theorem mapM {g : ι → γ → Walk α} {cs : List γ} (h : ∀ c ∈ cs, P α fun n => g n c) :
    P (List α) fun n => cs.mapM (g n) := by
  induction cs with
  | nil => exact hP.pure []
  | cons c cs ih =>
    simp only [List.mapM_cons]
    exact hP.map₂ List.cons (h c List.mem_cons_self)
      (ih fun c' hc' => h c' (List.mem_cons_of_mem _ hc'))

theorem block {b : Block} {size : ℕ} (hb : sizeOf b < size) (h : Visits P f size) :
    P Block fun n => b.mapChildren (f n) := by
  obtain ⟨s, ss⟩ := b
  exact hP.map (Block.mk s) (h.onStmts ss (by simp at hb; omega))

theorem exprs {es : List Expr} {size : ℕ} (hes : sizeOf es < size) (h : Visits P f size) :
    P (List Expr) fun n => es.mapM (f n).onExpr :=
  hP.mapM fun e he => h.onExpr e ((List.sizeOf_lt_of_mem he).trans hes)

theorem expr {e : Expr} (h : Visits P f (sizeOf e)) : P Expr fun n => e.mapChildren (f n) := by
  cases e with
  | ident | number | str | bool | null | this | template | tagged => exact hP.pure _
  | array s es => exact hP.map (Expr.array s) (hP.exprs (by decreasing_tactic) h)
  | object s ps =>
    refine hP.map (Expr.object s) (hP.mapM fun p hp => hP.map (Prod.mk p.1) (h.onExpr p.2 ?_))
    have := List.sizeOf_lt_of_mem hp
    obtain ⟨key, e⟩ := p
    simp at this ⊢
    omega
  | paren s e => exact hP.map (Expr.paren s) (h.onExpr e (by decreasing_tactic))
  | member s e p => exact hP.map (Expr.member s · p) (h.onExpr e (by decreasing_tactic))
  | unary s o e => exact hP.map (Expr.unary s o) (h.onExpr e (by decreasing_tactic))
  | await s e => exact hP.map (Expr.await s) (h.onExpr e (by decreasing_tactic))
  | arrowExpr s p a e => exact hP.map (Expr.arrowExpr s p a) (h.onExpr e (by decreasing_tactic))
  | call s c as =>
    exact hP.map₂ (Expr.call s) (h.onExpr c (by decreasing_tactic))
      (hP.exprs (by decreasing_tactic) h)
  | invoke s n as => exact hP.map (Expr.invoke s n) (hP.exprs (by decreasing_tactic) h)
  | binary s o l r =>
    exact hP.map₂ (Expr.binary s o) (h.onExpr l (by decreasing_tactic))
      (h.onExpr r (by decreasing_tactic))
  | assign s t v =>
    exact hP.map₂ (Expr.assign s) (h.onExpr t (by decreasing_tactic))
      (h.onExpr v (by decreasing_tactic))
  | arrow s p a b => exact hP.map (Expr.arrow s p a) (hP.block (by decreasing_tactic) h)
  | function s head b => exact hP.map (Expr.function s head) (hP.block (by decreasing_tactic) h)

theorem member {m : Member} {size : ℕ} (hm : sizeOf m < size) (h : Visits P f size) :
    P Member fun n => m.mapChildren (f n) := by
  cases m with
  | field s n init =>
    cases init with
    | none => exact hP.pure _
    | some e =>
      exact hP.map (fun e => Member.field s n (some e))
        (h.onExpr e (Nat.lt_trans (by decreasing_tactic) hm))
  | method s head b =>
    exact hP.map (Member.method s head) (hP.block (Nat.lt_trans (by decreasing_tactic) hm) h)

theorem stmt {s : Stmt} (h : Visits P f (sizeOf s)) : P Stmt fun n => s.mapChildren (f n) := by
  cases s with
  | importNames | empty => exact hP.pure _
  | function s head b => exact hP.map (Stmt.function s head) (hP.block (by decreasing_tactic) h)
  | classDecl s head ms =>
    refine hP.map (Stmt.classDecl s head) (hP.mapM fun m hm => hP.member ?_ h)
    have := List.sizeOf_lt_of_mem hm
    simp
    omega
  | binding s k n init v =>
    cases init with
    | none => exact hP.pure _
    | some e =>
      exact hP.map (fun e => Stmt.binding s k n (some e) v) (h.onExpr e (by decreasing_tactic))
  | ret s value =>
    cases value with
    | none => exact hP.pure _
    | some e => exact hP.map (fun e => Stmt.ret s (some e)) (h.onExpr e (by decreasing_tactic))
  | expr s e => exact hP.map (Stmt.expr s) (h.onExpr e (by decreasing_tactic))
  | throwExpr s e => exact hP.map (Stmt.throwExpr s) (h.onExpr e (by decreasing_tactic))
  | ifElse s c t alternative =>
    cases alternative with
    | none =>
      exact hP.map₂ (fun c t => Stmt.ifElse s c t none) (h.onExpr c (by decreasing_tactic))
        (hP.block (by decreasing_tactic) h)
    | some e =>
      exact hP.bind (h.onExpr c (by decreasing_tactic)) fun c =>
        hP.map₂ (fun t e => Stmt.ifElse s c t (some e)) (hP.block (by decreasing_tactic) h)
          (h.onStmt e (by decreasing_tactic))
  | whileLoop s c b =>
    exact hP.map₂ (Stmt.whileLoop s) (h.onExpr c (by decreasing_tactic))
      (hP.block (by decreasing_tactic) h)
  | forOf s k n i b =>
    exact hP.map₂ (Stmt.forOf s k n) (h.onExpr i (by decreasing_tactic))
      (hP.block (by decreasing_tactic) h)
  | block s b => exact hP.map (Stmt.block s) (hP.block (by decreasing_tactic) h)
  | defer s b => exact hP.map (Stmt.defer s) (hP.block (by decreasing_tactic) h)
  | tryFinally s b b' =>
    exact hP.map₂ (Stmt.tryFinally s) (hP.block (by decreasing_tactic) h)
      (hP.block (by decreasing_tactic) h)

end Composes

end Children

end Expansion

end MacroEngine
