import MacroEngine.Proofs.Control.Cleanup

/-!
# Deferred actions run when a body is left

The lowering of a function body keeps its promise on every run that reaches at most one `return`:
the actions that were registered are called, each once and in order, before the run leaves. A run
that reaches a second `return`, in a finalizer that unwinds the first, calls all of them again. The
main statements are `IsLowered.invoked`, which counts the calls of any run, and
`invoked_eq_registered_iff`.
-/

namespace MacroEngine.Control

open Lowering

/-- What a computation that numbers nodes yields, whatever the next number is. -/
def Always {α : Type} (x : Fresh α) (P : α → Prop) : Prop := ∀ next, P (x.run next).1

section Always

variable {α β : Type} {P : α → Prop} {Q : β → Prop}

theorem always_pure {a : α} (h : P a) : Always (pure a) P := fun _ => h

theorem always_bind {x : Fresh α} {f : α → Fresh β} (hx : Always x P)
    (hf : ∀ a, P a → Always (f a) Q) : Always (x >>= f) Q :=
  fun next => hf _ (hx next) _

end Always

/-- A registration: a closure is put on the list. -/
def IsRegistration (action : Block) (s : Stmt) : Prop :=
  ∃ s₁ s₂ s₃ s₄ s₅ isAsync, s = .expr s₁ (.call s₂ (.member s₃ (.ident s₄ deferList) "push")
    [.arrow s₅ [] isAsync action])

theorem cleanup_isCleanup (isAsync : Bool) : Always (cleanup isAsync) IsCleanup := by
  intro next
  cases isAsync
  · exact .mk .call
  · exact .mk .await

theorem registration_isRegistration (isAsync : Bool) (span : Span) (action : Block) :
    Always (registration isAsync span action) (IsRegistration action) :=
  fun _ => ⟨_, _, _, _, _, _, rfl⟩

theorem blockStmt_block (ss : List Stmt) :
    Always (Fresh.blockStmt ss) fun s => ∃ s₁ s₂, s = .block s₁ ⟨s₂, ss⟩ :=
  fun _ => ⟨_, _, rfl⟩

theorem IsCleanup.canReturn {s : Stmt} (h : IsCleanup s) : canReturn s = false := by
  cases h; rfl

theorem IsCleanup.canReturnTwice {s : Stmt} (h : IsCleanup s) : canReturnTwice s = false := by
  cases h; rfl

/-- The second list is the first one, covered: it can return wherever the first one can. -/
structure CoverOf (ss ss' : List Stmt) : Prop where
  covered : CoveredAll ss'
  returns : canReturnAny ss' = canReturnAny ss
  twice : canReturnTwiceAny ss' = canReturnTwiceAny ss

structure CoverInside (s s' : Stmt) : Prop where
  covered : Covered s'
  returns : canReturn s' = canReturn s
  twice : canReturnTwice s' = canReturnTwice s

theorem CoverOf.cons {s s' : Stmt} {ss ss' : List Stmt} (h : CoverInside s s')
    (hs : CoverOf ss ss') : CoverOf (s :: ss) (s' :: ss') where
  covered := .cons h.covered hs.covered
  returns := by simp [canReturnAny, h.returns, hs.returns]
  twice := by simp [canReturnTwiceAny, h.twice, hs.twice]

theorem CoverOf.ret {run : Stmt} {s : Stamp} {v : Option Expr} {ss ss' : List Stmt}
    (hrun : IsCleanup run) (hv : ∀ e ∈ v, PlainExpr e) (hs : CoverOf ss ss') :
    CoverOf (.ret s v :: ss) (run :: .ret s v :: ss') where
  covered := .ret hrun hv hs.covered
  returns := by simp [canReturnAny, hrun.canReturn, hs.returns]
  twice := by simp [canReturnTwiceAny, hrun.canReturnTwice, hs.twice]

/-- The value of a plain `return` is plain. -/
theorem plain_ret {s : Stamp} {v : Option Expr} (h : Plain ((Stmt.ret s v).items true)) :
    ∀ e ∈ v, PlainExpr e := by
  rintro e rfl
  simpa [PlainExpr, Stmt.items, namesOf] using h

mutual

theorem coverAll_covers (isAsync : Bool) : ∀ ss : List Stmt, PlainStmts ss →
    Always (coverAll isAsync ss) (CoverOf ss)
  | [], _ => by
    unfold coverAll
    exact always_pure ⟨.nil, rfl, rfl⟩
  | s :: ss, hp => by
    simp only [PlainStmts, Stmt.itemsAll, plain_append] at hp
    have ih := coverAll_covers isAsync ss hp.2
    unfold coverAll
    split
    · rename_i hret
      cases s with
      | ret s v =>
        refine always_bind (cleanup_isCleanup isAsync) fun run hrun => ?_
        exact always_bind ih fun ss' hss => always_pure (.ret hrun (plain_ret hp.1) hss)
      | _ => simp [Stmt.isReturn] at hret
    · rename_i hret
      refine always_bind (coverInside_covers isAsync s (by simpa using hret) hp.1) fun s' hs => ?_
      exact always_bind ih fun ss' hss => always_pure (.cons hs hss)

theorem coverInside_covers (isAsync : Bool) : ∀ s : Stmt, s.isReturn = false →
    Plain (s.items true) → Always (coverInside isAsync s) (CoverInside s)
  | .ifElse s c t none, _, hp => by
    simp only [Stmt.items, plain_cons, plain_append] at hp
    unfold coverInside
    exact always_bind (coverBlock_covers isAsync t hp.2.2) fun t' ht => always_pure
      ⟨.ifElse hp.2.1 ht.covered, by simpa [canReturn] using ht.returns,
        by simpa [canReturnTwice] using ht.twice⟩
  | .ifElse s c t (some e), _, hp => by
    simp only [Stmt.items, plain_cons, plain_append] at hp
    unfold coverInside
    refine always_bind (coverBlock_covers isAsync t hp.2.2.1) fun t' ht => ?_
    split
    · rename_i hret
      cases e with
      | ret s v =>
        refine always_bind (P := fun _ => True) (fun _ => trivial) fun _ _ => ?_
        refine always_bind (cleanup_isCleanup isAsync) fun run hrun => ?_
        refine always_bind (blockStmt_block [run, .ret s v]) fun e' he => always_pure ?_
        obtain ⟨s₁, s₂, rfl⟩ := he
        have hb : CoveredAll [run, .ret s v] := .ret hrun (plain_ret hp.2.2.2) .nil
        exact ⟨.ifElseElse hp.2.1 ht.covered (.block hb),
          by simp [canReturn, canReturnAny, ht.returns],
          by simp [canReturnTwice, canReturnTwiceAny, ht.twice, hrun.canReturnTwice]⟩
      | _ => simp [Stmt.isReturn] at hret
    · rename_i hret
      exact always_bind (coverInside_covers isAsync e (by simpa using hret) hp.2.2.2)
        fun e' he => always_pure ⟨.ifElseElse hp.2.1 ht.covered he.covered,
          by simp [canReturn, ht.returns, he.returns],
          by simp [canReturnTwice, ht.twice, he.twice]⟩
  | .whileLoop s c b, _, hp => by
    simp only [Stmt.items, plain_cons, plain_append] at hp
    unfold coverInside
    exact always_bind (coverBlock_covers isAsync b hp.2.2) fun b' hb => always_pure
      ⟨.whileLoop hp.2.1 hb.covered, by simpa [canReturn] using hb.returns,
        by simpa [canReturnTwice] using hb.twice⟩
  | .forOf s k name e b, _, hp => by
    simp only [Stmt.items, plain_cons, plain_append] at hp
    unfold coverInside
    exact always_bind (coverBlock_covers isAsync b hp.2.2) fun b' hb => always_pure
      ⟨.forOf (hp.1 name (by simp [namesOf])) hp.2.1 hb.covered,
        by simpa [canReturn] using hb.returns, by simpa [canReturnTwice] using hb.twice⟩
  | .block s b, _, hp => by
    simp only [Stmt.items, plain_cons] at hp
    unfold coverInside
    exact always_bind (coverBlock_covers isAsync b hp.2) fun b' hb => always_pure
      ⟨.block hb.covered, by simpa [canReturn] using hb.returns,
        by simpa [canReturnTwice] using hb.twice⟩
  | .tryFinally s b f, _, hp => by
    simp only [Stmt.items, plain_cons, plain_append] at hp
    unfold coverInside
    refine always_bind (coverBlock_covers isAsync b hp.2.1) fun b' hb => ?_
    exact always_bind (coverBlock_covers isAsync f hp.2.2) fun f' hf => always_pure
      ⟨.tryFinally hb.covered hf.covered, by simp [canReturn, hb.returns, hf.returns],
        by simp [canReturnTwice, hb.returns, hf.returns, hb.twice, hf.twice]⟩
  | .importNames _ _ _, _, hp | .function _ _ _, _, hp | .classDecl _ _ _, _, hp
  | .binding _ _ _ _ _, _, hp | .expr _ _, _, hp | .defer _ _, _, hp | .throwExpr _ _, _, hp
  | .empty _, _, hp => by
    unfold coverInside
    exact always_pure ⟨.simple rfl hp, rfl, rfl⟩
  | .ret _ _, hret, _ => by simp [Stmt.isReturn] at hret

theorem coverBlock_covers (isAsync : Bool) : ∀ b : Block, Plain (b.items true) →
    Always (coverBlock isAsync b) fun b' => CoverOf b.stmts b'.stmts
  | ⟨s, ss⟩, hp => by
    unfold coverBlock
    exact always_bind (coverAll_covers isAsync ss hp) fun ss' hss => always_pure hss

end

/-- The statements of a body that registers `actions` in turn, each `return` in it behind a
cleanup. -/
inductive Registers : List Block → List Stmt → Prop where
  | nil : Registers [] []
  | register {action actions r ss} (hr : IsRegistration action r) (hss : Registers actions ss) :
    Registers (action :: actions) (r :: ss)
  | ret {actions run s v ss} (hrun : IsCleanup run) (hv : ∀ e ∈ v, PlainExpr e)
      (hss : Registers actions ss) : Registers actions (run :: .ret s v :: ss)
  | cons {actions s ss} (hs : Covered s) (hss : Registers actions ss) : Registers actions (s :: ss)

def actionBlock? : Expr → Option Block
  | .arrow _ _ _ body => some body
  | _ => none

/-- What a run through a body did for deferred actions: it registered a first part of `actions`,
and called everything that is registered at its end `calls` times. -/
structure Settles (actions : List Block) (calls : Nat) (σ : Store) (t : Trace) (σ' : Store) :
    Prop where
  registered : (registered t).map actionBlock? <+: actions.map some
  actions : σ'.actions = σ.actions ++ Control.registered t
  invoked : invoked t = (List.replicate calls σ'.actions).flatten
  flag : σ'.flag = (σ.flag || decide (0 < calls))

theorem Settles.nil (actions : List Block) (σ : Store) : Settles actions 0 σ [] σ :=
  ⟨by simp, by simp, by simp, by simp⟩

/-- A run that only keeps the accounts. -/
theorem Accounts.settles {σ σ' : Store} {t : Trace} (h : Accounts σ t σ') (actions : List Block) :
    Settles actions (returnCount t) σ t σ' :=
  ⟨by simp [h.registered], by simp [h.registered, h.actions], by simp [h.invoked, h.actions], h.flag⟩

/-- A covered statement that falls through, and the rest of the body. -/
theorem Settles.after {actions : List Block} {calls : Nat} {σ σ₁ σ' : Store} {t u : Trace}
    (h : Accounts σ t σ₁) (hz : returnCount t = 0) (h' : Settles actions calls σ₁ u σ') :
    Settles actions calls σ (t ++ u) σ' := by
  have hinvoked := h.invoked
  have hflag := h.flag
  simp only [hz, List.replicate_zero, List.flatten_nil, Nat.lt_irrefl, decide_false,
    Bool.or_false] at hinvoked hflag
  refine ⟨?_, ?_, ?_, ?_⟩
  · simpa [h.registered] using h'.registered
  · simpa [h.registered, h.actions] using h'.actions
  · simpa [hinvoked] using h'.invoked
  · simpa [hflag] using h'.flag

/-- A registration, and the rest of the body. -/
theorem Settles.register {action : Block} {actions : List Block} {calls : Nat} {a : Expr}
    {σ σ' : Store} {u : Trace} (ha : actionBlock? a = some action)
    (h : Settles actions calls { σ with actions := σ.actions ++ [a] } u σ') :
    Settles (action :: actions) calls σ ([.registers a] ++ u) σ' := by
  refine ⟨?_, ?_, ?_, h.flag⟩
  · simpa [ha] using h.registered
  · simpa using h.actions
  · simpa using h.invoked

theorem IsRegistration.runs {action : Block} {s : Stmt} {σ σ' : Store} {t : Trace} {x : Exit}
    (hr : IsRegistration action s) (h : Runs (.stmt s) σ t σ' x) :
    x = .falls ∧ ∃ a, actionBlock? a = some action ∧ t = [.registers a] ∧
      σ' = { σ with actions := σ.actions ++ [a] } := by
  obtain ⟨s₁, s₂, s₃, s₄, s₅, isAsync, rfl⟩ := hr
  cases h with
  | inert hi => simp [isInert] at hi
  | expr he =>
    cases he with
    | opaquely hp => simp [PlainExpr, Expr.items, namesOf, bookkeeping] at hp
    | push => exact ⟨rfl, _, rfl, rfl, rfl⟩
  | exprThrows he =>
    cases he with
    | opaquely hp => simp [PlainExpr, Expr.items, namesOf, bookkeeping] at hp

/-- The last statements of a body: a cleanup, or nothing where control cannot get. -/
inductive IsEnd : List Stmt → Prop where
  | nothing : IsEnd []
  | cleanup {run} (hrun : IsCleanup run) : IsEnd [run]

theorem IsEnd.settles {last : List Stmt} {σ σ' : Store} {t : Trace} {x : Exit} (he : IsEnd last)
    (h : Runs (.list last) σ t σ' x) (hq : Quiet t) :
    ∃ calls, Settles [] calls σ t σ' ∧ calls ≤ 1 ∧ returnCount t = 0 := by
  cases he with
  | nothing =>
    cases h
    exact ⟨0, .nil _ _, by simp, rfl⟩
  | cleanup hrun =>
    obtain ⟨t₁, σ₁, t₂, rfl, hclean, rest⟩ := h.of_cons (fun h hq => (hrun.runs h hq).1) hq
    rw [quiet_append] at hq
    obtain ⟨-, hactions, hflag, rfl⟩ := hrun.runs hclean hq.1
    cases rest
    exact ⟨1, ⟨by simp, by simp [hactions], by simp [hactions], by simp [hflag]⟩, by simp, by simp⟩

/-- A run through a body calls what is registered once for each `return` that it reaches, and at
most once if it reaches none. -/
theorem Registers.settles {actions : List Block} {ss last : List Stmt} {σ σ' : Store} {t : Trace}
    {x : Exit} (hb : Registers actions ss) (he : IsEnd last)
    (h : Runs (.list (ss ++ last)) σ t σ' x) (hq : Quiet t) :
    ∃ calls, Settles actions calls σ t σ' ∧ max 1 calls = max 1 (returnCount t) := by
  induction hb generalizing σ t with
  | nil =>
    obtain ⟨calls, hs, hle, hz⟩ := he.settles h hq
    exact ⟨calls, hs, by omega⟩
  | register hr _ ih =>
    obtain ⟨t₁, σ₁, t₂, rfl, first, rest⟩ := h.of_cons (fun h _ => (hr.runs h).1) hq
    obtain ⟨-, a, ha, rfl, rfl⟩ := hr.runs first
    obtain ⟨calls, hs, hc⟩ := ih rest ((quiet_append _ _).mp hq).2
    exact ⟨calls, hs.register ha, by simpa using hc⟩
  | ret hrun hv => exact ⟨_, (Accounts.of_return hrun hv h hq).settles _, rfl⟩
  | cons hs _ ih =>
    cases h with
    | next first rest =>
      rw [quiet_append] at hq
      obtain ⟨calls, hsettles, hc⟩ := ih rest hq.2
      have hz := first.reached.falls rfl
      exact ⟨calls, .after (first.accounts hs hq.1) hz hsettles, by simpa [hz] using hc⟩
    | leave first _ => exact ⟨_, (first.accounts hs hq).settles _, rfl⟩

def deferBlocks (ss : List Stmt) : List Block :=
  ss.filterMap fun
    | .defer _ body => some body
    | _ => none

/-- The second list is the first one, with registrations and cleanups. -/
structure LoweringOf (ss ss' : List Stmt) : Prop where
  registers : Registers (deferBlocks ss) ss'
  twice : canReturnTwiceAny ss' = canReturnTwiceAny ss

theorem IsRegistration.isReturn {action : Block} {s : Stmt} (h : IsRegistration action s) :
    s.isReturn = false := by
  obtain ⟨_, _, _, _, _, _, rfl⟩ := h
  rfl

theorem IsRegistration.coverInside {action : Block} {s : Stmt} (h : IsRegistration action s)
    (isAsync : Bool) : Lowering.coverInside isAsync s = pure s := by
  obtain ⟨_, _, _, _, _, _, rfl⟩ := h
  unfold Lowering.coverInside
  rfl

theorem IsRegistration.canReturnTwice {action : Block} {s : Stmt} (h : IsRegistration action s) :
    canReturnTwice s = false := by
  obtain ⟨_, _, _, _, _, _, rfl⟩ := h
  rfl

theorem register_cons (isAsync : Bool) {s : Stmt} (ss : List Stmt) (hs : s.isDefer = false) :
    register isAsync (s :: ss) = (do return s :: (← register isAsync ss)) := by
  cases s with
  | defer => simp [Stmt.isDefer] at hs
  | _ => rfl

/-- Registering and covering a list of plain statements. -/
theorem register_coverAll (isAsync : Bool) (ss : List Stmt) (hp : PlainStmts ss) :
    Always (register isAsync ss) fun rs => Always (coverAll isAsync rs) (LoweringOf ss) := by
  induction ss with
  | nil =>
    refine always_pure ?_
    unfold coverAll
    exact always_pure ⟨.nil, rfl⟩
  | cons s ss ih =>
    simp only [PlainStmts, Stmt.itemsAll, plain_append] at hp
    have ih := ih hp.2
    cases hs : s.isDefer with
    | true =>
      cases s with
      | defer s body =>
        refine always_bind (registration_isRegistration isAsync s.span body) fun r hr => ?_
        refine always_bind ih fun rs hrs => always_pure ?_
        unfold coverAll
        simp only [hr.isReturn, hr.coverInside, pure_bind]
        exact always_bind hrs fun ss' h => always_pure ⟨.register hr h.registers, by
          simp [canReturnTwiceAny, hr.canReturnTwice, canReturnTwice, h.twice]⟩
      | _ => simp [Stmt.isDefer] at hs
    | false =>
      have hblocks : deferBlocks (s :: ss) = deferBlocks ss := by
        cases s with
        | defer => simp [Stmt.isDefer] at hs
        | _ => rfl
      rw [register_cons isAsync ss hs]
      refine always_bind ih fun rs hrs => always_pure ?_
      unfold coverAll
      split
      · rename_i hret
        cases s with
        | ret s v =>
          refine always_bind (cleanup_isCleanup isAsync) fun run hrun => ?_
          refine always_bind hrs fun ss' h => always_pure ⟨?_, ?_⟩
          · rw [hblocks]
            exact .ret hrun (plain_ret hp.1) h.registers
          · simp [canReturnTwiceAny, hrun.canReturnTwice, h.twice]
        | _ => simp [Stmt.isReturn] at hret
      · rename_i hret
        refine always_bind (coverInside_covers isAsync s (by simpa using hret) hp.1) fun s' hs' => ?_
        refine always_bind hrs fun ss' h => always_pure ⟨?_, ?_⟩
        · rw [hblocks]
          exact .cons hs'.covered h.registers
        · simp [canReturnTwiceAny, hs'.twice, h.twice]

inductive IsLowered (ss : List Stmt) : List Stmt → Prop where
  | mk {s s₁ v s₂ s₃ v' s₄ s₅ s₆ s₇ s₈ s₉ s₁₀ body last complete run} (hbody : LoweringOf ss body)
      (hlast : IsEnd last) (hcomplete : complete = body ++ last) (hrun : IsCleanup run) :
    IsLowered ss [.binding s .constant deferList (some (.array s₁ [])) v,
      .binding s₂ .mutable deferredFlag (some (.bool s₃ false)) v',
      .tryFinally s₄ ⟨s₅, complete⟩ ⟨s₆, [.ifElse s₇
        (.unary s₈ .not (.ident s₉ deferredFlag)) ⟨s₁₀, [run]⟩ none]⟩]

theorem lowered_isLowered (isAsync : Bool) {ss : List Stmt} (hp : PlainStmts ss) :
    Always (lowered isAsync ss) (IsLowered ss) := by
  refine always_bind (register_coverAll isAsync ss hp) fun rs hrs => ?_
  refine always_bind hrs fun body hbody => ?_
  dsimp only
  split
  · intro next
    exact .mk hbody .nothing (by simp) (cleanup_isCleanup isAsync _)
  · refine always_bind (cleanup_isCleanup isAsync) fun run hrun next => ?_
    exact .mk hbody (.cleanup hrun) rfl (cleanup_isCleanup isAsync _)

/-- The finalizer that lowering makes calls the actions unless the flag is up. -/
theorem IsCleanup.runs_guard {run : Stmt} {s s₁ s₂ s₃ : Stamp} {σ σ' : Store} {t : Trace} {x : Exit}
    (hrun : IsCleanup run)
    (h : Runs (.list [.ifElse s (.unary s₁ .not (.ident s₂ deferredFlag)) ⟨s₃, [run]⟩ none]) σ t σ' x)
    (hq : Quiet t) : t = if σ.flag then [] else σ.actions.map .invokes := by
  have hguard : ∀ {t σ₁ x},
      Runs (.stmt (.ifElse s (.unary s₁ .not (.ident s₂ deferredFlag)) ⟨s₃, [run]⟩ none)) σ t σ₁ x →
      Quiet t → x = .falls ∧ t = if σ.flag then [] else σ.actions.map .invokes := by
    intro t σ₁ x h hq
    cases h with
    | inert hi => simp [isInert] at hi
    | ifThrows hc =>
      cases hc with
      | opaquely hp => simp [PlainExpr, Expr.items, namesOf, bookkeeping] at hp
    | ifNothing hc =>
      generalize hr : some false = r at hc
      cases hc with
      | opaquely hp => simp [PlainExpr, Expr.items, namesOf, bookkeeping] at hp
      | pending => simp_all
    | ifTrue hc branch =>
      generalize hr : some true = r at hc
      cases hc with
      | opaquely hp => simp [PlainExpr, Expr.items, namesOf, bookkeeping] at hp
      | pending =>
        obtain ⟨t₁, σ₂, t₂, rfl, hclean, rest⟩ :=
          branch.of_cons (fun h hq => (hrun.runs h hq).1) hq
        simp only [quiet_append] at hq
        obtain ⟨-, -, -, rfl⟩ := hrun.runs hclean hq.2.1
        cases rest
        simp_all
  obtain ⟨t₁, σ₁, t₂, rfl, first, rest⟩ := h.of_cons (fun h hq => (hguard h hq).1) hq
  cases rest
  simpa using (hguard first ((quiet_append _ _).mp hq).1).2

theorem runs_bindActions {s s₁ : Stamp} {v : Visibility} {σ σ' : Store} {t : Trace} {x : Exit}
    (h : Runs (.stmt (.binding s .constant deferList (some (.array s₁ [])) v)) σ t σ' x) :
    x = .falls ∧ t = [] ∧ σ' = { σ with actions := [] } := by
  generalize hn : deferList = name at h
  cases h with
  | inert hi => simp [isInert] at hi
  | bindActions => exact ⟨rfl, rfl, rfl⟩
  | bind hname | bindThrows hname => simp [← hn, bookkeeping] at hname

theorem runs_bindFlag {s s₁ : Stamp} {b : Bool} {v : Visibility} {σ σ' : Store} {t : Trace}
    {x : Exit} (h : Runs (.stmt (.binding s .mutable deferredFlag (some (.bool s₁ b)) v)) σ t σ' x) :
    x = .falls ∧ t = [] ∧ σ' = { σ with flag := b } := by
  generalize hn : deferredFlag = name at h
  cases h with
  | inert hi => simp [isInert] at hi
  | bindFlag => exact ⟨rfl, rfl, rfl⟩
  | bind hname | bindThrows hname => simp [← hn, bookkeeping] at hname

/-- A `try` runs its block and then its finalizer. -/
theorem Runs.of_tryFinally {s : Stamp} {b f : Block} {σ σ' : Store} {t : Trace} {x : Exit}
    (h : Runs (.stmt (.tryFinally s b f)) σ t σ' x) :
    ∃ t₁ σ₁ x₁ t₂ σ₂ x₂, t = t₁ ++ t₂ ∧ Runs (.list b.stmts) σ t₁ σ₁ x₁ ∧
      Runs (.list f.stmts) σ₁ t₂ σ₂ x₂ := by
  cases h with
  | inert hi => simp [isInert] at hi
  | finallyFalls body finalizer => exact ⟨_, _, _, _, _, _, rfl, body, finalizer⟩
  | finallyLeaves body finalizer => exact ⟨_, _, _, _, _, _, rfl, body, finalizer⟩

/-- What the block and the finalizer of a lowered body do together. -/
theorem Settles.invoked_guard {actions : List Block} {calls : Nat} {σ σ' : Store} {t u : Trace}
    (h : Settles actions calls { σ with actions := [], flag := false } t σ')
    (hc : max 1 calls = max 1 (returnCount t))
    (hu : u = if σ'.flag then [] else σ'.actions.map .invokes) :
    Control.invoked (t ++ u) =
      (List.replicate (max 1 (returnCount (t ++ u))) (Control.registered (t ++ u))).flatten := by
  have hactions : σ'.actions = Control.registered t := by simpa using h.actions
  have hinvoked := h.invoked
  rw [hactions] at hinvoked
  have hflag : σ'.flag = decide (0 < calls) := by simpa using h.flag
  cases calls with
  | zero =>
    simp only [hflag, Nat.lt_irrefl, decide_false, Bool.false_eq_true, ↓reduceIte] at hu
    subst hu
    have hone : max 1 (returnCount t) = 1 := hc.symm
    simp [hinvoked, hactions, hone]
  | succ n =>
    simp only [hflag, Nat.zero_lt_succ, decide_true, ↓reduceIte] at hu
    subst hu
    have hn : max 1 (returnCount t) = n + 1 := by omega
    simp [hinvoked, hn]

/-- A run through a lowered body registers a first part of its deferred blocks, and calls them once
for each `return` that it reaches, and once if it reaches none. -/
theorem IsLowered.invoked {ss ss' : List Stmt} {σ σ' : Store} {t : Trace} {x : Exit}
    (hl : IsLowered ss ss') (h : Runs (.list ss') σ t σ' x) (hq : Quiet t) :
    (registered t).map actionBlock? <+: (deferBlocks ss).map some ∧
      invoked t = (List.replicate (max 1 (returnCount t)) (registered t)).flatten := by
  obtain ⟨hbody, hlast, rfl, hrun⟩ := hl
  obtain ⟨t₁, σ₁, t₂, rfl, first, more⟩ := h.of_cons (fun h _ => (runs_bindActions h).1) hq
  obtain ⟨-, rfl, rfl⟩ := runs_bindActions first
  obtain ⟨t₃, σ₃, t₄, rfl, second, last⟩ := more.of_cons (fun h _ => (runs_bindFlag h).1) hq
  obtain ⟨-, rfl, rfl⟩ := runs_bindFlag second
  simp only [List.nil_append] at hq ⊢
  obtain ⟨u₁, σ₄, x₁, u₂, σ₅, x₂, rfl, body, finalizer⟩ := last.of_singleton.of_tryFinally
  rw [quiet_append] at hq
  obtain ⟨calls, hs, hc⟩ := hbody.registers.settles hlast body hq.1
  have hu := hrun.runs_guard finalizer hq.2
  refine ⟨?_, hs.invoked_guard hc hu⟩
  have hnone : registered u₂ = [] := by
    rw [hu]
    split <;> simp
  simpa [hnone] using hs.registered

/-- Plain code that no lowering has touched. -/
def PlainCode : Code → Prop
  | .stmt s => Plain (s.items true)
  | .list ss => PlainStmts ss
  | .loop b => PlainStmts b
  | .each _ _ => False

theorem plain_block (b : Block) : Plain (b.items true) ↔ PlainStmts b.stmts := by
  cases b; rfl

theorem Runs.of_plain {code : Code} {σ σ' : Store} {t : Trace} {x : Exit}
    (h : Runs code σ t σ' x) (hp : PlainCode code) : registered t = [] ∧ invoked t = [] := by
  have hnone : ∀ {e σ t σ' r}, Evaluates e σ t σ' r → PlainExpr e →
      registered t = [] ∧ invoked t = [] := fun h hp => by simp [(h.of_plain hp).1]
  induction h with
  | nil | inert | bindActions | bindFlag | ret | loopDone | loopThrows => exact ⟨rfl, rfl⟩
  | next _ _ ih ih' =>
    simp only [PlainCode, PlainStmts, Stmt.itemsAll, plain_append] at hp
    simp [ih hp.1, ih' hp.2]
  | leave _ _ ih =>
    simp only [PlainCode, PlainStmts, Stmt.itemsAll, plain_append] at hp
    exact ih hp.1
  | expr h | exprThrows h | bind _ h | bindThrows _ h | throwExpr h =>
    simp only [PlainCode, Stmt.items, plain_cons] at hp
    exact hnone h hp.2
  | retValue h | retThrows h =>
    simp only [PlainCode, Stmt.items, plain_cons] at hp
    simpa using hnone h hp.2
  | @ifThrows s c a e _ _ _ h =>
    cases e <;> simp only [PlainCode, Stmt.items, plain_cons, plain_append] at hp <;>
      exact hnone h hp.2.1
  | @ifTrue s c a e _ _ _ _ _ _ h _ ih =>
    have hc : PlainExpr c ∧ PlainStmts a.stmts := by
      cases e <;> simp only [PlainCode, Stmt.items, plain_cons, plain_append, plain_block] at hp
      · exact hp.2
      · exact ⟨hp.2.1, hp.2.2.1⟩
    simp [hnone h hc.1, ih hc.2]
  | ifFalse h _ ih =>
    simp only [PlainCode, Stmt.items, plain_cons, plain_append] at hp
    simp [hnone h hp.2.1, ih hp.2.2.2]
  | ifNothing h | whileThrows h | whileDone h | forThrows h =>
    simp only [PlainCode, Stmt.items, plain_cons, plain_append] at hp
    exact hnone h hp.2.1
  | whileNext h _ _ ih ih' =>
    have hw := ih' hp
    simp only [PlainCode, Stmt.items, plain_cons, plain_append, plain_block] at hp
    simp [hnone h hp.2.1, ih hp.2.2, hw]
  | whileLeave h _ _ ih | forOf _ h _ ih =>
    simp only [PlainCode, Stmt.items, plain_cons, plain_append, plain_block] at hp
    simp [hnone h hp.2.1, ih hp.2.2]
  | forActions => simp [PlainCode, Stmt.items, namesOf, bookkeeping] at hp
  | loopNext _ _ ih ih' => simp [ih hp, ih' hp]
  | loopLeave _ _ ih => exact ih hp
  | eachDone | eachNext | eachLeave => exact hp.elim
  | block _ ih =>
    simp only [PlainCode, Stmt.items, plain_cons, plain_block] at hp
    exact ih hp.2
  | finallyFalls _ _ ih ih' | finallyLeaves _ _ _ ih ih' =>
    simp only [PlainCode, Stmt.items, plain_cons, plain_append, plain_block] at hp
    simp [ih hp.2.1, ih' hp.2.2]

/-- A list that is repeated is the list itself only if it is empty or repeated once. -/
theorem flatten_replicate_eq_self_iff {α : Type} (n : Nat) (xs : List α) :
    (List.replicate (max 1 n) xs).flatten = xs ↔ xs = [] ∨ n ≤ 1 := by
  constructor
  · intro h
    have hlen := congrArg List.length h
    simp only [List.length_flatten, List.map_replicate, List.sum_replicate_nat] at hlen
    rcases Nat.eq_zero_or_pos xs.length with h0 | hpos
    · exact .inl (List.eq_nil_of_length_eq_zero h0)
    · refine .inr (Nat.le_of_not_lt fun hn => ?_)
      have : max 1 n = n := by omega
      rw [this] at hlen
      have := Nat.mul_lt_mul_of_pos_right hn hpos
      omega
  · rintro (rfl | hn)
    · simp
    · have : max 1 n = 1 := by omega
      simp [this]

theorem canReturnTwiceAny_append (ss ss' : List Stmt) :
    canReturnTwiceAny (ss ++ ss') = (canReturnTwiceAny ss || canReturnTwiceAny ss') := by
  induction ss with
  | nil => simp [canReturnTwiceAny]
  | cons s ss ih => simp [canReturnTwiceAny, ih, Bool.or_assoc]

/-- Lowering brings in no `return` of its own. -/
theorem IsLowered.canReturnTwice {ss ss' : List Stmt} (h : IsLowered ss ss') :
    canReturnTwiceAny ss' = canReturnTwiceAny ss := by
  obtain ⟨hbody, hlast, rfl, hrun⟩ := h
  have hend : ∀ {last}, IsEnd last → canReturnTwiceAny last = false := by
    rintro _ (_ | hrun)
    · rfl
    · simp [canReturnTwiceAny, hrun.canReturnTwice]
  simp [canReturnTwiceAny, Control.canReturnTwice, canReturnTwiceAny_append, hend hlast,
    hbody.twice, hrun.canReturnTwice, canReturnAny, Control.canReturn, hrun.canReturn]

/-- A function body is lowered, or it has no deferred statements and stays as it is. -/
theorem functionBody_cases (isAsync : Bool) (body : Block) (hp : PlainStmts body.stmts) :
    Always (functionBody isAsync body) fun r =>
      IsLowered body.stmts r.1.stmts ∨ r.1 = body := by
  unfold functionBody
  split
  · exact always_bind (lowered_isLowered isAsync hp) fun ss' h => always_pure (.inl h)
  · exact always_pure (.inr rfl)

/-- Every run through the body that lowering makes of a function body registers a first part of
its deferred blocks. It invokes exactly what it registered, each action once and in order, if and
only if it registered nothing or reached at most one `return`; and that is so for every run if no
`try` of the body can return both from its block and from its finalizer. -/
theorem invoked_eq_registered_iff (isAsync : Bool) (body : Block) (next : NodeId)
    (hp : PlainStmts body.stmts) {σ σ' : Store} {t : Trace} {x : Exit}
    (h : Runs (.list ((functionBody isAsync body).run next).1.1.stmts) σ t σ' x) (hq : Quiet t) :
    (registered t).map actionBlock? <+: (deferBlocks body.stmts).map some ∧
      (invoked t = registered t ↔ registered t = [] ∨ returnCount t ≤ 1) ∧
      (canReturnTwiceAny body.stmts = false → invoked t = registered t) := by
  rcases functionBody_cases isAsync body hp next with hl | he
  · obtain ⟨hfirst, hcount⟩ := hl.invoked h hq
    have honce := h.reached.once
    simp only [Code.canReturnTwice, hl.canReturnTwice] at honce
    refine ⟨hfirst, ?_, fun ht => ?_⟩
    · rw [hcount]
      exact flatten_replicate_eq_self_iff _ _
    · rw [hcount]
      exact (flatten_replicate_eq_self_iff _ _).mpr (.inr (honce ht))
  · rw [he] at h
    obtain ⟨hr, hi⟩ := h.of_plain hp
    simp [hr, hi]

/-- A body that returns in a block and again in the finalizer of that block. -/
def returnsTwice : Block :=
  ⟨default, [.defer default ⟨default, []⟩,
    .tryFinally default ⟨default, [.ret default none]⟩ ⟨default, [.ret default none]⟩]⟩

theorem Runs.singleton {s : Stmt} {σ σ' : Store} {t : Trace} (h : Runs (.stmt s) σ t σ' .falls) :
    Runs (.list [s]) σ t σ' .falls := by
  simpa using h.next .nil

/-- A cleanup calls the one action there is. -/
theorem IsCleanup.runs_one {run : Stmt} (hrun : IsCleanup run) (a : Expr) (b : Bool)
    (o : Option Expr) :
    Runs (.stmt run) ⟨[a], b, o⟩ [.invokes a] ⟨[a], true, some a⟩ .falls := by
  cases hrun with
  | @mk s s₁ s₂ s₃ s₄ s₅ s₆ s₇ s₈ s₉ call hcall =>
    have hone : Runs (.stmt (.expr s₉ call)) ⟨[a], true, some a⟩ [.invokes a] ⟨[a], true, some a⟩
        .falls := by
      cases hcall with
      | call => exact .expr (.invoke (b := true) rfl)
      | await => exact .expr (.await (.invoke (b := true) rfl))
    have hloop : Runs (.each 0 [.expr s₉ call]) ⟨[a], true, o⟩ [.invokes a] ⟨[a], true, some a⟩
        .falls := .eachNext (σ := ⟨[a], true, o⟩) rfl hone.singleton (.eachDone rfl)
    have hfor : Runs (.stmt (.forOf s₆ .constant actionName (.ident s₇ deferList)
        ⟨s₈, [.expr s₉ call]⟩)) ⟨[a], true, o⟩ [.invokes a] ⟨[a], true, some a⟩ .falls :=
      .forActions hloop
    have hmark : Runs (.stmt (.expr s₂ (.assign s₃ (.ident s₄ deferredFlag) (.bool s₅ true))))
        ⟨[a], b, o⟩ [] ⟨[a], true, o⟩ .falls := .expr .mark
    exact .block (hmark.next hfor.singleton)

/-- A cleanup in front of a `return` calls the one action there is. -/
theorem IsCleanup.runs_return {run : Stmt} (hrun : IsCleanup run) (s : Stamp) (a : Expr) (b : Bool)
    (o : Option Expr) :
    Runs (.list [run, .ret s none]) ⟨[a], b, o⟩ [.invokes a, .returns] ⟨[a], true, some a⟩
      .returns :=
  (hrun.runs_one a b o).next (.leave .ret Exit.noConfusion)

/-- The guard of the finalizer passes the actions by when the flag is up. -/
theorem runs_guard_up (s s₁ s₂ : Stamp) (b : Block) (as : List Expr) (o : Option Expr) :
    Runs (.list [.ifElse s (.unary s₁ .not (.ident s₂ deferredFlag)) b none]) ⟨as, true, o⟩ []
      ⟨as, true, o⟩ .falls :=
  .singleton (.ifNothing (.pending (σ := ⟨as, true, o⟩)))

/-- The run of `returnsTwice` calls its action before each of the two returns. -/
theorem runs_returnsTwice : ∃ a t σ,
    Runs (.list ((functionBody false returnsTwice).run 0).1.1.stmts) ⟨[], false, none⟩ t σ
        .returns ∧
      t = [.registers a, .invokes a, .returns, .invokes a, .returns] := by
  have hret := fun n => (cleanup_isCleanup false n).runs_return
  refine ⟨.arrow _ [] false _, _, _, .next .bindActions (.next .bindFlag (.leave (.finallyFalls
    (.next (.expr .push) (.leave
      (.finallyLeaves (hret _ _ _ _ _) (hret _ _ _ _ _) Exit.noConfusion) Exit.noConfusion))
    (runs_guard_up _ _ _ _ _ _)) Exit.noConfusion)), rfl⟩

/-- An action that is invoked twice, where the two `return`s of a run are two too many. -/
theorem invoked_twice_returnsTwice : ∃ a t σ,
    Runs (.list ((functionBody false returnsTwice).run 0).1.1.stmts) ⟨[], false, none⟩ t σ
        .returns ∧
      Quiet t ∧ PlainStmts returnsTwice.stmts ∧ registered t = [a] ∧ invoked t = [a, a] ∧
      ¬ (registered t = [] ∨ returnCount t ≤ 1) := by
  obtain ⟨a, t, σ, hrun, rfl⟩ := runs_returnsTwice
  have hplain : PlainStmts returnsTwice.stmts := by
    simp [PlainStmts, returnsTwice, Stmt.itemsAll, Stmt.items, Block.items, namesOf]
  have hquiet : Quiet [.registers a, .invokes a, .returns, .invokes a, .returns] := by
    simp [Quiet]
  refine ⟨a, _, σ, hrun, hquiet, hplain, rfl, rfl, fun hone => ?_⟩
  have heq := (invoked_eq_registered_iff false returnsTwice 0 hplain hrun hquiet).2.1.mpr hone
  exact absurd (congrArg List.length heq) (by simp [invoked, registered])

end MacroEngine.Control
