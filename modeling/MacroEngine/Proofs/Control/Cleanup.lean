import MacroEngine.Proofs.Control.Returns

/-!
# Runs of the code that lowering makes

A cleanup block calls every action on the list, whether or not one ran before, and raises the flag.
Lowering puts such a block in front of each `return` of a body and at its end. The invariant of a
run through such a body, from one statement to the next, is `Accounts`: the actions on the list have
been called once for each `return` reached, and the flag says whether there was one.
-/

namespace MacroEngine.Control

open Lowering

/-- A call of the action at hand, awaited or not. -/
inductive IsActionCall : Expr → Prop where
  | call {s s₁} : IsActionCall (.call s (.ident s₁ actionName) [])
  | await {s s₁ s₂} : IsActionCall (.await s (.call s₁ (.ident s₂ actionName) []))

/-- A block that raises the flag and calls every action on the list. -/
inductive IsCleanup : Stmt → Prop where
  | mk {s s₁ s₂ s₃ s₄ s₅ s₆ s₇ s₈ s₉ call} (h : IsActionCall call) :
    IsCleanup (.block s ⟨s₁, [.expr s₂ (.assign s₃ (.ident s₄ deferredFlag) (.bool s₅ true)),
      .forOf s₆ .constant actionName (.ident s₇ deferList) ⟨s₈, [.expr s₉ call]⟩]⟩)

/-- A call of the action at hand that does not fail. -/
theorem IsActionCall.evaluates {e : Expr} {σ σ' : Store} {t : Trace} {r : Option Bool}
    (hc : IsActionCall e) (h : Evaluates e σ t σ' r) (hq : Quiet t) :
    σ' = σ ∧ ∃ a b, σ.action = some a ∧ r = some b ∧ t = [.invokes a] := by
  induction h with
  | opaquely hp => cases hc <;> simp [PlainExpr, Expr.items, namesOf, bookkeeping] at hp
  | invoke ha => exact ⟨rfl, _, _, ha, rfl, rfl⟩
  | fail => simp [Quiet] at hq
  | await h ih =>
    cases hc
    exact ih .call hq
  | push | mark | pending => cases hc

/-- A round of the loop of a cleanup calls the action of the round. -/
theorem IsActionCall.round {s : Stamp} {e : Expr} {a : Expr} {σ σ' : Store} {t : Trace} {x : Exit}
    (hc : IsActionCall e) (h : Runs (.list [.expr s e]) { σ with action := some a } t σ' x)
    (hq : Quiet t) : x = .falls ∧ σ' = { σ with action := some a } ∧ t = [.invokes a] := by
  cases h with
  | next first rest =>
    rw [quiet_append] at hq
    cases rest
    cases first with
    | inert hi => simp [isInert] at hi
    | expr he =>
      obtain ⟨rfl, a', b, ha, -, rfl⟩ := hc.evaluates he hq.1
      obtain rfl : a = a' := Option.some.inj ha
      exact ⟨rfl, rfl, rfl⟩
  | leave first hx =>
    cases first with
    | inert hi => simp [isInert] at hi
    | expr => exact absurd rfl hx
    | exprThrows he =>
      obtain ⟨-, _, _, -, hr, -⟩ := hc.evaluates he hq
      exact absurd hr (by simp)

/-- The loop of a cleanup calls the actions from the `i`-th on. -/
theorem IsActionCall.rounds {s : Stamp} {e : Expr} {σ σ' : Store} {t : Trace} {x : Exit} {i : Nat}
    (hc : IsActionCall e) (h : Runs (.each i [.expr s e]) σ t σ' x) (hq : Quiet t) :
    x = .falls ∧ σ'.actions = σ.actions ∧ σ'.flag = σ.flag ∧
      t = (σ.actions.drop i).map .invokes := by
  generalize hcode : Code.each i [.expr s e] = code at h
  induction h generalizing i with
  | eachDone hi =>
    cases hcode
    have hlen := List.getElem?_eq_none_iff.mp hi
    simp [List.drop_eq_nil_of_le hlen]
  | eachNext hi round _ _ ih =>
    cases hcode
    rw [quiet_append] at hq
    obtain ⟨-, rfl, rfl⟩ := hc.round round hq.1
    obtain ⟨hx, ha, hf, rfl⟩ := ih hq.2 rfl
    obtain ⟨hlt, rfl⟩ := List.getElem?_eq_some_iff.mp hi
    refine ⟨hx, ha, hf, ?_⟩
    rw [List.drop_eq_getElem_cons hlt]
    rfl
  | eachLeave hi round hx =>
    cases hcode
    exact absurd (hc.round round hq).1 hx
  | _ => cases hcode

/-- Raising the flag does nothing else. -/
theorem runs_mark {s s₁ s₂ s₃ : Stamp} {σ σ' : Store} {t : Trace} {x : Exit}
    (h : Runs (.stmt (.expr s (.assign s₁ (.ident s₂ deferredFlag) (.bool s₃ true)))) σ t σ' x) :
    x = .falls ∧ σ' = { σ with flag := true } ∧ t = [] := by
  cases h with
  | inert hi => simp [isInert] at hi
  | expr he =>
    cases he with
    | opaquely hp => simp [PlainExpr, Expr.items, namesOf, bookkeeping] at hp
    | mark => exact ⟨rfl, rfl, rfl⟩
  | exprThrows he =>
    cases he with
    | opaquely hp => simp [PlainExpr, Expr.items, namesOf, bookkeeping] at hp

/-- The loop of a cleanup calls every action on the list. -/
theorem IsActionCall.runs_forOf {s s₁ s₂ s₃ : Stamp} {e : Expr} {σ σ' : Store} {t : Trace}
    {x : Exit} (hc : IsActionCall e)
    (h : Runs (.stmt (.forOf s .constant actionName (.ident s₁ deferList) ⟨s₂, [.expr s₃ e]⟩))
      σ t σ' x) (hq : Quiet t) :
    x = .falls ∧ σ'.actions = σ.actions ∧ σ'.flag = σ.flag ∧ t = σ.actions.map .invokes := by
  cases h with
  | inert hi => simp [isInert] at hi
  | forThrows he =>
    cases he with
    | opaquely hp => simp [PlainExpr, Expr.items, namesOf, bookkeeping] at hp
  | forOf hname => simp [bookkeeping] at hname
  | forActions h => simpa using hc.rounds h hq

/-- A statement list whose first statement falls through goes on with the others. -/
theorem Runs.of_cons {s : Stmt} {ss : List Stmt} {σ σ' : Store} {t : Trace} {x : Exit}
    (h : Runs (.list (s :: ss)) σ t σ' x)
    (hf : ∀ {t σ' x}, Runs (.stmt s) σ t σ' x → Quiet t → x = .falls) (hq : Quiet t) :
    ∃ t₁ σ₁ t₂, t = t₁ ++ t₂ ∧ Runs (.stmt s) σ t₁ σ₁ .falls ∧ Runs (.list ss) σ₁ t₂ σ' x := by
  cases h with
  | next first rest => exact ⟨_, _, _, rfl, first, rest⟩
  | leave first hx => exact absurd (hf first hq) hx

/-- A statement list of one statement runs as that statement. -/
theorem Runs.of_singleton {s : Stmt} {σ σ' : Store} {t : Trace} {x : Exit}
    (h : Runs (.list [s]) σ t σ' x) : Runs (.stmt s) σ t σ' x := by
  cases h with
  | next first rest =>
    cases rest
    simpa using first
  | leave first => exact first

/-- A cleanup calls every action on the list, in order, and raises the flag. -/
theorem IsCleanup.runs {s : Stmt} {σ σ' : Store} {t : Trace} {x : Exit} (hc : IsCleanup s)
    (h : Runs (.stmt s) σ t σ' x) (hq : Quiet t) :
    x = .falls ∧ σ'.actions = σ.actions ∧ σ'.flag = true ∧ t = σ.actions.map .invokes := by
  obtain ⟨hcall⟩ := hc
  cases h with
  | inert hi => simp [isInert] at hi
  | block h =>
    obtain ⟨t₁, σ₁, t₂, rfl, mark, more⟩ := h.of_cons (fun h _ => (runs_mark h).1) hq
    obtain ⟨-, rfl, rfl⟩ := runs_mark mark
    simpa using hcall.runs_forOf more.of_singleton hq

/-- A statement that runs as a whole: it holds no statements outside the functions in it. -/
def isSimple : Stmt → Bool
  | .ret _ _ | .ifElse _ _ _ _ | .whileLoop _ _ _ | .forOf _ _ _ _ _ | .block _ _
  | .tryFinally _ _ _ => false
  | _ => true

mutual

/-- A statement that uses no name for deferred actions, but for a cleanup in front of each `return`
in it. -/
inductive Covered : Stmt → Prop where
  | simple {s} (hs : isSimple s = true) (hp : Plain (s.items true)) : Covered s
  | ifElse {s c t} (hc : PlainExpr c) (ht : CoveredAll t.stmts) : Covered (.ifElse s c t none)
  | ifElseElse {s c t e} (hc : PlainExpr c) (ht : CoveredAll t.stmts) (he : Covered e) :
    Covered (.ifElse s c t (some e))
  | whileLoop {s c b} (hc : PlainExpr c) (hb : CoveredAll b.stmts) : Covered (.whileLoop s c b)
  | forOf {s k name e b} (hname : name ∉ bookkeeping) (he : PlainExpr e)
      (hb : CoveredAll b.stmts) : Covered (.forOf s k name e b)
  | block {s b} (hb : CoveredAll b.stmts) : Covered (.block s b)
  | tryFinally {s b f} (hb : CoveredAll b.stmts) (hf : CoveredAll f.stmts) :
    Covered (.tryFinally s b f)

inductive CoveredAll : List Stmt → Prop where
  | nil : CoveredAll []
  | cons {s ss} (hs : Covered s) (hss : CoveredAll ss) : CoveredAll (s :: ss)
  | ret {run s v ss} (hrun : IsCleanup run) (hv : ∀ e ∈ v, PlainExpr e) (hss : CoveredAll ss) :
    CoveredAll (run :: .ret s v :: ss)

end

def CoveredCode : Code → Prop
  | .stmt s => Covered s
  | .list ss => CoveredAll ss
  | .loop b => CoveredAll b
  | .each _ _ => False

/-- What a run does to the actions on the list `σ.actions`, all of them registered before: they are
called once for each `return` that the run reaches, and the flag is up after the first. -/
structure Accounts (σ : Store) (t : Trace) (σ' : Store) : Prop where
  registered : registered t = []
  actions : σ'.actions = σ.actions
  invoked : invoked t = (List.replicate (returnCount t) σ.actions).flatten
  flag : σ'.flag = (σ.flag || decide (0 < returnCount t))

theorem Accounts.refl (σ : Store) : Accounts σ [] σ := ⟨rfl, rfl, by simp, by simp⟩

theorem Accounts.trans {σ σ₁ σ₂ : Store} {t u : Trace} (h : Accounts σ t σ₁)
    (h' : Accounts σ₁ u σ₂) : Accounts σ (t ++ u) σ₂ := by
  refine ⟨?_, h'.actions.trans h.actions, ?_, ?_⟩
  · simp [h.registered, h'.registered]
  · simp [h.invoked, h'.invoked, h.actions, ← List.replicate_append_replicate]
  · rw [h'.flag, h.flag, returnCount_append, Bool.or_assoc, ← Bool.decide_or]
    congr 2
    exact propext (by omega)

/-- A plain expression keeps the accounts. -/
theorem Accounts.of_plain {e : Expr} {σ σ' : Store} {t : Trace} {r : Option Bool}
    (h : Evaluates e σ t σ' r) (hp : PlainExpr e) : Accounts σ t σ' := by
  obtain ⟨rfl, rfl⟩ := h.of_plain hp
  exact .refl _

/-- A cleanup and the `return` behind it. -/
theorem Accounts.of_return {run : Stmt} {s : Stamp} {v : Option Expr} {ss : List Stmt}
    {σ σ' : Store} {t : Trace} {x : Exit} (hrun : IsCleanup run) (hv : ∀ e ∈ v, PlainExpr e)
    (h : Runs (.list (run :: .ret s v :: ss)) σ t σ' x) (hq : Quiet t) : Accounts σ t σ' := by
  obtain ⟨t₁, σ₁, t₂, rfl, hclean, rest⟩ := h.of_cons (fun h hq => (hrun.runs h hq).1) hq
  rw [quiet_append] at hq
  obtain ⟨-, hactions, hflag, rfl⟩ := hrun.runs hclean hq.1
  have hret : t₂ = [.returns] ∧ σ' = σ₁ := by
    cases rest with
    | next first _ =>
      cases first with
      | inert hi => simp [isInert] at hi
    | leave first _ =>
      cases first with
      | inert hi => simp [isInert] at hi
      | ret => exact ⟨rfl, rfl⟩
      | retValue he | retThrows he =>
        obtain ⟨rfl, rfl⟩ := he.of_plain (hv _ rfl)
        exact ⟨rfl, rfl⟩
  obtain ⟨rfl, rfl⟩ := hret
  exact ⟨by simp, hactions, by simp, by simp [hflag]⟩

/-- A run through covered code keeps the accounts. -/
theorem Runs.accounts {code : Code} {σ σ' : Store} {t : Trace} {x : Exit}
    (h : Runs code σ t σ' x) (hc : CoveredCode code) (hq : Quiet t) : Accounts σ t σ' := by
  induction h with
  | nil | loopDone | loopThrows => exact .refl _
  | next first rest ih ih' =>
    cases hc with
    | cons hs hss =>
      rw [quiet_append] at hq
      exact (ih hs hq.1).trans (ih' hss hq.2)
    | ret hrun hv => exact .of_return hrun hv (.next first rest) hq
  | leave first hx ih =>
    cases hc with
    | cons hs => exact ih hs hq
    | ret hrun => exact absurd (hrun.runs first hq).1 hx
  | inert hi =>
    cases hc with
    | simple => exact .refl _
    | _ => simp [isInert] at hi
  | bindActions | bindFlag =>
    cases hc with
    | simple hs hp => simp [Stmt.items, namesOf, bookkeeping] at hp
  | expr he | exprThrows he | throwExpr he | bind _ he | bindThrows _ he =>
    cases hc with
    | simple hs hp =>
      exact .of_plain he (by simp only [Stmt.items, plain_cons] at hp; exact hp.2)
  | ret | retValue | retThrows =>
    cases hc with
    | simple hs => simp [isSimple] at hs
  | ifThrows he | ifNothing he | whileThrows he | whileDone he | forThrows he =>
    cases hc with
    | simple hs => simp [isSimple] at hs
    | _ => exact .of_plain he ‹_›
  | ifTrue he _ ih =>
    rw [quiet_append] at hq
    cases hc with
    | simple hs => simp [isSimple] at hs
    | ifElse hc ht | ifElseElse hc ht => exact (Accounts.of_plain he hc).trans (ih ht hq.2)
  | ifFalse he _ ih =>
    rw [quiet_append] at hq
    cases hc with
    | simple hs => simp [isSimple] at hs
    | ifElseElse hc _ hb => exact (Accounts.of_plain he hc).trans (ih hb hq.2)
  | whileNext he _ _ ih ih' =>
    simp only [quiet_append] at hq
    cases hc with
    | simple hs => simp [isSimple] at hs
    | whileLoop hc hb =>
      exact (Accounts.of_plain he hc).trans
        ((ih hb hq.2.1).trans (ih' (.whileLoop hc hb) hq.2.2))
  | whileLeave he _ _ ih =>
    rw [quiet_append] at hq
    cases hc with
    | simple hs => simp [isSimple] at hs
    | whileLoop hc hb => exact (Accounts.of_plain he hc).trans (ih hb hq.2)
  | forOf _ he _ ih =>
    rw [quiet_append] at hq
    cases hc with
    | simple hs => simp [isSimple] at hs
    | forOf _ hc hb => exact (Accounts.of_plain he hc).trans (ih hb hq.2)
  | forActions _ ih =>
    cases hc with
    | simple hs => simp [isSimple] at hs
    | forOf hname => simp [bookkeeping] at hname
  | loopNext _ _ ih ih' =>
    rw [quiet_append] at hq
    exact (ih hc hq.1).trans (ih' hc hq.2)
  | loopLeave _ _ ih => exact ih hc hq
  | eachDone | eachNext | eachLeave => exact hc.elim
  | block _ ih =>
    cases hc with
    | simple hs => simp [isSimple] at hs
    | block hb => exact ih hb hq
  | finallyFalls _ _ ih ih' | finallyLeaves _ _ _ ih ih' =>
    rw [quiet_append] at hq
    cases hc with
    | simple hs => simp [isSimple] at hs
    | tryFinally hb hf => exact (ih hb hq.1).trans (ih' hf hq.2)

end MacroEngine.Control
