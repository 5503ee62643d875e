import MacroEngine.Lowering.Defer
import MacroEngine.Tree.Walk

/-!
# Runs of function bodies

The control flow of a body, read in the usual way. An expression completes or throws, conditions
and the number of rounds of a loop are arbitrary, `return` and `throw` unwind through the enclosing
`try ... finally`, and a finalizer that leaves by itself overrides the pending exit. Declarations
are passed. Functions inside a body are never entered.

Only the three names that deferred actions are kept under have a value here: the list of actions,
the flag, and the action at hand. Every expression that uses none of them is opaque. Iterating over
the list of actions reads it live, round by round.
-/

namespace MacroEngine.Control

open Lowering

inductive Exit where
  | falls
  | returns
  | throws
deriving DecidableEq

/-- What a run does that concerns deferred actions and exits. -/
inductive Event where
  /-- An action is put on the list. -/
  | registers (action : Expr)
  /-- An action is called. -/
  | invokes (action : Expr)
  /-- The action that was just called throws. -/
  | fails
  /-- A `return` statement is reached. -/
  | returns

abbrev Trace := List Event

structure Store where
  actions : List Expr
  flag : Bool
  action : Option Expr

def bookkeeping : List String := [deferList, deferredFlag, actionName]

def memberParams : Member → List String
  | .field _ _ _ => []
  | .method _ head _ => head.params

/-- The names of variables that a node itself uses or binds. -/
def namesOf : Item → List String
  | .expr (.ident _ name) => [name]
  | .expr (.invoke _ name _) => [name]
  | .expr (.tagged _ tag _) => [tag]
  | .expr (.arrow _ params _ _) => params
  | .expr (.arrowExpr _ params _ _) => params
  | .expr (.function _ head _) => head.name.toList ++ head.params
  | .expr _ => []
  | .stmt (.importNames _ names _) => names
  | .stmt (.function _ head _) => head.name.toList ++ head.params
  | .stmt (.classDecl _ head members) =>
    head.name :: head.derives ++ members.flatMap memberParams
  | .stmt (.binding _ _ name _ _) => [name]
  | .stmt (.forOf _ _ name _ _) => [name]
  | .stmt _ => []

def Plain (items : List Item) : Prop := ∀ i ∈ items, ∀ name ∈ namesOf i, name ∉ bookkeeping

@[simp] theorem plain_nil : Plain [] := by simp [Plain]

@[simp] theorem plain_cons (i : Item) (items : List Item) :
    Plain (i :: items) ↔ (∀ name ∈ namesOf i, name ∉ bookkeeping) ∧ Plain items := by
  simp [Plain]

@[simp] theorem plain_append (items more : List Item) :
    Plain (items ++ more) ↔ Plain items ∧ Plain more := by
  simp only [Plain, List.mem_append]
  exact ⟨fun h => ⟨fun i hi => h i (.inl hi), fun i hi => h i (.inr hi)⟩,
    fun h i hi => hi.elim (h.1 i) (h.2 i)⟩

/-- An expression that uses no name for deferred actions, not even in the functions in it. -/
def PlainExpr (e : Expr) : Prop := Plain (e.items true)

def PlainStmts (ss : List Stmt) : Prop := Plain (Stmt.itemsAll true ss)

/-- The evaluation of an expression: it completes with a value that counts as true or false, or it
throws. -/
inductive Evaluates : Expr → Store → Trace → Store → Option Bool → Prop where
  | opaquely {e σ r} (h : PlainExpr e) : Evaluates e σ [] σ r
  /-- Puts a closure on the list. -/
  | push {s s₁ s₂ s₃ params isAsync body} {σ : Store} :
    Evaluates (.call s (.member s₁ (.ident s₂ deferList) "push")
        [.arrow s₃ params isAsync body]) σ
      [.registers (.arrow s₃ params isAsync body)]
      { σ with actions := σ.actions ++ [.arrow s₃ params isAsync body] } (some true)
  | mark {s s₁ s₂ b} {σ : Store} :
    Evaluates (.assign s (.ident s₁ deferredFlag) (.bool s₂ b)) σ [] { σ with flag := b } (some b)
  | pending {s s₁} {σ : Store} :
    Evaluates (.unary s .not (.ident s₁ deferredFlag)) σ [] σ (some !σ.flag)
  | invoke {s s₁ a b} {σ : Store} (h : σ.action = some a) :
    Evaluates (.call s (.ident s₁ actionName) []) σ [.invokes a] σ (some b)
  | fail {s s₁ a} {σ : Store} (h : σ.action = some a) :
    Evaluates (.call s (.ident s₁ actionName) []) σ [.invokes a, .fails] σ none
  | await {s e σ t σ' r} (h : Evaluates e σ t σ' r) : Evaluates (.await s e) σ t σ' r

/-- What runs: a statement, a statement list, the remaining rounds of a loop, or the remaining
rounds of a loop over the actions from the `next` one on. -/
inductive Code where
  | stmt (s : Stmt)
  | list (ss : List Stmt)
  | loop (body : List Stmt)
  | each (next : Nat) (body : List Stmt)

/-- A statement that only declares something, or nothing at all. -/
def isInert : Stmt → Bool
  | .importNames _ _ _ | .function _ _ _ | .classDecl _ _ _ | .binding _ _ _ none _ | .empty _ =>
    true
  | _ => false

/-- The runs of code. A deferred statement that no lowering has replaced has none. -/
inductive Runs : Code → Store → Trace → Store → Exit → Prop where
  | nil {σ} : Runs (.list []) σ [] σ .falls
  | next {s ss σ t σ₁ t' σ₂ x} (first : Runs (.stmt s) σ t σ₁ .falls)
      (rest : Runs (.list ss) σ₁ t' σ₂ x) : Runs (.list (s :: ss)) σ (t ++ t') σ₂ x
  | leave {s ss σ t σ₁ x} (first : Runs (.stmt s) σ t σ₁ x) (hx : x ≠ .falls) :
    Runs (.list (s :: ss)) σ t σ₁ x
  | inert {s σ} (h : isInert s = true) : Runs (.stmt s) σ [] σ .falls
  | expr {s e σ t σ₁ b} (h : Evaluates e σ t σ₁ (some b)) : Runs (.stmt (.expr s e)) σ t σ₁ .falls
  | exprThrows {s e σ t σ₁} (h : Evaluates e σ t σ₁ none) : Runs (.stmt (.expr s e)) σ t σ₁ .throws
  | bindActions {s s₁ k v} {σ : Store} :
    Runs (.stmt (.binding s k deferList (some (.array s₁ [])) v)) σ [] { σ with actions := [] }
      .falls
  | bindFlag {s s₁ k b v} {σ : Store} :
    Runs (.stmt (.binding s k deferredFlag (some (.bool s₁ b)) v)) σ [] { σ with flag := b } .falls
  | bind {s k name e v σ t σ₁ b} (hname : name ∉ bookkeeping)
      (h : Evaluates e σ t σ₁ (some b)) : Runs (.stmt (.binding s k name (some e) v)) σ t σ₁ .falls
  | bindThrows {s k name e v σ t σ₁} (hname : name ∉ bookkeeping)
      (h : Evaluates e σ t σ₁ none) : Runs (.stmt (.binding s k name (some e) v)) σ t σ₁ .throws
  | ret {s σ} : Runs (.stmt (.ret s none)) σ [.returns] σ .returns
  | retValue {s e σ t σ₁ b} (h : Evaluates e σ t σ₁ (some b)) :
    Runs (.stmt (.ret s (some e))) σ (.returns :: t) σ₁ .returns
  | retThrows {s e σ t σ₁} (h : Evaluates e σ t σ₁ none) :
    Runs (.stmt (.ret s (some e))) σ (.returns :: t) σ₁ .throws
  | throwExpr {s e σ t σ₁ r} (h : Evaluates e σ t σ₁ r) :
    Runs (.stmt (.throwExpr s e)) σ t σ₁ .throws
  | ifThrows {s c a e σ t σ₁} (h : Evaluates c σ t σ₁ none) :
    Runs (.stmt (.ifElse s c a e)) σ t σ₁ .throws
  | ifTrue {s c a e σ t σ₁ t' σ₂ x} (h : Evaluates c σ t σ₁ (some true))
      (branch : Runs (.list a.stmts) σ₁ t' σ₂ x) : Runs (.stmt (.ifElse s c a e)) σ (t ++ t') σ₂ x
  | ifFalse {s c a e σ t σ₁ t' σ₂ x} (h : Evaluates c σ t σ₁ (some false))
      (branch : Runs (.stmt e) σ₁ t' σ₂ x) :
    Runs (.stmt (.ifElse s c a (some e))) σ (t ++ t') σ₂ x
  | ifNothing {s c a σ t σ₁} (h : Evaluates c σ t σ₁ (some false)) :
    Runs (.stmt (.ifElse s c a none)) σ t σ₁ .falls
  | whileThrows {s c b σ t σ₁} (h : Evaluates c σ t σ₁ none) :
    Runs (.stmt (.whileLoop s c b)) σ t σ₁ .throws
  | whileDone {s c b σ t σ₁} (h : Evaluates c σ t σ₁ (some false)) :
    Runs (.stmt (.whileLoop s c b)) σ t σ₁ .falls
  | whileNext {s c b σ t σ₁ t' σ₂ t'' σ₃ x} (h : Evaluates c σ t σ₁ (some true))
      (round : Runs (.list b.stmts) σ₁ t' σ₂ .falls)
      (more : Runs (.stmt (.whileLoop s c b)) σ₂ t'' σ₃ x) :
    Runs (.stmt (.whileLoop s c b)) σ (t ++ (t' ++ t'')) σ₃ x
  | whileLeave {s c b σ t σ₁ t' σ₂ x} (h : Evaluates c σ t σ₁ (some true))
      (round : Runs (.list b.stmts) σ₁ t' σ₂ x) (hx : x ≠ .falls) :
    Runs (.stmt (.whileLoop s c b)) σ (t ++ t') σ₂ x
  | forThrows {s k name e b σ t σ₁} (h : Evaluates e σ t σ₁ none) :
    Runs (.stmt (.forOf s k name e b)) σ t σ₁ .throws
  | forOf {s k name e b σ t σ₁ v t' σ₂ x} (hname : name ∉ bookkeeping)
      (h : Evaluates e σ t σ₁ (some v)) (rounds : Runs (.loop b.stmts) σ₁ t' σ₂ x) :
    Runs (.stmt (.forOf s k name e b)) σ (t ++ t') σ₂ x
  | forActions {s s₁ k b σ t σ₁ x} (rounds : Runs (.each 0 b.stmts) σ t σ₁ x) :
    Runs (.stmt (.forOf s k actionName (.ident s₁ deferList) b)) σ t σ₁ x
  | loopDone {b σ} : Runs (.loop b) σ [] σ .falls
  | loopThrows {b σ} : Runs (.loop b) σ [] σ .throws
  | loopNext {b σ t σ₁ t' σ₂ x} (round : Runs (.list b) σ t σ₁ .falls)
      (more : Runs (.loop b) σ₁ t' σ₂ x) : Runs (.loop b) σ (t ++ t') σ₂ x
  | loopLeave {b σ t σ₁ x} (round : Runs (.list b) σ t σ₁ x) (hx : x ≠ .falls) :
    Runs (.loop b) σ t σ₁ x
  | eachDone {i b} {σ : Store} (h : σ.actions[i]? = none) : Runs (.each i b) σ [] σ .falls
  | eachNext {i b a t σ₁ t' σ₂ x} {σ : Store} (h : σ.actions[i]? = some a)
      (round : Runs (.list b) { σ with action := some a } t σ₁ .falls)
      (more : Runs (.each (i + 1) b) σ₁ t' σ₂ x) : Runs (.each i b) σ (t ++ t') σ₂ x
  | eachLeave {i b a t σ₁ x} {σ : Store} (h : σ.actions[i]? = some a)
      (round : Runs (.list b) { σ with action := some a } t σ₁ x) (hx : x ≠ .falls) :
    Runs (.each i b) σ t σ₁ x
  | block {s b σ t σ₁ x} (h : Runs (.list b.stmts) σ t σ₁ x) : Runs (.stmt (.block s b)) σ t σ₁ x
  | finallyFalls {s b f σ t σ₁ x t' σ₂} (body : Runs (.list b.stmts) σ t σ₁ x)
      (finalizer : Runs (.list f.stmts) σ₁ t' σ₂ .falls) :
    Runs (.stmt (.tryFinally s b f)) σ (t ++ t') σ₂ x
  | finallyLeaves {s b f σ t σ₁ x t' σ₂ y} (body : Runs (.list b.stmts) σ t σ₁ x)
      (finalizer : Runs (.list f.stmts) σ₁ t' σ₂ y) (hy : y ≠ .falls) :
    Runs (.stmt (.tryFinally s b f)) σ (t ++ t') σ₂ y

def registered (t : Trace) : List Expr :=
  t.filterMap fun
    | .registers a => some a
    | _ => none

def invoked (t : Trace) : List Expr :=
  t.filterMap fun
    | .invokes a => some a
    | _ => none

def returnCount (t : Trace) : Nat :=
  t.countP fun
    | .returns => true
    | _ => false

/-- No deferred action throws. -/
def Quiet (t : Trace) : Prop := .fails ∉ t

section Trace

variable (t u : Trace) (a : Expr)

@[simp] theorem registered_nil : registered [] = [] := rfl

@[simp] theorem invoked_nil : invoked [] = [] := rfl

@[simp] theorem returnCount_nil : returnCount [] = 0 := rfl

@[simp] theorem registered_append : registered (t ++ u) = registered t ++ registered u :=
  List.filterMap_append

@[simp] theorem invoked_append : invoked (t ++ u) = invoked t ++ invoked u :=
  List.filterMap_append

@[simp] theorem returnCount_append : returnCount (t ++ u) = returnCount t + returnCount u :=
  List.countP_append

@[simp] theorem quiet_append : Quiet (t ++ u) ↔ Quiet t ∧ Quiet u := by
  simp [Quiet]

@[simp] theorem registered_registers : registered (.registers a :: t) = a :: registered t := rfl

@[simp] theorem invoked_registers : invoked (.registers a :: t) = invoked t := rfl

@[simp] theorem registered_returns : registered (.returns :: t) = registered t := rfl

@[simp] theorem invoked_returns : invoked (.returns :: t) = invoked t := rfl

@[simp] theorem returnCount_registers : returnCount (.registers a :: t) = returnCount t := by
  simp [returnCount]

@[simp] theorem returnCount_returns : returnCount (.returns :: t) = returnCount t + 1 := by
  simp [returnCount]

@[simp] theorem quiet_returns : Quiet (.returns :: t) ↔ Quiet t := by
  simp [Quiet]

end Trace

@[simp] theorem registered_map_invokes (as : List Expr) : registered (as.map .invokes) = [] := by
  simp [registered]

@[simp] theorem invoked_map_invokes (as : List Expr) : invoked (as.map .invokes) = as := by
  induction as with
  | nil => rfl
  | cons a as ih => exact congrArg (a :: ·) ih

@[simp] theorem returnCount_map_invokes (as : List Expr) :
    returnCount (as.map .invokes) = 0 := by
  simp [returnCount]

/-- A plain expression leaves no trace and changes nothing. -/
theorem Evaluates.of_plain {e : Expr} {σ σ' : Store} {t : Trace} {r : Option Bool}
    (h : Evaluates e σ t σ' r) (hp : PlainExpr e) : t = [] ∧ σ' = σ := by
  induction h with
  | opaquely => exact ⟨rfl, rfl⟩
  | await h ih => exact ih (by simpa [PlainExpr, Expr.items, namesOf] using hp)
  | push | mark | pending | invoke | fail =>
    simp [PlainExpr, Expr.items, Expr.itemsAll, namesOf, bookkeeping] at hp

end MacroEngine.Control
