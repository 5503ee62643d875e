import MacroEngine.Config
import MacroEngine.Edits
import MacroEngine.Registry
import MacroEngine.Tree.Shape
import MacroEngine.Tree.Walk

/-!
# Expanding a file

One walk through a file, statement by statement and from the outside in, runs every bound site
through its hooks and every class through its derives. Statements that hooks put next to a site go
into the innermost statement list around it. A replacement is visited again, since it may hold
bound sites, or be one; a site that is being expanded is not expanded again inside itself. After
the walk the patches of the file are applied.

Derived classes have no such guard: a derive that puts a class like its own into the class never
comes to an end. So the walk carries a bound on its depth, and running into it is an error, which
stands for an expansion that does not end. The first error stops all further expansion.
-/

namespace MacroEngine

/-- What a walk does not change: the file as parsed, the registry, and what to do about misses. -/
structure ExpansionSetting where
  file : FileView
  registry : Registry
  unresolvedDerive : MissPolicy

/-- A run through hooks that has come to its end. -/
inductive HookRun where
  /-- A site ran through the hooks of the declaration that governs it. -/
  | site (declaration : Declaration) (site : Expr) (beside : Beside)
  /-- A class ran through its derives. -/
  | derives (cls : Stmt) (beside : Beside)

namespace HookRun

def isSite : HookRun → Bool
  | .site _ _ _ => true
  | .derives _ _ => false

def beside : HookRun → Beside
  | .site _ _ b => b
  | .derives _ b => b

end HookRun

/-- What a walk changes. -/
structure Expansion where
  shop : Workshop
  hooks : HookCache
  patcher : Patcher
  /-- What goes next to the statement being visited. -/
  beside : Beside
  /-- The sites being expanded, innermost first. -/
  expanding : List NodeId
  /-- The runs through hooks so far, the latest first. -/
  runs : List HookRun
  warnings : List String
  /-- The first error. -/
  halted : Option Error

abbrev Walk := StateM Expansion

namespace Walk

def work {α : Type} (x : Work α) : Walk α :=
  modifyGet fun st =>
    let (a, shop) := x.run st.shop
    (a, { st with shop })

def isHalted : Walk Bool := return (← get).halted.isSome

/-- Notes an error, unless there is one already. -/
def halt (e : Error) : Walk Unit := modify fun st => { st with halted := st.halted.or (some e) }

def hooksFor (d : Declaration) : Walk (Except Error Hooks) := do
  let st ← get
  let (hooks, cache) ← work (st.hooks.hooksFor d)
  modify fun st => { st with hooks := cache }
  return hooks.mapError .load

/-- Notes a run through hooks; what these put beside goes next to the statement being visited. -/
def record (run : HookRun) : Walk Unit :=
  modify fun st => { st with runs := run :: st.runs, beside := st.beside ++ run.beside }

/-- Notes a site as being expanded, and the last one noted as done. -/
def enter (site : NodeId) : Walk Unit :=
  modify fun st => { st with expanding := site :: st.expanding }

def leave : Walk Unit := modify fun st => { st with expanding := st.expanding.drop 1 }

end Walk

open Walk

/-- Applies the policy for derive names to each name that means nothing, up to a failure. -/
def reportUnresolved (policy : MissPolicy) (className : String) :
    List String → Walk (Except Error Unit)
  | [] => return .ok ()
  | name :: more => do
    match policy.apply (.unresolvedDerive className name) with
    | .error e => return .error e
    | .ok warnings => do
      modify fun st => { st with warnings := st.warnings ++ warnings }
      reportUnresolved policy className more

def hooksForAll : List Declaration → Walk (Except Error (List (Declaration × Hooks)))
  | [] => return .ok []
  | d :: ds => do
    match ← hooksFor d with
    | .error e => return .error e
    | .ok hooks =>
      match ← hooksForAll ds with
      | .error e => return .error e
      | .ok more => return .ok ((d, hooks) :: more)

/-- Runs a class through its derives. What becomes of it keeps the identity of the class. -/
def expandClass (g : ExpansionSetting) (s : Stmt) : Walk (Except Error (Option Stmt)) :=
  match s with
  | .classDecl _ head _ => do
    match ← reportUnresolved g.unresolvedDerive head.name (g.registry.unresolvedDerives head) with
    | .error e => return .error e
    | .ok () =>
      match g.registry.deriveDeclarations head with
      | [] => return .ok (some s)
      | d :: ds =>
        match ← hooksForAll (d :: ds) with
        | .error e => return .error e
        | .ok derives => do
          let st ← get
          let (out, beside, patcher) ← work (transformClass g.file derives s st.patcher)
          modify fun st => { st with patcher }
          record (.derives s beside)
          return .ok (out.map (·.withId s.id))
  | _ => return .ok (some s)

/-- Runs a site through its hooks and answers what stands there now. After an error of its hooks
that is `null`. -/
def expandSite (g : ExpansionSetting) (d : Declaration) (site : Expr) :
    Walk (Expr × Except Error Unit) := do
  match ← hooksFor d with
  | .error e => return (site, .error e)
  | .ok hooks => do
    let st ← get
    let (out, patcher) ← work (transformSite g.file d hooks site st.patcher)
    modify fun st => { st with patcher }
    match out with
    | .error e => return (.null site.stamp, .error e)
    | .ok (e, beside) => do
      record (.site d site beside)
      return (e, .ok ())

def governing? (g : ExpansionSetting) (e : Expr) : Option Declaration :=
  e.useSite?.bind fun (kind, _) => g.registry.binding? kind e.id

/-- A statement of a list, once its derives have run if it is a class; nothing if one of them takes
it away or fails. -/
def derivedEntry (g : ExpansionSetting) (s : Stmt) : Walk (Option Stmt) :=
  if s.isDerivedClass then do
    match ← expandClass g s with
    | .ok s => return s
    | .error e => do
      halt e
      return none
  else return some s

def visitKept (visit : Stmt → Walk Stmt) : Option Stmt → Walk (List Stmt)
  | none => return []
  | some s => return [← visit s]

/-- Visits a statement and puts next to it what hooks put beside it meanwhile. -/
def withBeside (x : Walk (List Stmt)) : Walk (List Stmt) := do
  let outer := (← get).beside
  modify fun st => { st with beside := .empty }
  let visited ← x
  let own := (← get).beside
  modify fun st => { st with beside := outer }
  return own.before ++ visited ++ own.after

/-- Visits one statement of a list, and answers what stands in its place. -/
def expandEntry (g : ExpansionSetting) (visit : Stmt → Walk Stmt) (s : Stmt) :
    Walk (List Stmt) := do
  if ← isHalted then return [s]
  else withBeside (derivedEntry g s >>= visitKept visit)

/-- What follows when a site has run: a replacement is visited, and a site that kept its identity is
visited inside. -/
def afterSite (visit inside : Expr → Walk Expr) (site : NodeId) :
    Expr × Except Error Unit → Walk Expr
  | (e, .error err) => do
    halt err
    return e
  | (e, .ok ()) => if e.id ≠ site then visit e else inside e

/-- Runs a site and visits what stands there then; meanwhile the site counts as being expanded. -/
def expandOpen (g : ExpansionSetting) (visit inside : Expr → Walk Expr) (d : Declaration)
    (e : Expr) : Walk Expr := do
  enter e.id
  let out ← expandSite g d e >>= afterSite visit inside e.id
  leave
  return out

mutual

/-- Visits an expression; the first argument bounds the depth of the walk. -/
def expandExpr (g : ExpansionSetting) : Nat → Expr → Walk Expr
  | 0, e => do
    halt (.endlessExpansion g.file.path)
    return e
  | n + 1, e => do
    let inside : ChildMap Walk := ⟨expandExpr g n, expandStmt g n, expandStmts g n⟩
    if ← isHalted then return e
    else
      match governing? g e with
      | none => e.mapChildren inside
      | some d => do
        if (← get).expanding.contains e.id then e.mapChildren inside
        else expandOpen g (expandExpr g n) (Expr.mapChildren inside) d e

/-- Visits a statement that is not in a list of its own. -/
def expandStmt (g : ExpansionSetting) : Nat → Stmt → Walk Stmt
  | 0, s => do
    halt (.endlessExpansion g.file.path)
    return s
  | n + 1, s => s.mapChildren ⟨expandExpr g n, expandStmt g n, expandStmts g n⟩

def expandStmts (g : ExpansionSetting) : Nat → List Stmt → Walk (List Stmt)
  | 0, ss => do
    halt (.endlessExpansion g.file.path)
    return ss
  | n + 1, ss => return (← ss.mapM (expandEntry g (expandStmt g n))).flatten

end

structure ExpansionCounts where
  sites : Nat
  derivedClasses : Nat
  /-- Statements added by patches. -/
  patches : Nat

def applyPatches (file : FileView) (policy : MissPolicy) (patcher : Patcher)
    (statements : List Stmt) : List Stmt × Nat × Except Error (List String) :=
  if patcher.isEmpty then (statements, 0, .ok [])
  else
    let out := patcher.patchAgainst file.statements statements
    let missed := out.dropped.length
    (out.statements, patcher.size - missed,
      if missed = 0 then .ok []
      else policy.apply (.unresolvedAnchors file.path missed))

def Expansion.siteCount (st : Expansion) : Nat := st.runs.countP HookRun.isSite

def Expansion.classCount (st : Expansion) : Nat := st.runs.countP fun run => !run.isSite

def Expansion.start (shop : Workshop) (hooks : HookCache) : Expansion where
  shop := shop
  hooks := hooks
  patcher := .empty
  beside := .empty
  expanding := []
  runs := []
  warnings := []
  halted := none

/-- What becomes of a file that is expanded: the file, which an error may leave half done, the
outcome, and the final state of the walk. -/
structure Expanded where
  file : SourceFile
  outcome : Except Error ExpansionCounts
  final : Expansion

/-- Expands a file in a walk of at most the given depth. -/
def SourceFile.expand (file : SourceFile) (registry : Registry) (config : Config) (depth : Nat)
    (shop : Workshop) (hooks : HookCache) : Expanded :=
  let view : FileView := ⟨file.path, file.statements⟩
  let g : ExpansionSetting := ⟨view, registry, config.unresolvedDerive⟩
  let (statements, st) := (expandStmts g depth file.statements).run (.start shop hooks)
  match st.halted with
  | some e => ⟨{ file with statements }, .error e, st⟩
  | none =>
    let (patched, added, outcome) := applyPatches view config.unmatchedAnchor st.patcher statements
    let file := { file with statements := patched }
    match outcome with
    | .error e => ⟨file, .error e, st⟩
    | .ok warnings =>
      ⟨file, .ok ⟨st.siteCount, st.classCount, added⟩,
        { st with warnings := st.warnings ++ warnings }⟩

end MacroEngine
