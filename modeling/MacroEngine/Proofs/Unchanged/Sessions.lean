import MacroEngine.Session
import MacroEngine.Proofs.Unchanged.Registration

/-!
# Sessions that operations lead to

A new session has bound nothing and loaded nothing. Every operation after that keeps the session
coherent: the sites that are bound have identities that were given before, and the loader has only
been called. Hooks are arbitrary, so where they run one thing is asked of them: that they do not
give identities back.
-/

namespace MacroEngine

/-- Parsing a text only uses up identities. -/
theorem SourceFile.parse_le (path : SourcePath) (text : String) (n : NodeId) :
    n ≤ ((SourceFile.parse path text).run n).2 := by
  rcases hrun : (SourceFile.parse path text).run n with ⟨outcome, k⟩
  cases outcome with
  | ok file => exact (SourceFile.parse_numbered hrun).1.le
  | error e =>
    unfold SourceFile.parse at hrun
    cases hp : Grammar.recognize text.toList with
    | error m =>
      rw [hp] at hrun
      exact Nat.le_of_eq (congrArg Prod.snd hrun)
    | ok p =>
      rw [hp] at hrun
      dsimp only [StateT.run] at hrun
      cases hread : Grammar.fileOf path p n with
      | none =>
        rw [hread] at hrun
        exact Nat.le_of_eq (congrArg Prod.snd hrun)
      | some r =>
        rw [hread] at hrun
        cases hrun

theorem SourceFile.hooks_conclude {file : SourceFile} {config : Config}
    (walked : List Stmt × Expansion) :
    (file.conclude config walked).final.hooks = walked.2.hooks := by
  unfold conclude
  split
  · rfl
  · dsimp only
    split <;> rfl

namespace Session

section Runs

variable {α β : Type} (s : Session)

theorem run_bind (x : Step α) (f : α → Step β) :
    (x >>= f).run.run s =
      match x.run.run s with
      | (.error e, s) => (.error e, s)
      | (.ok a, s) => (f a).run.run s := by
  rw [ExceptT.run_bind, StateT.run_bind]
  generalize x.run.run s = out
  obtain ⟨_ | _, _⟩ := out <;> rfl

theorem run_bind_eq_ok {s s' : Session} {x : Step α} {f : α → Step β} {b : β} :
    (x >>= f).run.run s = (.ok b, s') ↔
      ∃ a s₁, x.run.run s = (.ok a, s₁) ∧ (f a).run.run s₁ = (.ok b, s') := by
  rw [run_bind]
  generalize x.run.run s = out
  obtain ⟨e | a, s₁⟩ := out
  · exact ⟨(nomatch ·), fun ⟨_, _, h, _⟩ => nomatch h⟩
  · refine ⟨fun h => ⟨a, s₁, rfl, h⟩, fun ⟨_, _, heq, h⟩ => ?_⟩
    cases heq
    exact h

theorem run_collectAll_cons (file : SourceFile) (more : List SourceFile) :
    (collectAll (file :: more)).run.run s =
      match s.registry.collect file with
      | .error e => (.error e, s)
      | .ok registry => (collectAll more).run.run { s with registry } := by
  rw [collectAll, run_bind]
  change (match s.registry.collect file with
    | .error e => (throw e : Step Unit)
    | .ok registry => do
      set { s with registry }
      collectAll more).run.run s = _
  cases s.registry.collect file <;> rfl

theorem run_register (files : List SourceFile) :
    (register files).run.run s =
      match (collectAll files).run.run s with
      | (.error e, s) => (.error e, s)
      | (.ok (), s) => (.ok (), { s with
          registry := files.foldl (fun r file => (r.bindSites file).2)
            (s.registry.collectDependencies files).2 }) := by
  rw [register, run_bind]
  generalize (collectAll files).run.run s = out
  obtain ⟨_ | _, _⟩ := out <;> rfl

theorem run_build (x : Fresh α) :
    (build x).run s = ((x.run s.shop.nextId).1,
      { s with shop := { s.shop with nextId := (x.run s.shop.nextId).2 } }) := rfl

theorem run_parse (path : SourcePath) (text : String) :
    (parse path text).run.run s = (build (SourceFile.parse path text)).run s := rfl

def withNext (next : NodeId) : Session := { s with shop := { s.shop with nextId := next } }

theorem run_parse_eq_ok {s s' : Session} {path : SourcePath} {text : String} {file : SourceFile} :
    (parse path text).run.run s = (.ok file, s') ↔
      ∃ k, (SourceFile.parse path text).run s.shop.nextId = (.ok file, k) ∧ s' = s.withNext k := by
  rw [run_parse]
  generalize SourceFile.parse path text = x
  rw [run_build]
  generalize x.run s.shop.nextId = out
  obtain ⟨answer, k⟩ := out
  constructor
  · intro h
    obtain ⟨rfl, rfl⟩ := Prod.mk.inj h
    exact ⟨k, rfl, rfl⟩
  · rintro ⟨_, heq, rfl⟩
    cases heq
    rfl

def expanded (out : Expanded) : Session :=
  { s with
    shop := out.final.shop
    hooks := out.final.hooks
    warnings := s.warnings ++ out.final.warnings }

theorem run_expand (file : SourceFile) : (expand file).run s =
    let out := file.expand s.registry s.config (expansionDepth file) s.shop s.hooks
    ((out.file, out.outcome), s.expanded out) := rfl

theorem run_transform (file : SourceFile) :
    (transform file).run s =
      match (expand file).run s with
      | ((file, .error e), s) => ((file, .error e), s)
      | ((file, .ok counts), s) =>
        match (build (Lowering.defers file)).run s with
        | ((file, .error e), s) => ((file, .error e), s)
        | ((file, .ok deferBodies), s) =>
          let lowered := if s.operators.size = 0 then ((file, 0), s)
            else (build (Lowering.operators s.operators file)).run s
          ((lowered.1.1, .ok ⟨counts.sites, counts.derivedClasses, counts.patches, deferBodies,
            lowered.1.2⟩), lowered.2) := by
  rw [transform, StateT.run_bind]
  generalize (expand file).run s = out
  obtain ⟨⟨file, _ | counts⟩, s⟩ := out
  · rfl
  · change (build (Lowering.defers file) >>= _ : StateM Session _).run s = _
    rw [StateT.run_bind]
    dsimp only
    generalize (build (Lowering.defers file)).run s = out
    obtain ⟨⟨file, _ | deferBodies⟩, s⟩ := out
    · rfl
    · change (ite (s.operators.size = 0) _ _ : StateM Session _).run s = _
      by_cases hsize : s.operators.size = 0
      · rw [if_pos hsize]
        dsimp only
        rw [if_pos hsize]
        rfl
      · rw [if_neg hsize]
        dsimp only
        rw [if_neg hsize]
        rfl

theorem run_compileRegistered (file : SourceFile) :
    (compileRegistered file).run.run s =
      match (transform file).run s with
      | ((_, .error e), s) => (.error e, s)
      | ((file, .ok report), s) => (.ok ⟨file.path, file.print, report⟩, s) := by
  have hlift : (liftM (transform file) : Step (SourceFile × Except Error Report)).run.run s =
      (.ok ((transform file).run s).1, ((transform file).run s).2) := rfl
  rw [compileRegistered, run_bind, hlift]
  generalize (transform file).run s = out
  obtain ⟨⟨file, _ | report⟩, s⟩ := out <;> rfl

end Runs

/-- A new session has given no identities, knows no macros and has loaded no hooks. -/
theorem of_new {config : Config} {table : ModuleTable} {s : Session}
    (h : Session.new config table = .ok s) :
    s.shop.nextId = 0 ∧ s.registry = .empty ∧ s.hooks = .new table := by
  unfold Session.new at h
  cases hoperators : OperatorTable.ofTokens config.operators .empty with
  | error e =>
    rw [hoperators] at h
    cases h
  | ok operators =>
    rw [hoperators] at h
    obtain rfl := Except.ok.inj h
    exact ⟨rfl, rfl, rfl⟩

/-- Between operations the sites that are bound have identities that were given, and the loader is
in a state that calls lead to. -/
structure Coherent (s : Session) : Prop where
  bound : s.registry.BoundBelow s.shop.nextId
  loader : ∃ table, Loader.Reached table s.hooks.loader

inductive Reached : Session → Prop
  | new {config : Config} {table : ModuleTable} {s : Session} (h : new config table = .ok s) :
    Reached s
  | parse {s : Session} (path : SourcePath) (text : String) (h : Reached s) :
    Reached ((parse path text).run.run s).2
  | register {s : Session} (files : List SourceFile) (h : Reached s)
    (hgiven : ∀ file ∈ files, ∀ i ∈ file.items, i.id < s.shop.nextId) :
    Reached ((register files).run.run s).2
  | transform {s : Session} (file : SourceFile) (h : Reached s)
    (hids : s.shop.nextId ≤ ((transform file).run s).2.shop.nextId) :
    Reached ((transform file).run s).2
  | hooksFor {s : Session} (d : Declaration) (h : Reached s)
    (hids : s.shop.nextId ≤ ((hooksFor d).run.run s).2.shop.nextId) :
    Reached ((hooksFor d).run.run s).2
  | check {s : Session} (file : SourceFile) (checker : TypeChecker) (h : Reached s)
    (hids : s.shop.nextId ≤ ((check file checker).run.run s).2.shop.nextId) :
    Reached ((check file checker).run.run s).2
  | registerOperator {s : Session} (op : BinaryOp) (callee : String) (h : Reached s) :
    Reached ((registerOperator op callee).run s).2
  | reset {s : Session} (h : Reached s) : Reached (reset.run s).2

section Changes

variable {s s' : Session} {α β : Type}

/-- What hooks may do to a session: no site is bound, the settings stay, and the loader is only
called. -/
structure Runs (s s' : Session) : Prop where
  registry : s'.registry = s.registry
  config : s'.config = s.config
  loader : ∀ table, Loader.Reached table s.hooks.loader → Loader.Reached table s'.hooks.loader

theorem Runs.refl (s : Session) : Runs s s := ⟨rfl, rfl, fun _ h => h⟩

theorem Runs.trans {s₁ : Session} (h : Runs s s₁) (h' : Runs s₁ s') : Runs s s' :=
  ⟨h'.registry.trans h.registry, h'.config.trans h.config,
    fun table hl => h'.loader table (h.loader table hl)⟩

theorem Coherent.runs (h : Coherent s) (hruns : Runs s s')
    (hids : s.shop.nextId ≤ s'.shop.nextId) : Coherent s' where
  bound := by
    rw [hruns.registry]
    exact h.bound.mono hids
  loader := h.loader.imp hruns.loader

/-- A step after which a session has a property that it had before. -/
def Keeps (P : Session → Prop) (x : Step α) : Prop := ∀ s, P s → P (x.run.run s).2

theorem Keeps.pure {P : Session → Prop} (a : α) : Keeps P (Pure.pure a) := fun _ h => h

theorem Keeps.bind {P : Session → Prop} {x : Step α} {f : α → Step β} (hx : Keeps P x)
    (hf : ∀ a, Keeps P (f a)) : Keeps P (x >>= f) := by
  intro s hs
  have hfirst := hx s hs
  rw [run_bind]
  generalize x.run.run s = out at hfirst
  obtain ⟨_ | a, s'⟩ := out
  · exact hfirst
  · exact hf a s' hfirst

theorem Keeps.mapM {P : Session → Prop} {f : α → Step β} {as : List α}
    (hf : ∀ a ∈ as, Keeps P (f a)) : Keeps P (as.mapM f) := by
  induction as with
  | nil => exact .pure []
  | cons a as ih =>
    obtain ⟨ha, has⟩ := List.forall_mem_cons.mp hf
    rw [List.mapM_cons]
    exact ha.bind fun b => (ih has).bind fun bs => .pure (b :: bs)

/-- A step that runs hooks and does nothing else to the session. -/
def OnlyRuns (x : Step α) : Prop := ∀ s, Runs s (x.run.run s).2

theorem OnlyRuns.keeps {x : Step α} (hx : OnlyRuns x) (s : Session) : Keeps (Runs s) x :=
  fun s' h => h.trans (hx s')

theorem OnlyRuns.pure (a : α) : OnlyRuns (Pure.pure a) := fun s => .refl s

theorem OnlyRuns.bind {x : Step α} {f : α → Step β} (hx : OnlyRuns x) (hf : ∀ a, OnlyRuns (f a)) :
    OnlyRuns (x >>= f) := fun s => (hx.keeps s).bind (fun a => (hf a).keeps s) s (.refl s)

theorem OnlyRuns.mapM {f : α → Step β} (hf : ∀ a, OnlyRuns (f a)) (as : List α) :
    OnlyRuns (as.mapM f) := fun s => Keeps.mapM (fun a _ => (hf a).keeps s) s (.refl s)

theorem hooksFor_onlyRuns (d : Declaration) : OnlyRuns (hooksFor d) := by
  intro s
  refine ⟨?_, ?_, fun table h => ?_⟩
  · rfl
  · rfl
  · exact HookCache.reached_hooksFor h s.shop

theorem checkSite_onlyRuns (path : SourcePath) (checker : TypeChecker) (d : Declaration)
    (site : Expr) : OnlyRuns (checkSite path checker d site) := by
  refine (hooksFor_onlyRuns d).bind fun hooks => ?_
  cases hooks.check.getLast? with
  | none => exact .pure _
  | some check => exact fun s => ⟨rfl, rfl, fun _ h => h⟩

theorem check_onlyRuns (file : SourceFile) (checker : TypeChecker) :
    OnlyRuns (check file checker) := by
  have hget : OnlyRuns (get : Step Session) := fun s => .refl s
  refine hget.bind fun s => ?_
  refine OnlyRuns.bind (.mapM (fun _ => ?_) _) fun _ => .pure _
  exact (checkSite_onlyRuns _ _ _ _).bind fun _ => .pure _

theorem build_runs (x : Fresh α) (s : Session) : Runs s ((build x).run s).2 :=
  ⟨rfl, rfl, fun _ h => h⟩

/-- Expanding a file runs hooks, and lowering it builds nodes. -/
theorem transform_runs (file : SourceFile) (s : Session) : Runs s ((transform file).run s).2 := by
  have hexpand : Runs s ((expand file).run s).2 := by
    refine ⟨rfl, rfl, fun table h => ?_⟩
    change Loader.Reached table (file.expand _ _ _ _ _).final.hooks.loader
    rw [SourceFile.expand_eq_conclude, SourceFile.hooks_conclude]
    exact ((Expansion.children_go _).2.2 file.statements (.start s.shop s.hooks)).loader table h
  rw [run_transform]
  generalize (expand file).run s = out at hexpand
  obtain ⟨⟨file, _ | counts⟩, s₁⟩ := out
  · exact hexpand
  · have hdefers := build_runs (Lowering.defers file) s₁
    dsimp only at hexpand ⊢
    generalize (build (Lowering.defers file)).run s₁ = out at hdefers
    obtain ⟨⟨file, _ | deferBodies⟩, s₂⟩ := out
    · exact hexpand.trans hdefers
    · refine (hexpand.trans hdefers).trans ?_
      dsimp only
      split
      · exact .refl s₂
      · exact build_runs _ s₂

theorem parse_onlyRuns (path : SourcePath) (text : String) : OnlyRuns (parse path text) := by
  intro s
  rw [run_parse]
  exact build_runs _ s

theorem compileRegistered_onlyRuns (file : SourceFile) : OnlyRuns (compileRegistered file) := by
  intro s
  have hruns := transform_runs file s
  rw [run_compileRegistered]
  generalize (transform file).run s = out at hruns
  obtain ⟨⟨file, e | report⟩, s'⟩ := out <;> exact hruns

/-- Entering declarations binds no site and leaves all but the registry alone. -/
theorem collectAll_keeps (files : List SourceFile) (s : Session) :
    ∃ registry : Registry, ((collectAll files).run.run s).2 = { s with registry } ∧
      registry.bindings ⊆ s.registry.bindings := by
  induction files generalizing s with
  | nil => exact ⟨s.registry, rfl, fun _ h => h⟩
  | cons file files ih =>
    rw [run_collectAll_cons]
    cases hcollect : s.registry.collect file with
    | error e => exact ⟨s.registry, rfl, fun _ h => h⟩
    | ok registry =>
      obtain ⟨registry', heq, hsub⟩ := ih { s with registry }
      exact ⟨registry', heq, List.Subset.trans hsub (Registry.bindings_collect hcollect)⟩

theorem Coherent.register (h : Coherent s) {files : List SourceFile}
    (hgiven : ∀ file ∈ files, ∀ i ∈ file.items, i.id < s.shop.nextId) :
    Coherent ((register files).run.run s).2 := by
  obtain ⟨registry, heq, hsub⟩ := collectAll_keeps files s
  rw [run_register]
  generalize (collectAll files).run.run s = out at heq
  obtain ⟨outcome, s'⟩ := out
  obtain rfl : s' = { s with registry } := heq
  have hcollected : registry.BoundBelow s.shop.nextId := h.bound.of_subset hsub
  cases outcome with
  | error e => exact ⟨hcollected, h.loader⟩
  | ok =>
    refine ⟨?_, h.loader⟩
    have hdepends : (registry.collectDependencies files).2.BoundBelow s.shop.nextId := by
      refine hcollected.of_subset ?_
      rw [Registry.bindings_collectDependencies]
      exact List.Subset.refl _
    change Registry.BoundBelow (List.foldl _ (registry.collectDependencies files).2 files) _
    generalize (registry.collectDependencies files).2 = r at hdepends
    clear hsub hcollected
    induction files generalizing r with
    | nil => exact hdepends
    | cons file files ih =>
      exact ih (fun file hfile => hgiven file (List.mem_cons_of_mem _ hfile)) _
        (hdepends.bindSites (hgiven file List.mem_cons_self))

/-- Every session that operations lead to is coherent. -/
theorem Reached.coherent (h : Reached s) : Coherent s := by
  induction h with
  | @new config table s h =>
    obtain ⟨-, hregistry, hhooks⟩ := of_new h
    refine ⟨?_, table, ?_⟩
    · rw [hregistry]
      exact fun _ hentry => absurd hentry List.not_mem_nil
    · rw [hhooks]
      exact .new
  | @parse s path text _ ih =>
    have hids := SourceFile.parse_le path text s.shop.nextId
    rw [run_parse]
    generalize SourceFile.parse path text = x at hids
    exact ih.runs (build_runs x s) hids
  | register files _ hgiven ih => exact ih.register hgiven
  | transform file _ hids ih => exact ih.runs (transform_runs file _) hids
  | hooksFor d _ hids ih => exact ih.runs (hooksFor_onlyRuns d _) hids
  | check file checker _ hids ih => exact ih.runs (check_onlyRuns file checker _) hids
  | registerOperator op callee _ ih => exact ⟨ih.bound, ih.loader⟩
  | @reset s _ ih => exact ⟨fun _ hentry => absurd hentry List.not_mem_nil, s.hooks.loader.table, .new⟩

end Changes

end Session

end MacroEngine
