import MacroEngine.Proofs.Checking.Sites
import MacroEngine.Proofs.Checking.Walk
import MacroEngine.Proofs.Reset.Anew

/-!
# Checks between expansions

Expansions and checks take turns on a session and share its cache of hooks. Two sessions are abreast
if they differ in nothing but what was written and what is in memory. A check moves a session to one
that is abreast of it, whether the check comes through or fails, and an expansion takes sessions that
are abreast to the same file with the same outcome, and leaves them abreast. So taking the checks out
of a sequence of turns changes nothing of what the expansions in it come to.
-/

namespace MacroEngine

namespace Expansion

variable {table : ModuleTable} {ds : List Declaration}

theorem Abreast.start {shop shop' : Workshop} {hooks hooks' : HookCache} (hshop : shop.Agrees shop')
    (hhooks : HookCache.Abreast table ds hooks hooks') :
    Abreast table ds (.start shop hooks) (.start shop' hooks') :=
  ⟨hshop, hhooks, rfl, rfl, rfl, rfl, rfl, rfl⟩

/-- What walks abreast come to. -/
theorem Abreast.conclude {st st' : Expansion} (h : Abreast table ds st st') (file : SourceFile)
    (config : Config) (statements : List Stmt) :
    (file.conclude config (statements, st')).file = (file.conclude config (statements, st)).file ∧
      (file.conclude config (statements, st')).outcome =
        (file.conclude config (statements, st)).outcome ∧
      Abreast table ds (file.conclude config (statements, st)).final
        (file.conclude config (statements, st')).final := by
  unfold SourceFile.conclude
  dsimp only
  rw [h.halted, h.patcher, siteCount, classCount, h.runs]
  split
  · exact ⟨rfl, rfl, h⟩
  · split
    · exact ⟨rfl, rfl, h⟩
    · exact ⟨rfl, rfl, h.shop, h.hooks, rfl, h.beside, h.expanding, rfl, by rw [h.warnings], rfl⟩

end Expansion

namespace Session

/-- A session whose registry is consistent and whose cache holds what it should. -/
structure Pure (table : ModuleTable) (s : Session) : Prop where
  registry : s.registry.Consistent
  hooks : s.hooks.Pure table

/-- Two sessions differ in nothing but what was written and what is in memory, and what is in memory
transforms alike what the registry knows. -/
structure Abreast (table : ModuleTable) (s s' : Session) : Prop where
  consistent : s.registry.Consistent
  config : s'.config = s.config
  registry : s'.registry = s.registry
  operators : s'.operators = s.operators
  warnings : s'.warnings = s.warnings
  shop : s.shop.Agrees s'.shop
  hooks : HookCache.Abreast table s.registry.declarations s.hooks s'.hooks

section Abreast

variable {table : ModuleTable} {s s₁ s₂ : Session}

theorem Pure.abreast (h : Pure table s) : Abreast table s s :=
  ⟨h.registry, rfl, rfl, rfl, rfl, .refl _, ⟨h.hooks, h.hooks, fun _ _ => rfl⟩⟩

theorem Abreast.pure (h : Abreast table s s₁) : Pure table s₁ :=
  ⟨h.registry ▸ h.consistent, h.hooks.pure'⟩

theorem Abreast.trans (h : Abreast table s s₁) (h' : Abreast table s₁ s₂) : Abreast table s s₂ where
  consistent := h.consistent
  config := h'.config.trans h.config
  registry := h'.registry.trans h.registry
  operators := h'.operators.trans h.operators
  warnings := h'.warnings.trans h.warnings
  shop := h.shop.trans h'.shop
  hooks := h.hooks.trans (h.registry ▸ h'.hooks)

def abreast (table : ModuleTable) : Lockstep (StateM Session) := .state (Abreast table)

theorem build_abreast {α : Type} (x : Fresh α) : (abreast table).holds Eq (build x) (build x) := by
  intro s s' h
  obtain ⟨hanswer, hshop⟩ := Work.build_unmoved x s.shop s'.shop h.shop
  exact ⟨hanswer, { h with shop := hshop }⟩

variable (htable : table.Pure)

include htable

theorem expand_abreast (file : SourceFile) :
    (abreast table).holds Eq (expand file) (expand file) := by
  intro s s' h
  have hg : (file.setting s.registry s.config).registry.Consistent := h.consistent
  have hwalk : (file.walk s.registry s.config s.shop s.hooks (expansionDepth file)).1 =
      (file.walk s.registry s.config s'.shop s'.hooks (expansionDepth file)).1 ∧
      Expansion.Abreast table s.registry.declarations
        (file.walk s.registry s.config s.shop s.hooks (expansionDepth file)).2
        (file.walk s.registry s.config s'.shop s'.hooks (expansionDepth file)).2 :=
    (Expansion.expand_steady htable hg (expansionDepth file)).2.2 file.statements _ _
      (.start h.shop h.hooks)
  rw [run_expand, run_expand, h.registry, h.config]
  dsimp only
  rw [SourceFile.expand_eq_conclude, SourceFile.expand_eq_conclude]
  generalize file.walk s.registry s.config s.shop s.hooks (expansionDepth file) = walked at hwalk
  generalize file.walk s.registry s.config s'.shop s'.hooks (expansionDepth file) = walked' at hwalk
  obtain ⟨statements, st⟩ := walked
  obtain ⟨statements', st'⟩ := walked'
  obtain ⟨hstatements, hst⟩ := hwalk
  obtain rfl : statements = statements' := hstatements
  obtain ⟨hfile, houtcome, hfinal⟩ := hst.conclude file s.config statements
  refine ⟨by rw [hfile, houtcome], h.consistent, h.config, h.registry, h.operators, ?_,
    hfinal.shop, hfinal.hooks⟩
  change s'.warnings ++ _ = s.warnings ++ _
  rw [h.warnings, hfinal.warnings]

/-- Sessions that are abreast expand and lower a file to the same, or fail with the same error. -/
theorem transform_abreast (file : SourceFile) :
    (abreast table).holds Eq (transform file) (transform file) := by
  refine (abreast table).bindEq (expand_abreast htable file) fun out => ?_
  obtain ⟨file, e | counts⟩ := out
  · exact (abreast table).pure rfl
  · refine (abreast table).bindEq (build_abreast _) fun out => ?_
    obtain ⟨file, e | deferBodies⟩ := out
    · exact (abreast table).pure rfl
    · refine (abreast table).bind Lockstep.get fun s s' h => ?_
      rw [h.operators]
      dsimp only
      split
      · exact (abreast table).pure rfl
      · exact (abreast table).bindEq (build_abreast _) fun out => (abreast table).pure rfl

end Abreast

section Checks

variable {table : ModuleTable} {r : Registry} {α β : Type}

/-- A step that leaves a session abreast of what it was, if that knows the macros of a registry. -/
def Aside (table : ModuleTable) (r : Registry) (x : Step α) : Prop :=
  ∀ s, Pure table s → s.registry = r → Abreast table s (x.run.run s).2

theorem Aside.keeps {x : Step α} (hx : Aside table r x) {s : Session} (hr : s.registry = r) :
    Keeps (Abreast table s) x :=
  fun s' h => h.trans (hx s' h.pure (h.registry.trans hr))

theorem Aside.pure (a : α) : Aside table r (Pure.pure a) := fun _ hs _ => hs.abreast

theorem Aside.bind {x : Step α} {f : α → Step β} (hx : Aside table r x)
    (hf : ∀ a, Aside table r (f a)) : Aside table r (x >>= f) :=
  fun s hs hr => (hx.keeps hr).bind (fun a => (hf a).keeps hr) s hs.abreast

theorem Aside.mapM {f : α → Step β} {as : List α} (hf : ∀ a ∈ as, Aside table r (f a)) :
    Aside table r (as.mapM f) :=
  fun s hs hr => Keeps.mapM (fun a ha => (hf a ha).keeps hr) s hs.abreast

/-- A step that looks at the session first. -/
theorem Aside.get {f : Session → Step α}
    (hf : ∀ s, Pure table s → s.registry = r → Aside table r (f s)) :
    Aside table r (MonadState.get >>= f) := fun s hs hr => hf s hs hr s hs hr

theorem mem_declarations_of_boundSites (hr : r.Consistent) {file : SourceFile}
    {found : Expr × String × Declaration} (h : found ∈ boundSites r file) :
    found.2.2 ∈ r.declarations := by
  obtain ⟨e, -, hfound⟩ := List.mem_filterMap.mp h
  obtain ⟨⟨kind, name⟩, -, hfound⟩ := Option.bind_eq_some_iff.mp hfound
  obtain ⟨d, hbound, rfl⟩ := Option.map_eq_some_iff.mp hfound
  exact (hr.bindings _ (Table.mem_of_get? hbound)).1

theorem run_hooksFor (d : Declaration) (s : Session) : (hooksFor d).run.run s =
    (((s.hooks.hooksFor d).run s.shop).1.1.mapError .load,
      { s with
        shop := ((s.hooks.hooksFor d).run s.shop).2
        hooks := ((s.hooks.hooksFor d).run s.shop).1.2 }) := rfl

variable (htable : table.Pure)

include htable

/-- Loading hooks and running a check hook leave nothing behind that transforms otherwise. -/
theorem checkSite_aside (path : SourcePath) (checker : TypeChecker) {d : Declaration}
    (hd : d ∈ r.declarations) (site : Expr) : Aside table r (checkSite path checker d site) := by
  rintro s hs rfl
  obtain ⟨-, hshop, -, hpure⟩ := hs.hooks.hooksFor htable d s.shop
  have hmemory := hs.hooks.abreast_hooksFor htable hs.registry.distinct hd s.shop
  rw [checkSite, run_bind, run_hooksFor]
  generalize (s.hooks.hooksFor d).run s.shop = out at *
  obtain ⟨⟨e | hooks, cache⟩, shop⟩ := out
  · exact ⟨hs.registry, rfl, rfl, rfl, rfl, hshop, hmemory⟩
  · dsimp only [Except.mapError]
    cases hlast : hooks.check.getLast? with
    | none => exact ⟨hs.registry, rfl, rfl, rfl, rfl, hshop, hmemory⟩
    | some check =>
      have hfree := (hpure hooks rfl).check check (List.mem_of_getLast? hlast)
      exact ⟨hs.registry, rfl, rfl, rfl, rfl, hshop.trans (hfree _ shop), hmemory⟩

/-- A check, whether it comes through or not, leaves a session abreast of what it was. -/
theorem check_aside (file : SourceFile) (checker : TypeChecker) :
    Aside table r (check file checker) := by
  refine .get fun s hs hr => Aside.bind (.mapM fun found hfound => ?_) fun answers => .pure _
  have hd := mem_declarations_of_boundSites hs.registry hfound
  exact (checkSite_aside htable file.path checker (hr ▸ hd) found.1).bind fun answer => .pure _

end Checks

section Calls

variable {table : ModuleTable} {s : Session}

theorem parse_keepsPure (path : SourcePath) (text : String) :
    Keeps (Pure table) (parse path text) := by
  intro s hs
  rw [run_parse]
  generalize SourceFile.parse path text = x
  exact ⟨hs.registry, hs.hooks⟩

theorem consistent_collectAll (files : List SourceFile) (s : Session) (h : s.registry.Consistent) :
    ((collectAll files).run.run s).2.registry.Consistent := by
  induction files generalizing s with
  | nil => exact h
  | cons file files ih =>
    rw [run_collectAll_cons]
    cases hcollect : s.registry.collect file with
    | error e => exact h
    | ok registry => exact ih _ (h.collect hcollect)

theorem register_keepsPure (files : List SourceFile) : Keeps (Pure table) (register files) := by
  intro s hs
  have hcollected := consistent_collectAll files s hs.registry
  obtain ⟨registry, heq, -⟩ := collectAll_keeps files s
  rw [run_register]
  generalize (collectAll files).run.run s = out at hcollected heq
  obtain ⟨outcome, s₁⟩ := out
  obtain rfl : s₁ = { s with registry } := heq
  cases outcome with
  | error e => exact ⟨hcollected, hs.hooks⟩
  | ok =>
    have hbound := (hcollected.perform (.follow files)).foldl (files.map .bindSites)
    rw [List.foldl_map] at hbound
    exact ⟨hbound, hs.hooks⟩

variable (htable : table.Pure)

include htable

theorem compileRegistered_keepsPure (file : SourceFile) :
    Keeps (Pure table) (compileRegistered file) := by
  intro s hs
  have hpure := (transform_abreast htable file s s hs.abreast).2.pure
  rw [run_compileRegistered]
  generalize (transform file).run s = out at hpure
  obtain ⟨⟨file, e | report⟩, s'⟩ := out <;> exact hpure

theorem compileFiles_keepsPure (inputs : List (SourcePath × String)) :
    Keeps (Pure table) (compileFiles inputs) :=
  (Keeps.mapM fun _ _ => parse_keepsPure _ _).bind fun files =>
    (register_keepsPure files).bind fun _ => .mapM fun file _ => compileRegistered_keepsPure htable file

theorem compileSource_keepsPure (path : SourcePath) (text : String) :
    Keeps (Pure table) (compileSource path text) :=
  (parse_keepsPure path text).bind fun file => (register_keepsPure [file]).bind fun _ =>
    (compileRegistered_keepsPure htable file).bind fun _ => .pure _

/-- Every call leaves a pure session behind. -/
theorem Pure.perform (hs : Pure table s) (call : Call) : Pure table (s.perform call) := by
  cases call with
  | parse path text => exact parse_keepsPure path text s hs
  | register files => exact register_keepsPure files s hs
  | transform file => exact (transform_abreast htable file s s hs.abreast).2.pure
  | check file checker => exact (check_aside htable file checker s hs rfl).pure
  | compileFiles inputs => exact compileFiles_keepsPure htable inputs s hs
  | compileSource path text => exact compileSource_keepsPure htable path text s hs
  | registerOperator op callee => exact ⟨hs.registry, hs.hooks⟩
  | reset =>
    refine ⟨.empty, ?_⟩
    change HookCache.Pure table (.new s.hooks.loader.table)
    rw [hs.hooks.reached.sound.2.1]
    exact .new table

theorem Pure.after (hs : Pure table s) (calls : List Call) : Pure table (s.after calls) := by
  unfold Session.after
  induction calls generalizing s with
  | nil => exact hs
  | cons call calls ih => exact ih (hs.perform htable call)

end Calls

inductive Turn where
  | transform (file : SourceFile)
  | check (file : SourceFile) (checker : TypeChecker)

def Turn.isTransform : Turn → Bool
  | .transform _ => true
  | .check _ _ => false

/-- What becomes of the files that are expanded when turns are taken: the rewritten file, and a
report or an error. -/
def transformed : List Turn → Session → List (SourceFile × Except Error Report)
  | [], _ => []
  | .transform file :: turns, s =>
    ((transform file).run s).1 :: transformed turns ((transform file).run s).2
  | .check file checker :: turns, s => transformed turns ((check file checker).run.run s).2

section Turns

variable {config : Config} {table : ModuleTable} {new s s' : Session}

/-- What the expansions among some turns come to does not depend on the checks between them. -/
theorem Abreast.transformed (htable : table.Pure) (h : Abreast table s s') (turns : List Turn) :
    transformed turns s' = transformed (turns.filter Turn.isTransform) s := by
  induction turns generalizing s s' with
  | nil => rfl
  | cons turn turns ih =>
    cases turn with
    -- An expansion moves both sessions, a check only the one that is not stripped of checks.
    | transform file =>
      obtain ⟨hsame, hstep⟩ := transform_abreast htable file s s' h
      exact congrArg₂ List.cons hsame.symm (ih hstep)
    | check file checker => exact ih (h.trans (check_aside htable file checker s' h.pure rfl))

theorem Pure.of_new (h : Session.new config table = .ok new) : Pure table new := by
  obtain ⟨-, hregistry, hhooks⟩ := Session.of_new h
  exact ⟨hregistry ▸ .empty, hhooks ▸ .new table⟩

/-- Checks do not change what expansions come to. Whatever calls led to a session over a table of
pure hooks, and whichever files are checked before and between its expansions, successfully or not,
the files that are expanded become what they become without the checks, with the same reports and
the same errors. A check that comes through has one site for each bound use in its file, from left
to right, and the site of a call stands right before those among its arguments. -/
theorem transformed_without_checks (hnew : Session.new config table = .ok new) (htable : table.Pure)
    (calls : List Call) :
    (∀ turns, transformed turns (new.after calls) =
      transformed (turns.filter Turn.isTransform) (new.after calls)) ∧
    ∀ s s' file checker report, (check file checker).run.run s = (.ok report, s') →
      report.sites.map CheckedSite.use = boundUses s.registry file.items ∧
      ∀ stamp name args, .expr (.invoke stamp name args) ∈ file.items →
        (s.registry.binding? .function stamp.id).isSome = true →
        ∃ before after, report.sites.map CheckedSite.use =
          before ++ (name, stamp.span) :: (boundUses s.registry (Expr.itemsAll true args) ++ after) := by
  have hpure : Pure table (new.after calls) := (Pure.of_new hnew).after htable calls
  refine ⟨hpure.abreast.transformed htable, fun s s' file checker report hrun => ?_⟩
  have hsites := sites_of_check hrun
  refine ⟨hsites, fun stamp name args hmem hbound => ?_⟩
  rw [hsites]
  exact boundUses_of_mem hmem hbound

end Turns

section Twice

def sayNumber : CheckHook := fun _ => do
  Work.say "number"
  return ⟨some (.intrinsic .number), [(.message, "a number")]⟩

def checkedTwiceBody : MacroBody := fun _ => do
  Work.say "twice"
  return ⟨[twice], [sayNumber]⟩

def checkedTable : ModuleTable := ⟨[], some ⟨[("twice", checkedTwiceBody)], []⟩⟩

def checkedSession : Session := { twiceSession with hooks := .new checkedTable }

theorem twice_pure : TransformHook.Pure twice := by
  intro view
  unfold twice
  cases view.node.args? with
  | none => exact Work.abreast.pure rfl
  | some args =>
    cases args with
    | nil => exact Work.abreast.pure rfl
    | cons arg rest =>
      exact Work.abreast.bindEq (Work.build_unmoved _) fun product => Work.abreast.pure rfl

theorem checkedTable_pure : checkedTable.Pure := by
  intro path m hanswer entry hentry
  obtain rfl : _ = m := Option.some.inj hanswer
  obtain rfl := List.mem_singleton.mp hentry
  refine ⟨fun d w => ⟨fun hook hhook => ?_, fun check hcheck => ?_⟩, fun _ _ _ => rfl,
    fun _ _ => ⟨rfl, rfl⟩⟩
  · obtain rfl := List.mem_singleton.mp hhook
    exact twice_pure
  · obtain rfl := List.mem_singleton.mp hcheck
    exact fun view w => ⟨rfl, rfl⟩

def usingFile (first : Nat) (name : String) (use : Expr) : SourceFile :=
  ⟨first, ⟨name ++ ".kn"⟩,
    [.function ⟨first + 1, default⟩ ⟨some name, [], false, some .function, .internal⟩
      ⟨⟨first + 2, default⟩, []⟩, .expr ⟨first + 3, default⟩ use], default⟩

/-- A file with `twice!(twice!(3))`. -/
def nestedFile : SourceFile :=
  usingFile 100 "twice" (.invoke ⟨104, ⟨0, 17⟩⟩ "twice"
    [.invoke ⟨105, ⟨7, 16⟩⟩ "twice" [.number ⟨106, ⟨14, 15⟩⟩ "3"]])

/-- A file with `gone!()`, a macro that its module does not export. -/
def goneFile : SourceFile := usingFile 200 "gone" (.invoke ⟨204, ⟨0, 7⟩⟩ "gone" [])

def checkedCalls : List Call := [.register [nestedFile, goneFile]]

/-- Checks before and between two expansions; those of the second file fail. -/
def checkedTurns : List Turn :=
  [.check goneFile .blank, .check nestedFile .blank, .transform nestedFile, .check goneFile .blank,
    .transform goneFile]

/-- Both sites of the first file are checked, the outer one first. Then the file is expanded as if
no check had been there; and the expansion of the second file fails as it would fail then. -/
theorem transformed_without_checks_twice :
    Session.new .standard checkedTable = .ok checkedSession ∧ checkedTable.Pure ∧
    (transformed checkedTurns (checkedSession.after checkedCalls) =
      transformed (checkedTurns.filter Turn.isTransform) (checkedSession.after checkedCalls)) ∧
    ((transformed checkedTurns (checkedSession.after checkedCalls)).map
      fun (file, outcome) => (file.print, outcome.isOk)) =
      [("macro function twice() \x7b\x7d\n3 * 2 * 2;\n", true),
        ("macro function gone() \x7b\x7d\ngone!();\n", false)] ∧
    ∃ report s',
      (check nestedFile .blank).run.run (checkedSession.after checkedCalls) = (.ok report, s') ∧
        report.sites.map CheckedSite.use =
          boundUses (checkedSession.after checkedCalls).registry nestedFile.items ∧
        report.sites.map CheckedSite.use = [("twice", ⟨0, 17⟩), ("twice", ⟨7, 16⟩)] := by
  have hnew : Session.new .standard checkedTable = .ok checkedSession := rfl
  obtain ⟨hturns, hchecks⟩ := transformed_without_checks hnew checkedTable_pure checkedCalls
  refine ⟨hnew, checkedTable_pure, hturns checkedTurns, by decide +kernel, ?_⟩
  have hchecked : (match (check nestedFile .blank).run.run (checkedSession.after checkedCalls) with
    | (.ok report, _) => decide (report.sites.map CheckedSite.use =
      [("twice", ⟨0, 17⟩), ("twice", ⟨7, 16⟩)])
    | (.error _, _) => false) = true := by decide +kernel
  have hall := hchecks (checkedSession.after checkedCalls)
  generalize hrun : (check nestedFile .blank).run.run (checkedSession.after checkedCalls) = out
    at hchecked
  obtain ⟨e | report, s'⟩ := out
  · cases hchecked
  · exact ⟨report, s', rfl, (hall s' nestedFile .blank report hrun).1, of_decide_eq_true hchecked⟩

end Twice

end Session

end MacroEngine
