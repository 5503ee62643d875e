import MacroEngine.Proofs.Unchanged.Rebuilding
import MacroEngine.Proofs.Unchanged.Sessions

/-!
# Programs with nothing to do

When a session has nothing to do in a file, compiling the file gives back the text of its tree. This
module puts the parts together: the file is registered without an error, the walk through it changes
nothing and counts the sites that were bound and the classes that were derived, no patch is applied,
and both lowerings leave it alone.
-/

namespace MacroEngine

open Expansion Lowering

/-- What a walk without errors and patches comes to when it answers with the same statements. -/
theorem SourceFile.conclude_unpatched {file : SourceFile} {config : Config} {st : Expansion}
    (hhalted : st.halted = none) (hpatcher : st.patcher = .empty) :
    file.conclude config (file.statements, st) = ⟨file, .ok ⟨st.siteCount, st.classCount, 0⟩,
      { st with warnings := st.warnings ++ [] }⟩ := by
  cases st
  cases hhalted
  cases hpatcher
  rfl

/-- A walk through nodes with nothing to do, deep enough for the file, changes nothing. -/
theorem SourceFile.expand_unchanged {file : SourceFile} {registry : Registry} {config : Config}
    {depth : Nat} {shop : Workshop} {hooks : HookCache} {D : Declaration → Prop}
    (hcalm : Calm D (.start shop hooks))
    (hitems : Passable (file.setting registry config) D (.start shop hooks) file.items)
    (hdepth : 2 * file.items.length + 1 ≤ depth) :
    ∃ st, file.expand registry config depth shop hooks =
      ⟨file, .ok ⟨file.items.countP (isGoverned (file.setting registry config)),
        file.items.countP (Item.isDerived registry), 0⟩, st⟩ := by
  obtain ⟨hsame, hpassed⟩ := (children_passing (g := file.setting registry config) (D := D)
    depth).onStmts file.statements hdepth _ hcalm hitems
  rw [SourceFile.expand_eq_conclude]
  change ((file.walk registry config shop hooks depth).1 = file.statements) at hsame
  change Passed _ D _ (file.walk registry config shop hooks depth).2 _ at hpassed
  generalize file.walk registry config shop hooks depth = walked at hsame hpassed
  obtain ⟨ss, st⟩ := walked
  obtain rfl : ss = file.statements := hsame
  have hpatcher : st.patcher = .empty := hpassed.patcher
  have hsites : st.siteCount = file.items.countP (isGoverned (file.setting registry config)) :=
    hpassed.sites.trans (Nat.zero_add _)
  have hclasses : st.classCount = file.items.countP (Item.isDerived registry) :=
    hpassed.classes.trans (Nat.zero_add _)
  rw [← hsites, ← hclasses]
  exact ⟨_, SourceFile.conclude_unpatched hpassed.calm.halted hpatcher⟩

namespace Session

/-- A session has nothing to do in a file that is registered: what its sites are bound to and what
its classes derive can be loaded and transforms nothing, derive names that mean nothing are no error
or do not occur, and no statement is deferred and no operator lowered. -/
structure NothingToDo (s : Session) (file : SourceFile) : Prop where
  sites : ∀ found ∈ boundSites s.registry file, s.hooks.Idle found.2.2
  derives : ∀ stamp head ms, .stmt (.classDecl stamp head ms) ∈ file.items →
    ∀ d ∈ s.registry.deriveDeclarations head, s.hooks.Idle d
  resolved : s.config.unresolvedDerive ≠ .fail ∨
    ∀ stamp head ms, .stmt (.classDecl stamp head ms) ∈ file.items →
      s.registry.unresolvedDerives head = []
  undeferred : ∀ i ∈ file.items, Undeferred i
  unlowered : ∀ i ∈ file.items, Unlowered s.operators i

variable {s : Session} {file : SourceFile}

/-- A site that a declaration governs is bound to it. -/
theorem mem_boundSites {e : Expr} {d : Declaration} (he : .expr e ∈ file.items)
    (hd : governing? (file.setting s.registry s.config) e = some d) :
    ∃ found ∈ boundSites s.registry file, found.2.2 = d := by
  obtain ⟨⟨kind, name⟩, hsite, hbinding⟩ := Option.bind_eq_some_iff.mp hd
  have hbinding : s.registry.binding? kind e.id = some d := hbinding
  refine ⟨(e, name, d), List.mem_filterMap.mpr ⟨e, ?_, by simp [hsite, hbinding]⟩, rfl⟩
  exact List.mem_filter.mpr ⟨List.mem_filterMap.mpr ⟨_, he, rfl⟩, by simp [hsite]⟩

theorem NothingToDo.uneventful (h : s.NothingToDo file) :
    ∀ i ∈ file.items, Uneventful (file.setting s.registry s.config) s.hooks.Idle i := by
  intro i hi
  cases i with
  | expr e =>
    intro d hd
    obtain ⟨found, hfound, rfl⟩ := mem_boundSites hi hd
    exact h.sites found hfound
  | stmt stmt =>
    cases stmt with
    | classDecl stamp head ms =>
      exact ⟨h.derives stamp head ms hi, h.resolved.imp_right fun hall => hall stamp head ms hi⟩
    | _ => trivial

/-- Transforming a registered file in which there is nothing to do. -/
theorem run_transform_unchanged {a b : NodeId} (hs : s.Coherent) (hfile : Numbered a b file.items)
    (h : s.NothingToDo file) :
    ∃ s', (transform file).run s =
      ((file, .ok ⟨file.items.countP (isGoverned (file.setting s.registry s.config)),
        file.items.countP (Item.isDerived s.registry), 0, 0, 0⟩), s') := by
  have hcalm : Calm s.hooks.Idle (.start s.shop s.hooks) := ⟨rfl, hs.loader, fun _ hd => hd⟩
  have hitems : Passable (file.setting s.registry s.config) s.hooks.Idle
      (.start s.shop s.hooks) file.items :=
    ⟨h.uneventful, hfile.regular, hfile.nodup, fun _ _ => List.not_mem_nil⟩
  have hdepth : 2 * file.items.length + 1 ≤ expansionDepth file := by rw [expansionDepth]; omega
  obtain ⟨st, hexpand⟩ := SourceFile.expand_unchanged hcalm hitems hdepth
  have hdefers (s' : Session) : (build (Lowering.defers file)).run s' = ((file, .ok 0), s') := by
    rw [run_build, run_defers_of_undeferred h.undeferred]
  have hoperators (s' : Session) :
      (build (Lowering.operators s.operators file)).run s' = ((file, 0), s') := by
    rw [run_build, run_operators_of_unlowered h.unlowered]
  let out := file.expand s.registry s.config (expansionDepth file) s.shop s.hooks
  refine ⟨s.expanded out, ?_⟩
  rw [run_transform, run_expand]
  simp only [out, hexpand, hdefers]
  split
  · rfl
  · rw [expanded, hoperators]

/-- Registering a file whose declarations can be entered. -/
theorem run_register_of_collect {r : Registry} (h : s.registry.collect file = .ok r) :
    (register [file]).run.run s =
      (.ok (), { s with registry := ((r.collectDependencies [file]).2.bindSites file).2 }) := by
  rw [run_register, run_collectAll_cons, h]
  rfl

theorem parse_eq_ok {path : SourcePath} {text : String} {s₀ : Session}
    (h : (parse path text).run.run s = (.ok file, s₀)) :
    (SourceFile.parse path text).run s.shop.nextId = (.ok file, s₀.shop.nextId) ∧
      s₀.registry = s.registry := by
  obtain ⟨k, hfile, rfl⟩ := run_parse_eq_ok.mp h
  exact ⟨hfile, rfl⟩

/-- A text is compiled by parsing it, registering the file, and compiling the file. -/
theorem run_compileSource {path : SourcePath} {text : String} {s₀ s₁ s₂ : Session}
    {report : Report} (hparse : (parse path text).run.run s = (.ok file, s₀))
    (hregister : (register [file]).run.run s₀ = (.ok (), s₁))
    (htransform : (transform file).run s₁ = ((file, .ok report), s₂)) :
    (compileSource path text).run.run s = (.ok file.print, s₂) := by
  rw [compileSource, run_bind, hparse]
  simp only [run_bind, hregister, run_compileRegistered, htransform]
  rfl

/-- In every session that operations lead to, a parsed file whose macro functions are set to
variables, and in which the session has nothing to do once it is registered, is registered without
an error, and transforming it leaves the tree as it is, down to identities and spans. The report
counts the sites that were bound and the classes with a derive name that means something, at any
depth, and nothing else. So compiling the text gives back the text of its tree. -/
theorem compile_unchanged {s s₀ : Session} (hs : s.Reached) {path : SourcePath} {text : String}
    {file : SourceFile} (hparse : (parse path text).run.run s = (.ok file, s₀))
    (hmacros : MacrosBound file.items)
    (hidle : ((register [file]).run.run s₀).2.NothingToDo file) :
    ∃ r s₁ s₂, s₀.registry.collect file = .ok r ∧
      (register [file]).run.run s₀ = (.ok (), s₁) ∧
      s₁.registry = ((r.collectDependencies [file]).2.bindSites file).2 ∧
      (transform file).run s₁ =
        ((file, .ok ⟨((r.collectDependencies [file]).2.bindSites file).1,
          file.items.countP (Item.isDerived s₁.registry), 0, 0, 0⟩), s₂) ∧
      (compileSource path text).run.run s = (.ok file.print, s₂) := by
  obtain ⟨hread, hregistry⟩ := parse_eq_ok hparse
  obtain ⟨hnumbered, -⟩ := SourceFile.parse_numbered hread
  have hcollect := s₀.registry.collect_of_bound hnumbered.nodup hmacros
  generalize (s₀.registry.forgetFile file.path).2.declareAll _ = r at hcollect
  have hregister := run_register_of_collect hcollect
  have hs₀ := hs.parse path text
  rw [hparse] at hs₀
  have hgiven : ∀ f ∈ [file], ∀ i ∈ f.items, i.id < s₀.shop.nextId :=
    List.forall_mem_singleton.mpr fun i hi => (hnumbered.bounds i hi).2
  have hs₁ := hs₀.coherent.register hgiven
  rw [hregister] at hidle hs₁
  obtain ⟨s₂, htransform⟩ := run_transform_unchanged hs₁ hnumbered hidle
  have hbelow : (r.collectDependencies [file]).2.BoundBelow s.shop.nextId := by
    refine hs.coherent.bound.of_subset ?_
    rw [Registry.bindings_collectDependencies, ← hregistry]
    exact Registry.bindings_collect hcollect
  have hcount := Registry.countP_isGoverned hbelow hnumbered.nodup
    (fun i hi => (hnumbered.bounds i hi).1)
    (g := file.setting ((r.collectDependencies [file]).2.bindSites file).2 s₀.config) rfl
  rw [hcount] at htransform
  exact ⟨r, _, s₂, hcollect, hregister, rfl, htransform,
    run_compileSource hparse hregister htransform⟩

section Idle

/-- A program with a site that is bound and a class that is derived. -/
def taggedText : String :=
  "macro function note() \x7b\x7d\nmacro derive function Tag() \x7b\x7d\n" ++
    "class A derives Tag \x7b\n    x = note!(1);\n\x7d\n"

/-- Modules whose macros register no hooks. -/
def idleTable : ModuleTable where
  modules := []
  fallback := some
    { exports := [("Tag", fun _ => pure ⟨[], []⟩), ("note", fun _ => pure ⟨[], []⟩)], requires := [] }

def idleSession : Session where
  config := .standard
  shop := ⟨0, 0, []⟩
  registry := .empty
  hooks := .new idleTable
  operators := .empty
  warnings := []

def isListed (d : Declaration) : Bool :=
  d.exportName? == some "Tag" || d.exportName? == some "note"

theorem idle_of_isListed {d : Declaration} (h : isListed d = true) :
    (HookCache.new idleTable).Idle d := by
  refine HookCache.idle_iff.mpr (.inr ⟨rfl, fun _ => pure ⟨[], []⟩, ?_, fun _ => rfl⟩)
  rw [Loader.run_loadBody]
  change (Loader.found d (.ok _, _)).1 = _
  rcases Bool.or_eq_true_iff.mp h with h | h <;>
    · rw [Loader.found, beq_iff_eq.mp h]
      rfl

def isIdle (file : SourceFile) : Bool :=
  file.print == taggedText &&
  (file.items.filterMap Item.macroFunction?).isEmpty &&
  (file.items.filterMap Item.stmt?).all (fun s => !s.isDefer) &&
  (match Registry.empty.collect file with
  | .error _ => false
  | .ok r =>
    let bound := (r.collectDependencies [file]).2.bindSites file
    bound.1 == 1 && file.items.countP (Item.isDerived bound.2) == 1 &&
    (boundSites bound.2 file).all (fun found => isListed found.2.2) &&
    (file.items.filterMap Item.stmt?).all fun
      | .classDecl _ head _ => (bound.2.deriveDeclarations head).all isListed
      | _ => true)

theorem exists_parse_taggedText : ∃ file k,
    (SourceFile.parse ⟨"main.kn"⟩ taggedText).run 0 = (.ok file, k) ∧ isIdle file = true := by
  have hidle : (match (SourceFile.parse ⟨"main.kn"⟩ taggedText).run 0 with
    | (.ok file, _) => isIdle file
    | (.error _, _) => false) = true := by decide +kernel
  generalize (SourceFile.parse ⟨"main.kn"⟩ taggedText).run 0 = out at hidle
  obtain ⟨_ | file, k⟩ := out
  · cases hidle
  · exact ⟨file, k, rfl, hidle⟩

theorem nothingToDo_of_isIdle {file : SourceFile} {r : Registry} (k : NodeId)
    (hcollect : Registry.empty.collect file = .ok r) (hidle : isIdle file = true) :
    NothingToDo { idleSession with
      shop := ⟨k, 0, []⟩
      registry := ((r.collectDependencies [file]).2.bindSites file).2 } file := by
  simp only [isIdle, hcollect, Bool.and_eq_true, List.all_eq_true] at hidle
  obtain ⟨⟨-, hdefers⟩, ⟨-, hbound⟩, hderives⟩ := hidle
  refine ⟨fun found hfound => idle_of_isListed (hbound found hfound),
    fun stamp head ms hmem d hd => idle_of_isListed ?_, .inl nofun, fun i hi => ?_, fun i hi => ?_⟩
  · have hall := hderives _ (List.mem_filterMap.mpr ⟨_, hmem, rfl⟩)
    exact List.all_eq_true.mp hall d hd
  · cases i with
    | expr e => trivial
    | stmt s => simpa [Undeferred] using hdefers s (List.mem_filterMap.mpr ⟨_, hi, rfl⟩)
  · cases i with
    | stmt s => trivial
    | expr e => cases e <;> trivial

theorem compile_unchanged_taggedText : ∃ file s₀ s₁ s₂, idleSession.Reached ∧
    (parse ⟨"main.kn"⟩ taggedText).run.run idleSession = (.ok file, s₀) ∧
    MacrosBound file.items ∧ ((register [file]).run.run s₀).2.NothingToDo file ∧
    (transform file).run s₁ = ((file, .ok ⟨1, 1, 0, 0, 0⟩), s₂) ∧
    (compileSource ⟨"main.kn"⟩ taggedText).run.run idleSession = (.ok taggedText, s₂) := by
  obtain ⟨file, k, hread, hidle⟩ := exists_parse_taggedText
  have hreached : idleSession.Reached :=
    .new (show Session.new .standard idleTable = .ok idleSession from rfl)
  have hparse : (parse ⟨"main.kn"⟩ taggedText).run.run idleSession =
      (.ok file, { idleSession with shop := ⟨k, 0, []⟩ }) := by
    rw [run_parse]
    generalize SourceFile.parse ⟨"main.kn"⟩ taggedText = x at hread
    rw [run_build, show idleSession.shop.nextId = 0 from rfl, hread]
    rfl
  cases hcollect : Registry.empty.collect file with
  | error e => simp [isIdle, hcollect] at hidle
  | ok r =>
    have hnothing := nothingToDo_of_isIdle k hcollect hidle
    simp only [isIdle, hcollect, Bool.and_eq_true, beq_iff_eq] at hidle
    obtain ⟨⟨⟨hprint, hmacros⟩, -⟩, ⟨⟨hsites, hclasses⟩, -⟩, -⟩ := hidle
    have hmacros : MacrosBound file.items := by
      rw [MacrosBound, List.isEmpty_iff.mp hmacros]
      exact List.nil_subset _
    have hregister :=
      run_register_of_collect (s := { idleSession with shop := ⟨k, 0, []⟩ }) hcollect
    have hnothing : ((register [file]).run.run
        { idleSession with shop := ⟨k, 0, []⟩ }).2.NothingToDo file := by
      rw [hregister]
      exact hnothing
    obtain ⟨r', s₁, s₂, hcollect', -, hregistry, htransform, hcompile⟩ :=
      compile_unchanged hreached hparse hmacros hnothing
    obtain rfl : r = r' := Except.ok.inj (hcollect.symm.trans hcollect')
    rw [hregistry, hsites, hclasses] at htransform
    rw [hprint] at hcompile
    exact ⟨file, _, s₁, s₂, hreached, hparse, hmacros, hnothing, htransform, hcompile⟩

end Idle

end Session

end MacroEngine
