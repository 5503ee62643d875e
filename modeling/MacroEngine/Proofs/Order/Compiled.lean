import MacroEngine.Proofs.Order.Walk
import MacroEngine.Proofs.Unchanged.Sessions

/-!
# Compiling a file with other numbers

Expanding, lowering and printing a file goes through a session in lockstep with the same for a file
with other numbers. The text and the report hold no numbers, so they are equal.
-/

namespace MacroEngine

namespace Twins

variable {c : Twins} {file : SourceFile}

theorem Matching.siteCount {st st' : Expansion} (h : c.Matching st st') :
    st'.siteCount = st.siteCount := by
  have hcount := congrArg (List.countP id) h.runs
  rwa [List.countP_map, List.countP_map] at hcount

theorem Matching.classCount {st st' : Expansion} (h : c.Matching st st') :
    st'.classCount = st.classCount := by
  have hcount := congrArg (List.countP not) h.runs
  rwa [List.countP_map, List.countP_map] at hcount

structure Concluded (c : Twins) (out out' : Expanded) : Prop where
  file : out'.file = out.file.renumber c.ρ
  outcome : out'.outcome = out.outcome
  shop : Aligned c.ρ c.bound out.final.shop.nextId out'.final.shop.nextId
  hooks : out.final.hooks.Holds c.table c.declared
  hooks' : out'.final.hooks.Holds c.table c.declared'

theorem Matching.conclude {st st' : Expansion} (h : c.Matching st st')
    (hfile : ∀ s ∈ file.statements, s.id < c.bound) (config : Config) (ss : List Stmt) :
    c.Concluded (file.conclude config (ss, st))
      ((file.renumber c.ρ).conclude config (ss.map (Stmt.renumber c.ρ), st')) := by
  have hpatched := applyPatches_corresponds c.apart (show ∀ s ∈ (⟨file.path, file.statements⟩ :
    FileView).statements, s.id < c.bound from hfile) config.unmatchedAnchor h.patcher ss
  have hhalted := h.halted
  cases hst : st.halted with
  | some e =>
    rw [SourceFile.conclude_of_halted hst, SourceFile.conclude_of_halted (hhalted.trans hst)]
    exact ⟨rfl, rfl, h.shop, h.hooks, h.hooks'⟩
  | none =>
    rw [SourceFile.conclude_of_patched hst rfl,
      SourceFile.conclude_of_patched (hhalted.trans hst) hpatched, h.siteCount, h.classCount]
    dsimp only
    split
    · exact ⟨rfl, rfl, h.shop, h.hooks, h.hooks'⟩
    · exact ⟨rfl, rfl, h.shop, h.hooks, h.hooks'⟩

theorem expand_alike {registry registry' : Registry} {config : Config}
    (hg : c.Settings (file.setting registry config) ((file.renumber c.ρ).setting registry' config))
    (hfile : ∀ s ∈ file.statements, s.id < c.bound) {shop shop' : Workshop} {hooks hooks' : HookCache}
    (hshop : Aligned c.ρ c.bound shop.nextId shop'.nextId) (hhooks : hooks.Holds c.table c.declared)
    (hhooks' : hooks'.Holds c.table c.declared') (depth : Nat) :
    c.Concluded (file.expand registry config depth shop hooks)
      ((file.renumber c.ρ).expand registry' config depth shop' hooks') := by
  have hstart : c.Matching (.start shop hooks) (.start shop' hooks') :=
    ⟨hshop, hhooks, hhooks', ⟨.nil, .nil⟩, rfl, rfl, fun _ h => absurd h List.not_mem_nil, rfl, rfl,
      rfl⟩
  obtain ⟨hsame, hmatching⟩ := (expand_inStep hg depth).stmts file.statements
    (Stmt.withinAll_iff.mpr hg.within) _ _ hstart
  rw [SourceFile.expand_eq_conclude, SourceFile.expand_eq_conclude]
  change ((file.renumber c.ρ).walk registry' config shop' hooks' depth).1 =
    (file.walk registry config shop hooks depth).1.map (Stmt.renumber c.ρ) at hsame
  change c.Matching (file.walk registry config shop hooks depth).2
    ((file.renumber c.ρ).walk registry' config shop' hooks' depth).2 at hmatching
  generalize file.walk registry config shop hooks depth = walked at hsame hmatching
  generalize (file.renumber c.ρ).walk registry' config shop' hooks' depth = walked' at hsame hmatching
  obtain ⟨ss, st⟩ := walked
  obtain ⟨_, st'⟩ := walked'
  obtain rfl := hsame
  exact hmatching.conclude hfile config ss

end Twins

namespace Session

/-- A session in which the files of a program are compiled. All that compiling reads is as it was
when the program had been registered, and the hooks are those of its declarations. -/
structure Ready (s s₀ : Session) (table : ModuleTable) (ds : List Declaration) : Prop where
  config : s.config = s₀.config
  registry : s.registry = s₀.registry
  operators : s.operators = s₀.operators
  hooks : s.hooks.Holds table ds

theorem expansionDepth_renumber (ρ : NodeId → NodeId) (file : SourceFile) :
    expansionDepth (file.renumber ρ) = expansionDepth file := by
  rw [expansionDepth, file.items_renumber, List.length_map, expansionDepth]

section Sessions

variable {s₀ s₀' : Session} {c : Twins}

def inStep (s₀ s₀' : Session) (c : Twins) : Lockstep (StateM Session) :=
  .state fun s s' => s.Ready s₀ c.table c.declared ∧ s'.Ready s₀' c.table c.declared' ∧
    Aligned c.ρ c.bound s.shop.nextId s'.shop.nextId

theorem build_inStep {α β : Type} {V : α → β → Prop} {x : Fresh α} {y : Fresh β}
    (h : (Fresh.inStep c.ρ c.bound).holds V x y) : (inStep s₀ s₀' c).holds V (build x) (build y) := by
  rintro s s' ⟨hs, hs', hshop⟩
  obtain ⟨hab, hshop⟩ := h s.shop.nextId s'.shop.nextId hshop
  exact ⟨hab, { hs with }, { hs' with }, hshop⟩

variable (hconfig : s₀'.config = s₀.config) (hoperators : s₀'.operators = s₀.operators)
  {file : SourceFile}
  (hg : c.Settings (file.setting s₀.registry s₀.config)
    ((file.renumber c.ρ).setting s₀'.registry s₀.config))
  (hfile : ∀ s ∈ file.statements, s.id < c.bound)

include hconfig hg hfile

theorem expand_inStep : (inStep s₀ s₀' c).holds (Sends fun out => (out.1.renumber c.ρ, out.2))
    (expand file) (expand (file.renumber c.ρ)) := by
  rintro s s' ⟨hs, hs', hshop⟩
  have hsame := Twins.expand_alike hg hfile hshop hs.hooks hs'.hooks (expansionDepth file)
  rw [run_expand, run_expand, expansionDepth_renumber, hs.registry, hs'.registry, hs.config,
    hs'.config, hconfig]
  exact ⟨Prod.ext hsame.file hsame.outcome, ⟨hs.config, hs.registry, hs.operators, hsame.hooks⟩,
    ⟨hs'.config, hs'.registry, hs'.operators, hsame.hooks'⟩, hsame.shop⟩

include hoperators

theorem transform_inStep : (inStep s₀ s₀' c).holds (Sends fun out => (out.1.renumber c.ρ, out.2))
    (transform file) (transform (file.renumber c.ρ)) := by
  unfold transform
  refine (inStep s₀ s₀' c).bindSends (expand_inStep hconfig hg hfile) fun out => ?_
  obtain ⟨expanded, e | counts⟩ := out
  · exact (inStep s₀ s₀' c).pure rfl
  · refine (inStep s₀ s₀' c).bindSends (build_inStep (Lowering.defers_inStep expanded)) fun out => ?_
    obtain ⟨lowered, e | deferBodies⟩ := out
    · exact (inStep s₀ s₀' c).pure rfl
    · refine (inStep s₀ s₀' c).bind Lockstep.get fun s s' hs => ?_
      rw [hs.2.1.operators, hs.1.operators, hoperators]
      dsimp only
      split
      · exact (inStep s₀ s₀' c).pure rfl
      · refine (inStep s₀ s₀' c).bindSends (build_inStep (Lowering.operators_inStep _ lowered)) ?_
        exact fun out => (inStep s₀ s₀' c).pure rfl

theorem compileRegistered_inStep : (inStep s₀ s₀' c).holds Eq (compileRegistered file).run
    (compileRegistered (file.renumber c.ρ)).run := by
  intro s s' hs
  have htransform := transform_inStep hconfig hoperators hg hfile s s' hs
  change ((compileRegistered file).run.run s).1 =
      ((compileRegistered (file.renumber c.ρ)).run.run s').1 ∧
    ((compileRegistered file).run.run s).2.Ready s₀ c.table c.declared ∧
    ((compileRegistered (file.renumber c.ρ)).run.run s').2.Ready s₀' c.table c.declared' ∧
    Aligned c.ρ c.bound ((compileRegistered file).run.run s).2.shop.nextId
      ((compileRegistered (file.renumber c.ρ)).run.run s').2.shop.nextId
  rw [run_compileRegistered, run_compileRegistered]
  generalize (transform file).run s = out at htransform
  generalize (transform (file.renumber c.ρ)).run s' = out' at htransform
  obtain ⟨⟨transformed, outcome⟩, s₁⟩ := out
  obtain ⟨_, s₁'⟩ := out'
  obtain ⟨rfl, hs₁⟩ := htransform
  cases outcome with
  | error e => exact ⟨rfl, hs₁⟩
  | ok report =>
    refine ⟨?_, hs₁⟩
    dsimp only
    rw [SourceFile.print_renumber]
    rfl

end Sessions

end Session

end MacroEngine
