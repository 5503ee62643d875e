import MacroEngine.Proofs.Checking.Turns
import MacroEngine.Proofs.Hoisting.Files
import MacroEngine.Proofs.Order.AnyOrder

/-!
# Hoisted names in a session

Whatever is called on a session over the standard macros, it stays one, and neither the identities of
nodes nor the numbers of hoisted names go back. So a walk through a file starts from numbers that no
file got before, and lowering leaves the hoisted constants where they are.
-/

namespace MacroEngine

namespace Standard

/-- The check hooks of the standard macros do nothing beside answering. -/
theorem run_check {environment : Environment} {hooks : Hooks}
    (hhooks : hooks ∈ registered environment) {check : CheckHook} (hcheck : check ∈ hooks.check)
    (view : CheckView) (w : Workshop) :
    ((check view).run w).2 = w := by
  simp only [registered, List.mem_cons, List.not_mem_nil, or_false] at hhooks
  rcases hhooks with rfl | rfl | rfl | rfl | rfl | rfl <;>
    simp only [List.not_mem_nil, List.mem_cons, or_false] at hcheck
  · rw [hcheck]
    rfl
  · rw [hcheck]
    unfold checkEnv
    cases envName? view.node <;> rfl
  · rw [hcheck]
    rfl

end Standard

namespace Lowering

theorem calleeNames_insert (table : OperatorTable) (op : BinaryOp) (callee : String) :
    calleeNames (table.insert op callee) ⊆ segments callee ++ calleeNames table := by
  intro name hname
  rcases List.mem_append.mp hname with hname | hname
  · exact List.mem_append_left _ hname
  · obtain ⟨entry, hentry, hname⟩ := List.mem_flatMap.mp hname
    exact List.mem_append_right _
      (List.mem_flatMap.mpr ⟨entry, (List.mem_filter.mp hentry).1, hname⟩)

theorem hoistedName_not_mem_deferWords (n : ℕ) : Standard.hoistedName n ∉ deferWords :=
  Standard.hoistedName_not_mem (by decide) n

theorem le_defers (file : SourceFile) (next : NodeId) : next ≤ ((defers file).run next).2 :=
  ((defers_inStep (ρ := id) file) next next ⟨Nat.le_refl _, fun _ => rfl⟩).2.le

theorem le_operators (table : OperatorTable) (file : SourceFile) (next : NodeId) :
    next ≤ ((operators table file).run next).2 :=
  ((operators_inStep (ρ := id) table file) next next ⟨Nat.le_refl _, fun _ => rfl⟩).2.le

end Lowering

/-- The statements of a file have identities of their own, which were given before `bound`. -/
structure SourceFile.Below (bound : NodeId) (file : SourceFile) : Prop where
  nodup : (file.statements.map Stmt.id).Nodup
  below : ∀ s ∈ file.statements, s.id < bound

instance (bound : NodeId) (file : SourceFile) : Decidable (file.Below bound) :=
  decidable_of_iff ((file.statements.map Stmt.id).Nodup ∧ ∀ s ∈ file.statements, s.id < bound)
    ⟨fun h => ⟨h.1, h.2⟩, fun h => ⟨h.nodup, h.below⟩⟩

theorem Stmt.sublist_itemsAll (ss : List Stmt) :
    (ss.map Item.stmt).Sublist (Stmt.itemsAll true ss) := by
  induction ss with
  | nil => exact .slnil
  | cons s ss ih =>
    rw [List.map_cons, itemsAll, Stmt.items_eq_cons, List.cons_append]
    exact (ih.trans (List.sublist_append_right _ _)).cons_cons _

theorem SourceFile.Below.of_numbered {file : SourceFile} {n bound : NodeId}
    (h : Numbered n bound file.items) : file.Below bound where
  nodup := by
    have hsub := (Stmt.sublist_itemsAll file.statements).map Item.id
    rw [List.map_map] at hsub
    exact hsub.nodup h.nodup
  below s hs := by
    have hmem : Item.stmt s ∈ file.items :=
      (Stmt.sublist_itemsAll file.statements).subset (List.mem_map_of_mem hs)
    exact (h.bounds _ hmem).2

theorem Parses.forall_below {n k : NodeId} {inputs : List (SourcePath × String)}
    {files : List SourceFile} (h : Parses n inputs files k) : ∀ file ∈ files, file.Below k := by
  induction h with
  | nil => exact nofun
  | cons head tail ih =>
    refine List.forall_mem_cons.mpr ⟨?_, ih⟩
    exact .of_numbered ((SourceFile.parse_numbered head).1.mono_right tail.le)

namespace Session

/-- A session over the standard macros whose operators are lowered to calls with some names. Node
identities go on from `bound`, and numbers of hoisted names from `first`. -/
structure Standard (environment : Standard.Environment) (words : List String) (bound : NodeId)
    (first : ℕ) (s : Session) : Prop where
  hooks : s.hooks.Standard environment
  callees : Lowering.calleeNames s.operators ⊆ words
  bound_le : bound ≤ s.shop.nextId
  first_le : first ≤ s.shop.hoisted

section Steps

variable {environment : Standard.Environment} {words : List String} {bound : NodeId} {first : ℕ}
  {s : Session}

theorem Standard.start {bound' : NodeId} {first' : ℕ}
    (h : s.Standard environment words bound' first') :
    s.Standard environment words s.shop.nextId s.shop.hoisted :=
  ⟨h.hooks, h.callees, Nat.le_refl _, Nat.le_refl _⟩

theorem Standard.of_new {config : Config} {new : Session}
    (hnew : Session.new config (Standard.table environment) = .ok new)
    (hcallees : Lowering.calleeNames new.operators ⊆ words) :
    new.Standard environment words 0 0 := by
  obtain ⟨-, -, hhooks⟩ := Session.of_new hnew
  exact ⟨hhooks ▸ .new environment, hcallees, Nat.zero_le _, Nat.zero_le _⟩

theorem build_keepsStandard {α : Type} {x : Fresh α} (hx : ∀ next, next ≤ (x.run next).2)
    (h : s.Standard environment words bound first) :
    ((build x).run s).2.Standard environment words bound first :=
  ⟨h.hooks, h.callees, Nat.le_trans h.bound_le (hx _), h.first_le⟩

theorem parse_keepsStandard (path : SourcePath) (text : String) :
    Keeps (Session.Standard environment words bound first) (parse path text) := by
  intro s h
  rw [run_parse]
  exact build_keepsStandard (SourceFile.parse_le path text) h

theorem register_keepsStandard (files : List SourceFile) :
    Keeps (Session.Standard environment words bound first) (register files) := by
  intro s h
  obtain ⟨registry, heq, -⟩ := collectAll_keeps files s
  rw [run_register]
  generalize (collectAll files).run.run s = out at heq
  obtain ⟨outcome, s₁⟩ := out
  obtain rfl : s₁ = { s with registry } := heq
  cases outcome <;> exact ⟨h.hooks, h.callees, h.bound_le, h.first_le⟩

theorem expand_keepsStandard (file : SourceFile) (h : s.Standard environment words bound first) :
    ((expand file).run s).2.Standard environment words bound first := by
  obtain ⟨hreaches, hle, -⟩ :=
    file.walk_tidy s.registry s.config s.shop (expansionDepth file) h.hooks
  rw [run_expand, SourceFile.expand_eq_conclude]
  refine ⟨?_, h.callees, Nat.le_trans h.bound_le ?_, Nat.le_trans h.first_le ?_⟩
  · change (SourceFile.conclude _ _ _).final.hooks.Standard environment
    rw [SourceFile.hooks_conclude]
    exact hreaches.hooks
  · change _ ≤ (SourceFile.conclude _ _ _).final.shop.nextId
    rw [SourceFile.shop_conclude]
    exact hreaches.bound_le
  · change _ ≤ (SourceFile.conclude _ _ _).final.shop.hoisted
    rw [SourceFile.shop_conclude]
    exact hle

/-- Lowering builds nodes, and nothing else happens after an expansion. -/
theorem transform_keepsStandard (file : SourceFile) (h : s.Standard environment words bound first) :
    ((transform file).run s).2.Standard environment words bound first := by
  have hexpanded := expand_keepsStandard file h
  rw [run_transform]
  generalize (expand file).run s = out at hexpanded
  obtain ⟨⟨file, _ | counts⟩, s₁⟩ := out
  · exact hexpanded
  · have hdefers := build_keepsStandard (Lowering.le_defers file) hexpanded
    dsimp only at hdefers ⊢
    generalize (build (Lowering.defers file)).run s₁ = out at hdefers
    obtain ⟨⟨file, _ | deferBodies⟩, s₂⟩ := out
    · exact hdefers
    · dsimp only at hdefers ⊢
      split
      · exact hdefers
      · exact build_keepsStandard (Lowering.le_operators _ file) hdefers

theorem checkSite_keepsStandard (path : SourcePath) (checker : TypeChecker) (d : Declaration)
    (site : Expr) :
    Keeps (Session.Standard environment words bound first) (checkSite path checker d site) := by
  intro s h
  obtain ⟨hcache, hshop, hof⟩ := h.hooks.hooksFor d s.shop
  rw [checkSite, run_bind, run_hooksFor]
  generalize (s.hooks.hooksFor d).run s.shop = out at *
  obtain ⟨⟨e | hooks, cache⟩, shop⟩ := out
  · obtain rfl : shop = s.shop := hshop
    exact ⟨hcache, h.callees, h.bound_le, h.first_le⟩
  · obtain rfl : shop = s.shop := hshop
    dsimp only [Except.mapError]
    cases hlast : hooks.check.getLast? with
    | none => exact ⟨hcache, h.callees, h.bound_le, h.first_le⟩
    | some check =>
      have hrun := MacroEngine.Standard.run_check (hof hooks rfl) (List.mem_of_getLast? hlast)
        ⟨.expr site, d, path, checker⟩ s.shop
      refine ⟨hcache, h.callees, ?_, ?_⟩
      · change _ ≤ ((check ⟨.expr site, d, path, checker⟩).run s.shop).2.nextId
        rw [hrun]
        exact h.bound_le
      · change _ ≤ ((check ⟨.expr site, d, path, checker⟩).run s.shop).2.hoisted
        rw [hrun]
        exact h.first_le

theorem check_keepsStandard (file : SourceFile) (checker : TypeChecker) :
    Keeps (Session.Standard environment words bound first) (check file checker) := by
  have hget : Keeps (Session.Standard environment words bound first) (get : Step Session) :=
    fun _ h => h
  refine hget.bind fun s => Keeps.bind (.mapM fun found _ => ?_) fun _ => .pure _
  exact (checkSite_keepsStandard _ _ _ _).bind fun _ => .pure _

theorem compileRegistered_keepsStandard (file : SourceFile) :
    Keeps (Session.Standard environment words bound first) (compileRegistered file) := by
  intro s h
  have htransformed := transform_keepsStandard file h
  rw [run_compileRegistered]
  generalize (transform file).run s = out at htransformed
  obtain ⟨⟨file, e | report⟩, s'⟩ := out <;> exact htransformed

theorem compileFiles_keepsStandard (inputs : List (SourcePath × String)) :
    Keeps (Session.Standard environment words bound first) (compileFiles inputs) :=
  (Keeps.mapM fun _ _ => parse_keepsStandard _ _).bind fun files =>
    (register_keepsStandard files).bind fun _ =>
      .mapM fun file _ => compileRegistered_keepsStandard file

theorem compileSource_keepsStandard (path : SourcePath) (text : String) :
    Keeps (Session.Standard environment words bound first) (compileSource path text) :=
  (parse_keepsStandard path text).bind fun file => (register_keepsStandard [file]).bind fun _ =>
    (compileRegistered_keepsStandard file).bind fun _ => .pure _

/-- In a file that was expanded and lowered the hoisted names that were given meanwhile are defined
before they are used, statements in front of the first import apart, and there are no others. -/
theorem transform_hoists (h : s.Standard environment words bound first) {file out : SourceFile}
    (hfile : file.Below s.shop.nextId) {n : ℕ}
    (hn : MacroEngine.Standard.hoistedName n ∉ file.names)
    (hwords : MacroEngine.Standard.hoistedName n ∉ words) {report : Report} {s' : Session}
    (hrun : (transform file).run s = ((out, .ok report), s')) :
    Hoists n s.shop.hoisted s'.shop.hoisted out.statements := by
  have hexpanded := @SourceFile.expand_hoists file s.registry s.config environment s.shop s.hooks
    (expansionDepth file) n h.hooks hfile.nodup hfile.below hn
  rw [run_transform, run_expand] at hrun
  generalize file.expand s.registry s.config (expansionDepth file) s.shop s.hooks = expanded
    at hexpanded hrun
  obtain ⟨file₁, _ | counts, final⟩ := expanded
  · cases hrun
  · -- The constants have their places now. Each lowering leaves them there and brings in names that
    -- are none of theirs.
    have hhoists : Hoists n s.shop.hoisted final.shop.hoisted file₁.statements := hexpanded rfl
    dsimp only [expanded] at hrun
    rw [run_build] at hrun
    have hdefers := Lowering.defers_grows file₁ final.shop.nextId
    generalize (Lowering.defers file₁).run final.shop.nextId = lowered at hdefers hrun
    obtain ⟨⟨file₂, _ | bodies⟩, next⟩ := lowered
    · cases hrun
    · have hlowered := hhoists.grows (Lowering.hoistedName_not_mem_deferWords n) hdefers
      dsimp only at hrun
      split at hrun
      · cases hrun
        exact hlowered
      · rw [run_build] at hrun
        have hoperators := Lowering.operators_grows s.operators file₂ next
        cases hrun
        exact hlowered.grows (fun hname => hwords (h.callees hname)) hoperators

def Call.calleeNames : Call → List String
  | .registerOperator _ callee => segments callee
  | _ => []

/-- Every call leaves a session over the standard macros behind. -/
theorem Standard.perform (h : s.Standard environment words bound first) {call : Call}
    (hcall : call.calleeNames ⊆ words) :
    (s.perform call).Standard environment words bound first := by
  cases call with
  | parse path text => exact parse_keepsStandard path text s h
  | register files => exact register_keepsStandard files s h
  | transform file => exact transform_keepsStandard file h
  | check file checker => exact check_keepsStandard file checker s h
  | compileFiles inputs => exact compileFiles_keepsStandard inputs s h
  | compileSource path text => exact compileSource_keepsStandard path text s h
  | registerOperator op callee =>
    refine ⟨h.hooks, fun name hname => ?_, h.bound_le, h.first_le⟩
    rcases List.mem_append.mp (Lowering.calleeNames_insert _ op callee hname) with hname | hname
    · exact hcall hname
    · exact h.callees hname
  | reset =>
    refine ⟨?_, h.callees, h.bound_le, h.first_le⟩
    change HookCache.Standard environment (.new s.hooks.loader.table)
    rw [h.hooks.reached.sound.2.1]
    exact .new environment

end Steps

end Session

end MacroEngine
