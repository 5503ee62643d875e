import MacroEngine.Proofs.Order.Cached
import MacroEngine.Proofs.Order.Patched

/-!
# Expanding a file with other numbers

Two programs are twins if they are the same up to a renumbering of their nodes. Their files are
expanded in lockstep: the walks meet the same sites, run them through hooks that ask for the same,
and build nodes with numbers that correspond. Only sites and classes that were parsed are governed
by declarations, so it is enough that the numbers given before the walks are kept apart.
-/

namespace MacroEngine

/-- A renumbering that takes one program to another one, and what is known of both. The numbers
below `bound` are those of nodes that were parsed. -/
structure Twins where
  ρ : Nat → Nat
  bound : Nat
  /-- The derive names that mean the same in both programs. -/
  names : String → Prop
  table : ModuleTable
  /-- What the first program declares. -/
  declared : List Declaration
  apart : Apart ρ bound
  distinct : (declared.map Declaration.id).Nodup
  below : ∀ d ∈ declared, d.id < bound
  blind : ∀ d ∈ declared, ∀ body, table.bodyOf d = .ok body → body.Blind
  keeps : ∀ d ∈ declared, ∀ body, table.bodyOf d = .ok body → body.Keeps names

namespace Twins

variable (c : Twins)

def declared' : List Declaration := c.declared.map (Declaration.renumber c.ρ)

theorem distinct' : (c.declared'.map Declaration.id).Nodup := by
  have hids : c.declared'.map Declaration.id = (c.declared.map Declaration.id).map c.ρ := by
    simp [declared', Declaration.renumber]
  rw [hids]
  refine List.Nodup.map_on ?_ c.distinct
  intro x _ y hy hxy
  obtain ⟨d, hd, rfl⟩ := List.mem_map.mp hy
  exact c.apart x d.id (c.below d hd) hxy

structure Matching (st st' : Expansion) : Prop where
  shop : Aligned c.ρ c.bound st.shop.nextId st'.shop.nextId
  hooks : st.hooks.Holds c.table c.declared
  hooks' : st'.hooks.Holds c.table c.declared'
  patcher : st.patcher.Corresponds c.ρ st'.patcher
  beside : st'.beside = st.beside.renumber c.ρ
  expanding : st'.expanding = st.expanding.map c.ρ
  below : ∀ i ∈ st.expanding, i < c.bound
  runs : st'.runs.map HookRun.isSite = st.runs.map HookRun.isSite
  warnings : st'.warnings = st.warnings
  halted : st'.halted = st.halted

/-- Two settings tell the same about the sites and classes of their programs. -/
structure Settings (g g' : ExpansionSetting) : Prop where
  file : g'.file = g.file.renumber c.ρ
  within : ∀ s ∈ g.file.statements, s.Within c.names
  policy : g'.unresolvedDerive = g.unresolvedDerive
  binding : ∀ (kind : MacroKind) (i : Nat),
    g'.registry.binding? kind (c.ρ i) = (g.registry.binding? kind i).map (Declaration.renumber c.ρ)
  bound : ∀ (kind : MacroKind) (i : Nat) (d : Declaration), g.registry.binding? kind i = some d →
    i < c.bound ∧ d ∈ c.declared
  derive : ∀ name, c.names name →
    g'.registry.derive? name = (g.registry.derive? name).map (Declaration.renumber c.ρ)
  derived : ∀ name d, g.registry.derive? name = some d → d ∈ c.declared

def walks : Lockstep Walk := .state c.Matching

section Steps

open Walk

variable {c}

theorem isHalted_inStep : c.walks.holds Eq isHalted isHalted :=
  fun _ _ h => ⟨congrArg Option.isSome h.halted.symm, h⟩

theorem halt_inStep (e : Error) : c.walks.holds (fun _ _ => True) (halt e) (halt e) :=
  Lockstep.modify fun _ _ h => { h with halted := by rw [h.halted] }

theorem work_inStep {α β : Type} {V : α → β → Prop} {x : Work α} {y : Work β}
    (h : (Work.inStep c.ρ c.bound).holds V x y) : c.walks.holds V (Walk.work x) (Walk.work y) := by
  intro st st' hst
  obtain ⟨hab, hshop⟩ := h st.shop st'.shop hst.shop
  exact ⟨hab, { hst with shop := hshop }⟩

theorem record_inStep {run run' : HookRun} (hsite : run'.isSite = run.isSite)
    (hbeside : run'.beside = run.beside.renumber c.ρ) :
    c.walks.holds (fun _ _ => True) (record run) (record run') :=
  Lockstep.modify fun _ _ h => { h with
    runs := by rw [List.map_cons, List.map_cons, hsite, h.runs]
    beside := by rw [h.beside, hbeside, Beside.renumber_append] }

theorem enter_inStep {i : Nat} (hi : i < c.bound) :
    c.walks.holds (fun _ _ => True) (enter i) (enter (c.ρ i)) :=
  Lockstep.modify fun _ _ h => { h with
    expanding := by rw [h.expanding, List.map_cons]
    below := List.forall_mem_cons.mpr ⟨hi, h.below⟩ }

theorem leave_inStep : c.walks.holds (fun _ _ => True) leave leave :=
  Lockstep.modify fun _ _ h => { h with
    expanding := by rw [h.expanding, List.map_drop]
    below := fun i hi => h.below i (List.mem_of_mem_drop hi) }

theorem hooksFor_inStep {d : Declaration} (hd : d ∈ c.declared) :
    c.walks.holds (ExceptRel (Hooks.Alike c.names)) (Walk.hooksFor d)
      (Walk.hooksFor (d.renumber c.ρ)) := by
  intro st st' hst
  have hd' : d.renumber c.ρ ∈ c.declared' := List.mem_map_of_mem hd
  obtain ⟨hholds, hcases⟩ := hst.hooks.hooksFor c.distinct hd st.shop
  obtain ⟨hholds', hcases'⟩ := hst.hooks'.hooksFor c.distinct' hd' st'.shop
  rw [ModuleTable.bodyOf_renumber] at hcases'
  change ExceptRel (Hooks.Alike c.names) (((st.hooks.hooksFor d).run st.shop).1.1.mapError Error.load)
      (((st'.hooks.hooksFor (d.renumber c.ρ)).run st'.shop).1.1.mapError Error.load) ∧
    c.Matching { st with
        shop := ((st.hooks.hooksFor d).run st.shop).2
        hooks := ((st.hooks.hooksFor d).run st.shop).1.2 }
      { st' with
        shop := ((st'.hooks.hooksFor (d.renumber c.ρ)).run st'.shop).2
        hooks := ((st'.hooks.hooksFor (d.renumber c.ρ)).run st'.shop).1.2 }
  generalize (st.hooks.hooksFor d).run st.shop = out at hholds hcases ⊢
  generalize (st'.hooks.hooksFor (d.renumber c.ρ)).run st'.shop = out' at hholds' hcases' ⊢
  obtain ⟨⟨answer, cache⟩, shop⟩ := out
  obtain ⟨⟨answer', cache'⟩, shop'⟩ := out'
  rcases hcases with ⟨e, hbody, rfl, rfl⟩ | ⟨body, w, hbody, rfl, hshop⟩
  · rcases hcases' with ⟨e', hbody', rfl, rfl⟩ | ⟨body', w', hbody', rfl, hshop'⟩
    · obtain rfl := Except.error.inj (hbody.symm.trans hbody')
      exact ⟨.error _, { hst with hooks := hholds, hooks' := hholds' }⟩
    · cases hbody.symm.trans hbody'
  · rcases hcases' with ⟨e', hbody', rfl, rfl⟩ | ⟨body', w', hbody', rfl, hshop'⟩
    · cases hbody.symm.trans hbody'
    · obtain rfl := Except.ok.inj (hbody.symm.trans hbody')
      have hblind := c.blind d hd body hbody
      have hnext : shop.nextId = st.shop.nextId := by
        rcases hshop with rfl | rfl
        · rfl
        · exact (hblind c.ρ d st.shop st.shop).2
      have hnext' : shop'.nextId = st'.shop.nextId := by
        rcases hshop' with rfl | rfl
        · rfl
        · exact (hblind c.ρ _ st'.shop st'.shop).2
      refine ⟨.ok ⟨(hblind c.ρ d w w').1, c.keeps d hd body hbody d w⟩,
        { hst with hooks := hholds, hooks' := hholds', shop := ?_ }⟩
      dsimp only
      rw [hnext, hnext']
      exact hst.shop

theorem hooksForAll_inStep {ds : List Declaration} (hds : ∀ d ∈ ds, d ∈ c.declared) :
    c.walks.holds (ExceptRel (DerivesAlike c.ρ c.names)) (hooksForAll ds)
      (hooksForAll (ds.map (Declaration.renumber c.ρ))) := by
  induction ds with
  | nil => exact c.walks.pure (.ok .nil)
  | cons d ds ih =>
    refine c.walks.bind (hooksFor_inStep (hds d List.mem_cons_self)) fun a b hab => ?_
    cases hab with
    | error e => exact c.walks.pure (.error e)
    | ok hhooks =>
      refine c.walks.bind (ih fun d' hd' => hds d' (List.mem_cons_of_mem _ hd')) fun as bs habs => ?_
      cases habs with
      | error e => exact c.walks.pure (.error e)
      | ok hmore => exact c.walks.pure (.ok (.cons ⟨rfl, hhooks⟩ hmore))

theorem reportUnresolved_inStep (policy : MissPolicy) (className : String) (names : List String) :
    c.walks.holds Eq (reportUnresolved policy className names)
      (reportUnresolved policy className names) := by
  induction names with
  | nil => exact c.walks.pure rfl
  | cons name names ih =>
    unfold reportUnresolved
    cases policy.apply (.unresolvedDerive className name) with
    | error e => exact c.walks.pure rfl
    | ok warnings =>
      refine c.walks.bind (Lockstep.modify fun st st' h => ?_) fun _ _ _ => ih
      exact { h with warnings := by rw [h.warnings] }

end Steps

namespace Settings

variable {c} {g g' : ExpansionSetting} (hg : c.Settings g g')

include hg

theorem deriveDeclarations {head : ClassHead} (h : ∀ name ∈ head.derives, c.names name) :
    g'.registry.deriveDeclarations head =
      (g.registry.deriveDeclarations head).map (Declaration.renumber c.ρ) := by
  unfold Registry.deriveDeclarations
  rw [List.map_filterMap]
  exact List.filterMap_congr fun name hname => hg.derive name (h name hname)

theorem unresolvedDerives {head : ClassHead} (h : ∀ name ∈ head.derives, c.names name) :
    g'.registry.unresolvedDerives head = g.registry.unresolvedDerives head :=
  List.filter_congr fun name hname => by rw [hg.derive name (h name hname), Option.isNone_map]

theorem mem_deriveDeclarations {head : ClassHead} {d : Declaration}
    (h : d ∈ g.registry.deriveDeclarations head) : d ∈ c.declared := by
  obtain ⟨name, -, hname⟩ := List.mem_filterMap.mp h
  exact hg.derived name d hname

theorem governing? (e : Expr) : MacroEngine.governing? g' (e.renumber c.ρ) =
    (MacroEngine.governing? g e).map (Declaration.renumber c.ρ) := by
  unfold MacroEngine.governing?
  rw [Expr.useSite?_renumber, Expr.id_renumber]
  cases e.useSite? with
  | none => rfl
  | some use => exact hg.binding use.1 e.id

/-- What is governed was parsed, and by a declaration of the program. -/
theorem of_governing? {e : Expr} {d : Declaration} (h : MacroEngine.governing? g e = some d) :
    e.id < c.bound ∧ d ∈ c.declared := by
  obtain ⟨use, -, hbinding⟩ := Option.bind_eq_some_iff.mp h
  exact hg.bound use.1 e.id d hbinding

end Settings

section Visits

open Walk

variable {c} {g g' : ExpansionSetting} (hg : c.Settings g g')

include hg

theorem expandClass_inStep {s : Stmt} (hs : s.Within c.names) : c.walks.holds
    (ExceptRel (SendsOn (fun a => ∀ t ∈ a, t.Within c.names) (Option.map (Stmt.renumber c.ρ))))
    (expandClass g s) (expandClass g' (s.renumber c.ρ)) := by
  have hsame : c.walks.holds
      (ExceptRel (SendsOn (fun a => ∀ t ∈ a, t.Within c.names) (Option.map (Stmt.renumber c.ρ))))
      (pure (.ok (some s)) : Walk (Except Error (Option Stmt)))
      (pure (.ok (some (s.renumber c.ρ)))) :=
    c.walks.pure (.ok ⟨fun t ht => Option.mem_some.mp ht ▸ hs, rfl⟩)
  cases s with
  | classDecl stamp head ms =>
    rw [Stmt.renumber] at hsame ⊢
    rw [expandClass, expandClass, hg.policy, hg.unresolvedDerives hs.1, hg.deriveDeclarations hs.1]
    refine c.walks.bindEq (reportUnresolved_inStep _ _ _) fun reported => ?_
    cases reported with
    | error e => exact c.walks.pure (.error e)
    | ok =>
      have hmem : ∀ d ∈ g.registry.deriveDeclarations head, d ∈ c.declared := fun d hd =>
        hg.mem_deriveDeclarations hd
      generalize g.registry.deriveDeclarations head = ds at hmem
      cases ds with
      | nil => exact hsame
      | cons d ds =>
        refine c.walks.bind (hooksForAll_inStep hmem) fun derives derives' hderives => ?_
        cases hderives with
        | error e => exact c.walks.pure (.error e)
        | @ok derives derives' hderives =>
          refine c.walks.bind Lockstep.get fun st st' hst => ?_
          have hwork := work_inStep (transformClass_inStep hg.within hderives hs hst.patcher)
          rw [← hg.file] at hwork
          refine c.walks.bind hwork fun out out' hout => ?_
          obtain ⟨out, beside, patcher⟩ := out
          obtain ⟨_, _, patcher'⟩ := out'
          obtain ⟨⟨hout, rfl⟩, rfl, hpatcher⟩ := hout
          refine c.walks.bind (Lockstep.modify fun _ _ h => { h with patcher := hpatcher }) ?_
          intro _ _ _
          refine c.walks.bind (record_inStep rfl rfl) fun _ _ _ => c.walks.pure (.ok ⟨?_, ?_⟩)
          · intro t ht
            obtain ⟨t, hmem, rfl⟩ := Option.mem_map.mp ht
            exact (t.within_withStamp _).mpr (hout t hmem)
          · rw [Option.map_map, Option.map_map]
            congr 1
            funext s
            exact (Stmt.withId_renumber c.ρ _ s).symm
  | binding _ _ _ init _ => cases init <;> exact hsame
  | ret _ value => cases value <;> exact hsame
  | ifElse _ _ _ alternative => cases alternative <;> exact hsame
  | _ => exact hsame

theorem expandSite_inStep {d : Declaration} (hd : d ∈ c.declared) {site : Expr}
    (hsite : site.Within c.names) : c.walks.holds
    (SendsOn (fun out => out.1.Within c.names) fun out => (out.1.renumber c.ρ, out.2))
    (expandSite g d site) (expandSite g' (d.renumber c.ρ) (site.renumber c.ρ)) := by
  refine c.walks.bind (hooksFor_inStep hd) fun hooks hooks' hhooks => ?_
  cases hhooks with
  | error e => exact c.walks.pure ⟨hsite, rfl⟩
  | ok hhooks =>
    refine c.walks.bind Lockstep.get fun st st' hst => ?_
    have hwork := work_inStep (transformSite_inStep hg.within d hhooks hsite hst.patcher)
    rw [← hg.file] at hwork
    refine c.walks.bind hwork fun out out' hout => ?_
    obtain ⟨out, patcher⟩ := out
    obtain ⟨out', patcher'⟩ := out'
    obtain ⟨hout, hpatcher⟩ := hout
    refine c.walks.bind (Lockstep.modify fun _ _ h => { h with patcher := hpatcher }) ?_
    intro _ _ _
    cases hout with
    | error e => exact c.walks.pure ⟨trivial, by simp [Expr.renumber]⟩
    | ok hr =>
      obtain ⟨hr, rfl⟩ := hr
      exact c.walks.bind (record_inStep rfl rfl) fun _ _ _ => c.walks.pure ⟨hr, rfl⟩

theorem derivedEntry_inStep {s : Stmt} (hs : s.Within c.names) : c.walks.holds
    (SendsOn (fun a => ∀ t ∈ a, t.Within c.names) (Option.map (Stmt.renumber c.ρ)))
    (derivedEntry g s) (derivedEntry g' (s.renumber c.ρ)) := by
  unfold derivedEntry
  rw [Stmt.isDerivedClass_renumber]
  split
  · refine c.walks.bind (expandClass_inStep hg hs) fun a b hab => ?_
    cases hab with
    | error e =>
      exact c.walks.bind (halt_inStep e) fun _ _ _ =>
        c.walks.pure ⟨fun _ ht => absurd ht (Option.not_mem_none _), rfl⟩
    | ok h => exact c.walks.pure h
  · exact c.walks.pure ⟨fun t ht => Option.mem_some.mp ht ▸ hs, rfl⟩

omit hg in
theorem withBeside_inStep {x y : Walk (List Stmt)}
    (h : c.walks.holds (Sends (List.map (Stmt.renumber c.ρ))) x y) :
    c.walks.holds (Sends (List.map (Stmt.renumber c.ρ))) (withBeside x) (withBeside y) := by
  refine c.walks.bind Lockstep.get fun outer outer' houter => ?_
  refine c.walks.bind (Lockstep.modify fun _ _ h => { h with beside := rfl }) fun _ _ _ => ?_
  refine c.walks.bindSends h fun visited => ?_
  refine c.walks.bind Lockstep.get fun own own' hown => ?_
  refine c.walks.bind (Lockstep.modify fun _ _ h => { h with beside := houter.beside }) ?_
  intro _ _ _
  refine c.walks.pure ?_
  rw [Sends, hown.beside]
  simp [Beside.renumber]

theorem expandEntry_inStep {visit visit' : Stmt → Walk Stmt}
    (h : ∀ s : Stmt, s.Within c.names →
      c.walks.holds (Sends (Stmt.renumber c.ρ)) (visit s) (visit' (s.renumber c.ρ)))
    {s : Stmt} (hs : s.Within c.names) : c.walks.holds (Sends (List.map (Stmt.renumber c.ρ)))
      (expandEntry g visit s) (expandEntry g' visit' (s.renumber c.ρ)) := by
  refine c.walks.bindEq isHalted_inStep fun halted => ?_
  split
  · exact c.walks.pure rfl
  · refine withBeside_inStep (c.walks.bindOn (derivedEntry_inStep hg hs) fun kept hkept => ?_)
    cases kept with
    | none => exact c.walks.pure rfl
    | some s => exact c.walks.bindSends (h s (hkept s rfl)) fun _ => c.walks.pure rfl

theorem expandOpen_inStep {visit visit' inside inside' : Expr → Walk Expr}
    (hvisit : ∀ e : Expr, e.Within c.names →
      c.walks.holds (Sends (Expr.renumber c.ρ)) (visit e) (visit' (e.renumber c.ρ)))
    (hinside : ∀ e : Expr, e.Within c.names →
      c.walks.holds (Sends (Expr.renumber c.ρ)) (inside e) (inside' (e.renumber c.ρ)))
    {d : Declaration} (hd : d ∈ c.declared) {e : Expr} (hwithin : e.Within c.names)
    (he : e.id < c.bound) : c.walks.holds (Sends (Expr.renumber c.ρ)) (expandOpen g visit inside d e)
      (expandOpen g' visit' inside' (d.renumber c.ρ) (e.renumber c.ρ)) := by
  unfold expandOpen
  rw [Expr.id_renumber]
  refine c.walks.bind (enter_inStep he) fun _ _ _ => ?_
  have hafter : c.walks.holds (Sends (Expr.renumber c.ρ))
      (expandSite g d e >>= afterSite visit inside e.id)
      (expandSite g' (d.renumber c.ρ) (e.renumber c.ρ) >>= afterSite visit' inside' (c.ρ e.id)) := by
    refine c.walks.bindOn (expandSite_inStep hg hd hwithin) fun out hout => ?_
    obtain ⟨r, err | ⟨⟩⟩ := out
    · exact c.walks.bind (halt_inStep err) fun _ _ _ => c.walks.pure rfl
    · have hsame : c.ρ r.id = c.ρ e.id ↔ r.id = e.id := c.apart.eq_iff he
      dsimp only [afterSite]
      rw [Expr.id_renumber]
      simp only [ne_eq, hsame]
      split
      · exact hvisit r hout
      · exact hinside r hout
  refine c.walks.bindSends hafter fun out => ?_
  exact c.walks.bind leave_inStep fun _ _ _ => c.walks.pure rfl

/-- Visits with other numbers are in lockstep, however deep they go. -/
theorem expand_inStep (depth : Nat) : ChildMap.InStep c.walks c.ρ c.names
    ⟨expandExpr g depth, expandStmt g depth, expandStmts g depth⟩
    ⟨expandExpr g' depth, expandStmt g' depth, expandStmts g' depth⟩ := by
  have hpath : g'.file.path = g.file.path := by rw [hg.file]; rfl
  induction depth with
  | zero =>
    refine ⟨fun e _ => ?_, fun s _ => ?_, fun ss _ => ?_⟩ <;>
      · dsimp only [expandExpr, expandStmt, expandStmts]
        rw [hpath]
        exact c.walks.bind (halt_inStep _) fun _ _ _ => c.walks.pure rfl
  | succ n ih =>
    refine ⟨fun e hwithin => ?_, fun s => ih.mapChildren_stmt, fun ss hss => ?_⟩
    · dsimp only [expandExpr]
      refine c.walks.bindEq isHalted_inStep fun halted => ?_
      split
      · exact c.walks.pure rfl
      · rw [hg.governing?]
        cases hd : MacroEngine.governing? g e with
        | none => exact ih.mapChildren_expr hwithin
        | some d =>
          obtain ⟨he, hdeclared⟩ := hg.of_governing? hd
          refine c.walks.bind Lockstep.get fun st st' hst => ?_
          have hcontains : st'.expanding.contains (e.renumber c.ρ).id = st.expanding.contains e.id := by
            rw [hst.expanding, Expr.id_renumber, Bool.eq_iff_iff, List.contains_iff_mem,
              List.contains_iff_mem, List.mem_map]
            constructor
            · rintro ⟨i, hi, heq⟩
              exact c.apart i e.id he heq ▸ hi
            · exact fun hi => ⟨e.id, hi, rfl⟩
          rw [hcontains]
          split
          · exact ih.mapChildren_expr hwithin
          · exact expandOpen_inStep hg ih.expr (fun _ => ih.mapChildren_expr) hdeclared hwithin he
    · dsimp only [expandStmts]
      have hentries := c.walks.mapM ss fun s hs =>
        expandEntry_inStep hg ih.stmt (Stmt.withinAll_iff.mp hss s hs)
      refine c.walks.bindSends hentries fun out => c.walks.pure ?_
      rw [Sends, List.map_flatten]

end Visits

end Twins

end MacroEngine
