import MacroEngine.Proofs.Expansion.Calls
import MacroEngine.Proofs.Order.Blind

/-!
# Sites in progress

The sites that a walk has noted as being expanded are a stack without repetitions, of bound sites
alone, at every point of the walk. So sites nest no deeper than there are bound identities. Where
neither the tree that is visited nor what hooks put into it holds a class whose derives mean
something, no class ever runs, and then every visit comes to an end.
-/

namespace MacroEngine

open Expansion

/-- The hook memories that requests lead to. -/
inductive HookCache.Later (cache : HookCache) : HookCache → Prop where
  | refl : Later cache cache
  | ask {asked : HookCache} (h : Later cache asked) (d : Declaration) (shop : Workshop) :
      Later cache ((asked.hooksFor d).run shop).1.2

def HookCache.MayAnswer (cache : HookCache) (hooks : Hooks) : Prop :=
  ∃ asked d shop, cache.Later asked ∧ ((asked.hooksFor d).run shop).1.1 = .ok hooks

/-- A hook that is shown no class that lists other names puts none in place of what it is shown. -/
def TransformHook.Spares (names : String → Prop) (hook : TransformHook) : Prop :=
  ∀ (view : SiteView) (w : Workshop), view.node.Within names →
    ∀ edit ∈ ((hook view).run w).1, ∀ node, edit.replacement? = some node → node.Within names

def HookCache.Spares (names : String → Prop) (cache : HookCache) : Prop :=
  ∀ hooks, cache.MayAnswer hooks → ∀ hook ∈ hooks.transform, hook.Spares names

def Registry.Unknown (r : Registry) (name : String) : Prop := r.derive? name = none

theorem HookCache.Later.trans {cache asked later : HookCache} (h : cache.Later asked)
    (h' : asked.Later later) : cache.Later later := by
  induction h' with
  | refl => exact h
  | ask _ d shop ih => exact .ask ih d shop

theorem HookCache.Spares.later {names : String → Prop} {cache asked : HookCache}
    (h : cache.Spares names) (hlater : cache.Later asked) : asked.Spares names := by
  rintro hooks ⟨later, d, shop, hlater', hok⟩
  exact h hooks ⟨later, d, shop, hlater.trans hlater', hok⟩

section Turns

variable {names : String → Prop} {file : FileView} {d : Declaration}

/-- Hooks that put no such class leave none. -/
theorem Folded.within_through {hooks : List TransformHook}
    (hhooks : ∀ hook ∈ hooks, hook.Spares names) {f : Folded} (hf : f.node.Within names)
    (shop : Workshop) : ((Folded.through file d hooks f).run shop).1.node.Within names := by
  induction hooks generalizing f shop with
  | nil => exact hf
  | cons hook hooks ih =>
    obtain ⟨hhook, hhooks⟩ := List.forall_mem_cons.mp hhooks
    rw [Folded.through, StateT.run_bind]
    exact ih hhooks (Edit.within_commitNode hf (hhook _ shop hf)) _

theorem within_transformSite {hooks : Hooks} (hhooks : ∀ hook ∈ hooks.transform, hook.Spares names)
    {site : Expr} (hsite : site.Within names) {patcher : Patcher} {shop : Workshop}
    {e : Expr} {beside : Beside}
    (h : ((transformSite file d hooks site patcher).run shop).1.1 = .ok (e, beside)) :
    e.Within names := by
  have hput : (Folded.mk (.expr site) .empty patcher).node.Within names := hsite
  have hwithin : ((Folded.through file d hooks.transform
      ⟨.expr site, .empty, patcher⟩).run shop).1.node.Within names :=
    Folded.within_through hhooks hput shop
  rw [transformSite, StateT.run_bind] at h
  generalize (Folded.through file d hooks.transform _).run shop = out at h hwithin
  obtain ⟨⟨node, _, _⟩, _⟩ := out
  cases node with
  | expr left =>
    obtain ⟨rfl, -⟩ := Prod.mk.inj (Except.ok.inj h)
    exact hwithin
  | void span =>
    obtain ⟨rfl, -⟩ := Prod.mk.inj (Except.ok.inj h)
    trivial
  | stmt s =>
    cases s with
    | expr stamp left =>
      obtain ⟨rfl, -⟩ := Prod.mk.inj (Except.ok.inj h)
      exact hwithin
    | _ => cases h

end Turns

/-! ## Walks in which no class runs -/

section Mild

variable {g : ExpansionSetting}

def Part.Underived (g : ExpansionSetting) (p : Part) : Prop :=
  ∀ i ∈ p.items, i.Within g.registry.Unknown

theorem Expr.underived_parts {e : Expr} (h : e.Within g.registry.Unknown) :
    ∀ p ∈ e.parts, p.Underived g := by
  rw [Expr.within_iff, Expr.items_eq_parts] at h
  exact fun p hp i hi => h i (List.mem_cons_of_mem _ (List.mem_flatMap.mpr ⟨p, hp, hi⟩))

theorem Stmt.underived_parts {s : Stmt} (h : s.Within g.registry.Unknown) :
    ∀ p ∈ s.parts, p.Underived g := by
  rw [Stmt.within_iff, Stmt.items_eq_parts] at h
  exact fun p hp i hi => h i (List.mem_cons_of_mem _ (List.mem_flatMap.mpr ⟨p, hp, hi⟩))

/-- No class has run in between, and the hook memory has answered requests at most. -/
structure Mild (st st' : Expansion) : Prop where
  classes : st'.classCount = st.classCount
  hooks : st.hooks.Later st'.hooks

theorem Mild.refl (st : Expansion) : Mild st st := ⟨rfl, .refl⟩

theorem Mild.trans {st st₁ st₂ : Expansion} (h : Mild st st₁) (h' : Mild st₁ st₂) : Mild st st₂ :=
  ⟨h'.classes.trans h.classes, h.hooks.trans h'.hooks⟩

/-- In a walk with a hook memory that spares a tree, a call is mild. -/
def Soothes (g : ExpansionSetting) (c : Call) : Prop :=
  ∀ st, st.hooks.Spares g.registry.Unknown → Mild st (c.after g st)

theorem soothes_all {calls : List Call} (h : ∀ c ∈ calls, Soothes g c) {st : Expansion}
    (hst : st.hooks.Spares g.registry.Unknown) : Mild st (afterAll g calls st) := by
  induction calls generalizing st with
  | nil => exact .refl st
  | cons c calls ih =>
    obtain ⟨hc, hcalls⟩ := List.forall_mem_cons.mp h
    have hmild := hc st hst
    exact hmild.trans (ih hcalls (hst.later hmild.hooks))

/-- A site that runs is mild, and leaves nothing with a class whose derives mean something. -/
theorem expandSite_mild {e : Expr} (he : e.Within g.registry.Unknown) (d : Declaration)
    {st : Expansion} (hst : st.hooks.Spares g.registry.Unknown) :
    Mild st ((expandSite g d e).run st).2 ∧ (((expandSite g d e).run st).1.2 = .ok () →
      ((expandSite g d e).run st).1.1.Within g.registry.Unknown) := by
  have hlater : st.hooks.Later ((Walk.hooksFor d).run st).2.hooks := .ask .refl d st.shop
  have hclasses : ((Walk.hooksFor d).run st).2.classCount = st.classCount := rfl
  have hspares (hooks : Hooks) (h : ((Walk.hooksFor d).run st).1 = .ok hooks) :
      ∀ hook ∈ hooks.transform, hook.Spares g.registry.Unknown :=
    hst hooks ⟨st.hooks, d, st.shop, .refl, hooksFor_eq_ok h⟩
  unfold expandSite
  rw [run_bind]
  generalize (Walk.hooksFor d).run st = found at hlater hclasses hspares
  obtain ⟨err | hooks, st₁⟩ := found
  · exact ⟨⟨hclasses, hlater⟩, nofun⟩
  · simp only [run_bind, run_get, run_work, run_modify]
    cases hout : ((transformSite g.file d hooks e st₁.patcher).run st₁.shop).1.1 with
    | error err => exact ⟨⟨hclasses, hlater⟩, nofun⟩
    | ok out =>
      have hcount : List.countP (fun run => !run.isSite) (.site d e out.2 :: st₁.runs) =
          List.countP (fun run => !run.isSite) st₁.runs :=
        List.countP_cons_of_neg (by simp [HookRun.isSite])
      exact ⟨⟨hcount.trans hclasses, hlater⟩, fun _ => within_transformSite (hspares hooks rfl) he hout⟩

theorem reportUnresolved_mild (policy : MissPolicy) (className : String) (names : List String)
    (st : Expansion) : Mild st ((reportUnresolved policy className names).run st).2 := by
  induction names generalizing st with
  | nil => exact .refl st
  | cons name names ih =>
    unfold reportUnresolved
    split
    · exact .refl st
    · rename_i warnings _
      have hmore := ih { st with warnings := st.warnings ++ warnings }
      exact ⟨hmore.classes, hmore.hooks⟩

/-- A statement whose derives mean nothing is left as it is, or an error is noted. -/
theorem derivedEntry_mild {s : Stmt} (hs : s.Within g.registry.Unknown) (st : Expansion) :
    Mild st ((derivedEntry g s).run st).2 ∧
      (((derivedEntry g s).run st).1 = none ∨ ((derivedEntry g s).run st).1 = some s) := by
  unfold derivedEntry
  split
  · cases s with
    | classDecl stamp head members =>
      have hnone : g.registry.deriveDeclarations head = [] := List.filterMap_eq_nil_iff.mpr hs.1
      have hreport := reportUnresolved_mild g.unresolvedDerive head.name
        (g.registry.unresolvedDerives head) st
      simp only [run_bind, expandClass, hnone]
      generalize (reportUnresolved g.unresolvedDerive head.name
        (g.registry.unresolvedDerives head)).run st = out at hreport
      obtain ⟨err | ok, st'⟩ := out
      · exact ⟨⟨hreport.classes, hreport.hooks⟩, .inl rfl⟩
      · exact ⟨hreport, .inr rfl⟩
    | _ => exact ⟨.refl st, .inr rfl⟩
  · exact ⟨.refl st, .inr rfl⟩

theorem soothes_entry {n : ℕ} {s : Stmt} (hs : s.Within g.registry.Unknown)
    (hstmt : Soothes g (.stmt n s)) : Soothes g (.entry n s) := by
  intro st hst
  rw [Call.after, expandEntry, run_unless_halted]
  split
  · exact .refl st
  · obtain ⟨hmild, hleft⟩ := derivedEntry_mild hs st.aloof
    have hinner : Mild st.aloof
        ((derivedEntry g s >>= visitKept (expandStmt g n)).run st.aloof).2 := by
      rw [run_bind]
      generalize (derivedEntry g s).run st.aloof = out at hmild hleft
      obtain ⟨left, st'⟩ := out
      obtain rfl | rfl : left = none ∨ left = some s := hleft
      · exact hmild
      · exact hmild.trans (hstmt st' (HookCache.Spares.later hst hmild.hooks))
    exact ⟨hinner.classes, hinner.hooks⟩

theorem soothes_expr {n : ℕ} {e : Expr} (he : e.Within g.registry.Unknown)
    (hexpr : ∀ e' : Expr, e'.Within g.registry.Unknown → Soothes g (.expr n e'))
    (hparts : ∀ e' : Expr, e'.Within g.registry.Unknown → ∀ c ∈ visits n e'.parts, Soothes g c) :
    Soothes g (.expr (n + 1) e) := by
  intro st hst
  have hinside {e' : Expr} {st' : Expansion} (he' : e'.Within g.registry.Unknown)
      (hst' : st'.hooks.Spares g.registry.Unknown) :
      Mild st' ((e'.mapChildren (children g n)).run st').2 := by
    rw [Expr.after_mapChildren]
    exact soothes_all (hparts e' he') hst'
  rw [Call.after, expandExpr, run_unless_halted]
  split
  · exact .refl st
  split
  · exact hinside he hst
  rename_i d hbound
  rw [run_bind, run_get, run_ite]
  split
  · exact hinside he hst
  have hopening : (st.opening e.id).hooks.Spares g.registry.Unknown := hst
  obtain ⟨hmild, hleft⟩ := expandSite_mild he d hopening
  have hafter : Mild (st.opening e.id)
      ((afterSite (expandExpr g n) (Expr.mapChildren (children g n)) e.id
        ((expandSite g d e).run (st.opening e.id)).1).run
          ((expandSite g d e).run (st.opening e.id)).2).2 := by
    generalize (expandSite g d e).run (st.opening e.id) = out at hmild hleft
    obtain ⟨⟨left, err | ok⟩, st'⟩ := out
    · exact ⟨hmild.classes, hmild.hooks⟩
    · have hst' := HookCache.Spares.later hst hmild.hooks
      simp only [afterSite, run_ite]
      split
      · exact hmild.trans (hexpr left (hleft rfl) st' hst')
      · exact hmild.trans (hinside (hleft rfl) hst')
  exact ⟨hafter.classes, hafter.hooks⟩

/-- Visits of trees without such classes are mild. -/
theorem soothes (n : ℕ) (p : Part) (hp : p.Underived g) : Soothes g (p.call n) := by
  induction n generalizing p with
  | zero => cases p <;> exact fun st _ => ⟨rfl, .refl⟩
  | succ n ih =>
    have hvisits {ps : List Part} (hps : ∀ p ∈ ps, p.Underived g) : ∀ c ∈ visits n ps, Soothes g c := by
      intro c hc
      obtain ⟨p, hmem, rfl⟩ := List.mem_map.mp hc
      exact ih p (hps p hmem)
    cases p with
    | expr e =>
      exact soothes_expr ((Expr.within_iff _ e).mpr hp)
        (fun e' he' => ih (.expr e') ((Expr.within_iff _ e').mp he'))
        fun e' he' => hvisits (Expr.underived_parts he')
    | stmt s =>
      intro st hst
      rw [Part.call, Call.after, expandStmt]
      exact (Stmt.after_mapChildren n s st).symm ▸
        soothes_all (hvisits (Stmt.underived_parts ((Stmt.within_iff _ s).mpr hp))) hst
    | list ss =>
      intro st hst
      have hentries : ∀ c ∈ entries n ss, Soothes g c := by
        intro c hc
        obtain ⟨s, hmem, rfl⟩ := List.mem_map.mp hc
        have hs : ∀ i ∈ s.items true, i.Within g.registry.Unknown := fun i hi =>
          hp i (mem_itemsAll.mpr ⟨s, hmem, hi⟩)
        exact soothes_entry ((Stmt.within_iff _ s).mpr hs) (ih (.stmt s) hs)
      rw [Part.call, after_entries]
      exact soothes_all hentries hst

/-- Where no class whose derives mean something is visited, a visit comes to an end. -/
theorem settles_of_underived {e : Expr} (he : e.Within g.registry.Unknown) {st : Expansion}
    (hhooks : st.hooks.Spares g.registry.Unknown) (hst : ¬ Exhausted st) :
    Settles fun n => (expandExpr g n e).run st := by
  have hends := (allParts (g := g) (k := st.classCount) st.expanding st.classCount _).onExpr e
    (Nat.lt_succ_self _)
  refine hends.ends st rfl le_rfl hst ⟨0, fun n _ => ?_⟩
  exact (soothes n (.expr e) ((Expr.within_iff _ e).mp he) st hhooks).classes.le

end Mild

/-- The stack of the sites in progress. At every point of the expansion of a file, in front of every
call that is made on the way there, the sites noted as being expanded are those that the calls
leading there have opened and not left; they are all bound, no two of them have one identity, and so
there are no more of them than bound identities. Sites run when they have just been opened and were
not open before, and every run that is noted was such a call. Whatever becomes of a visit, it leaves
the noted sites as they were. And where neither an expression nor what hooks put in place of sites
holds a class with a derive name that means something, visiting the expression comes to an end. -/
theorem expanding_sound (g : ExpansionSetting) :
    (∀ n ss shop hooks opened c st, Comes g (.list n ss) (.start shop hooks) opened c st →
      st.expanding = opened ∧ opened.Nodup ∧ (∀ id ∈ opened, id ∈ boundIds g) ∧
        opened.length ≤ (boundIds g).card ∧
        ∀ d e, c = .site d e →
          ∃ outer, opened = e.id :: outer ∧ e.id ∉ outer ∧ governing? g e = some d) ∧
      (∀ n ss shop hooks,
        ∀ run ∈ ((expandStmts g n ss).run (.start shop hooks)).2.runs, ∃ opened c st,
          Comes g (.list n ss) (.start shop hooks) opened c st ∧ c.Notes run) ∧
      (∀ n e st, ((expandExpr g n e).run st).2.expanding = st.expanding) ∧
      ∀ e st, e.Within g.registry.Unknown → st.hooks.Spares g.registry.Unknown → ¬ Exhausted st →
        Settles fun n => (expandExpr g n e).run st := by
  refine ⟨fun n ss shop hooks opened c st hcomes => ?_, fun n ss shop hooks run hrun => ?_,
    fun n e st => Call.after_expanding (.expr n e) st, fun e st he hhooks hst => ?_⟩
  · obtain ⟨hexpanding, hstacked⟩ := hcomes.stacked .nil
    have hnil : (Expansion.start shop hooks).expanding = [] := rfl
    rw [hnil, List.append_nil] at hexpanding hstacked
    refine ⟨hexpanding, hstacked.nodup, hstacked.bound, hstacked.length_le, ?_⟩
    rintro d e rfl
    cases hcomes with
    | call hcomes' hmakes =>
      obtain ⟨rfl, hclosed, hbound⟩ := hmakes.of_site
      obtain ⟨hbefore, -⟩ := hcomes'.stacked .nil
      rw [hnil, List.append_nil] at hbefore
      exact ⟨_, rfl, hbefore ▸ hclosed, hbound⟩
  · exact ((traced n).2.2 ss (.start shop hooks) run hrun).resolve_left List.not_mem_nil
  · exact settles_of_underived he hhooks hst

section Rally

/-- The memory answers what it has and finds nothing else. -/
theorem rallyHooks_hooksFor (d : Declaration) (shop : Workshop) :
    ((rallyHooks.hooksFor d).run shop).1.2 = rallyHooks ∧
      ∀ hooks, ((rallyHooks.hooksFor d).run shop).1.1 = .ok hooks →
        hooks ∈ rallyHooks.hooks.map Prod.snd := by
  unfold HookCache.hooksFor
  cases hfound : Table.get? d.id rallyHooks.hooks with
  | some hooks =>
    refine ⟨rfl, fun hooks' heq => ?_⟩
    obtain rfl := Except.ok.inj heq
    exact List.mem_map_of_mem (Table.mem_of_get? hfound)
  | none => exact ⟨rfl, nofun⟩

theorem eq_rallyHooks_of_later {asked : HookCache} (h : rallyHooks.Later asked) :
    asked = rallyHooks := by
  induction h with
  | refl => rfl
  | ask _ d shop ih =>
    rw [ih]
    exact (rallyHooks_hooksFor d shop).1

theorem rallyHooks_spares (names : String → Prop) : rallyHooks.Spares names := by
  rintro hooks ⟨asked, d, shop, hlater, hok⟩
  rw [eq_rallyHooks_of_later hlater] at hok
  have hmem := (rallyHooks_hooksFor d shop).2 hooks hok
  simp only [rallyHooks, List.map_cons, List.map_nil, List.mem_cons, List.not_mem_nil,
    or_false] at hmem
  obtain rfl | rfl := hmem <;> intro hook hhook view w _ edit hedit node hnode
  all_goals
    obtain rfl := List.mem_singleton.mp hhook
    obtain rfl := List.mem_singleton.mp hedit
    obtain rfl := Option.some.inj hnode
    trivial

/-- Macros that are expanded to each other run once each. -/
theorem expanding_sound_rally : pingSite.Within rallySetting.registry.Unknown ∧
    rallyHooks.Spares rallySetting.registry.Unknown ∧
      ((expandExpr rallySetting 4 pingSite).run (.start default rallyHooks)).2.siteCount = 2 ∧
      Settles fun n => (expandExpr rallySetting n pingSite).run (.start default rallyHooks) :=
  ⟨trivial, rallyHooks_spares _, rfl,
    (expanding_sound rallySetting).2.2.2 pingSite (.start default rallyHooks) trivial
      (rallyHooks_spares _) nofun⟩

end Rally

end MacroEngine
