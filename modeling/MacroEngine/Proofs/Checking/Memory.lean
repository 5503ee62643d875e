import MacroEngine.Proofs.Checking.Purity
import MacroEngine.Proofs.Order.Cached

/-!
# What is in memory makes no difference

A request for the hooks of a declaration may find them in the cache, or run a body that is in the
memory of the loader, or load modules first; and an earlier request may have left a part of this
behind, whether it succeeded or failed. Over a table of pure bodies none of it shows. `transforms` is
what a request would answer: the transform hooks of a declaration, or the error. Requests for any
declarations leave it as it is, so caches that start alike stay alike whatever each of them is asked
for.
-/

namespace MacroEngine

namespace Loader

variable {table : ModuleTable} {l : Loader} {d : Declaration} {body : MacroBody}

def Exported (table : ModuleTable) (body : MacroBody) : Prop :=
  ∃ path m, table.answer? path = some m ∧ ∃ entry ∈ m.exports, entry.2 = body

/-- A body that is found was in memory, or stands in a module of the table. -/
theorem Reached.exported_of_loadBody (h : Reached table l)
    (hbody : ((loadBody d).run l).1 = .ok body) :
    Table.get? d.id l.bodies = some body ∨ Exported table body := by
  have houtcome := h.outcome d.file
  rw [run_loadBody] at hbody
  split at hbody
  · rename_i known hknown
    exact .inl (hknown.trans (congrArg some (Except.ok.inj hbody)))
  · refine .inr ?_
    generalize (loadModule d.file).run l = out at hbody houtcome
    obtain ⟨e | m, l'⟩ := out <;> rw [found] at hbody
    · cases hbody
    · obtain ⟨hanswer, -⟩ := ModuleTable.Safe.of_resolve houtcome.symm
      split at hbody
      · cases hbody
      · rename_i name _
        split at hbody
        · cases hbody
        · rename_i known hknown
          obtain ⟨before, after, hsplit, -⟩ := List.lookup_eq_some_iff.mp hknown
          refine ⟨d.file, m, hanswer, (name, known), ?_, Except.ok.inj hbody⟩
          rw [hsplit]
          exact List.mem_append_right _ List.mem_cons_self

/-- All bodies in memory stand in modules of the table. -/
theorem Reached.exported (h : Reached table l) {i : NodeId}
    (hbody : Table.get? i l.bodies = some body) : Exported table body := by
  induction h with
  | new => cases hbody
  | @module l p _ ih =>
    rw [(loadModule_keeps p l).bodies] at hbody
    exact ih hbody
  | @body l d hl ih =>
    rcases bodies_loadBody d l with hsame | ⟨found, hfound, hinsert⟩
    · exact ih (hsame ▸ hbody)
    · rw [hinsert, Table.get?_insert] at hbody
      split at hbody
      · rename_i hid
        obtain rfl := Option.some.inj hbody
        exact (hl.exported_of_loadBody hfound).elim (fun hknown => ih (eq_of_beq hid ▸ hknown)) id
      · exact ih hbody

theorem Reached.pure_of_loadBody (h : Reached table l) (htable : table.Pure)
    (hbody : ((loadBody d).run l).1 = .ok body) : body.Pure := by
  obtain ⟨path, m, hanswer, entry, hentry, rfl⟩ :=
    (h.exported_of_loadBody hbody).elim h.exported id
  exact htable path m hanswer entry hentry

/-- Looking for the same body once more comes to the same. -/
theorem Reached.loadBody_twice (h : Reached table l) (d : Declaration) :
    ((loadBody d).run ((loadBody d).run l).2).1 = ((loadBody d).run l).1 := by
  rcases bodies_loadBody d l with hsame | ⟨body, hbody, hinsert⟩
  · rw [run_loadBody d ((loadBody d).run l).2, hsame]
    cases hknown : Table.get? d.id l.bodies with
    | some body => rw [run_loadBody, hknown]
    | none =>
      rw [run_loadBody d l, hknown]
      refine outcome_found d ?_
      have hreached := h.body d
      rw [run_loadBody, hknown] at hreached
      exact (hreached.outcome d.file).trans (h.outcome d.file).symm
  · rw [run_loadBody, hinsert, Table.get?_insert_self, hbody]

end Loader

namespace HookCache

/-- The transform hooks that a request for the hooks of a declaration answers, or its error. -/
def transforms (cache : HookCache) (d : Declaration) : Except LoadError (List TransformHook) :=
  ((cache.hooksFor d).run default).1.1.map Hooks.transform

/-- The loader of a cache has only been called, and the hooks that the cache keeps are pure. -/
structure Pure (table : ModuleTable) (cache : HookCache) : Prop where
  reached : Loader.Reached table cache.loader
  hooks : ∀ i hooks, Table.get? i cache.hooks = some hooks → hooks.Pure

theorem Pure.new (table : ModuleTable) : (HookCache.new table).Pure table where
  reached := .new
  hooks _ _ h := by cases h

variable {table : ModuleTable} {cache cache' : HookCache} {d d' : Declaration}

theorem transforms_of_get? {hooks : Hooks} (h : Table.get? d.id cache.hooks = some hooks) :
    cache.transforms d = .ok hooks.transform := by
  unfold transforms hooksFor
  rw [h]
  rfl

theorem transforms_of_none (h : Table.get? d.id cache.hooks = none) : cache.transforms d =
    ((Loader.loadBody d).run cache.loader).1.map
      fun body => ((body d).run default).1.transform := by
  unfold transforms hooksFor
  rw [h]
  generalize (Loader.loadBody d).run cache.loader = out
  obtain ⟨e | body, l⟩ := out <;> rfl

/-- A request answers pure hooks, the ones that any request would, or the error that any request
would. All it does to the workshop is write. -/
theorem Pure.hooksFor (htable : table.Pure) (h : cache.Pure table) (d : Declaration) (w : Workshop) :
    ((cache.hooksFor d).run w).1.2.Pure table ∧ w.Agrees ((cache.hooksFor d).run w).2 ∧
      ((cache.hooksFor d).run w).1.1.map Hooks.transform = cache.transforms d ∧
      ∀ hooks, ((cache.hooksFor d).run w).1.1 = .ok hooks → hooks.Pure := by
  have hreached := reached_hooksFor (d := d) h.reached w
  change Loader.Reached table (cache.serve ⟨d, w⟩).after.loader at hreached
  change (cache.serve ⟨d, w⟩).after.Pure table ∧ w.Agrees (cache.serve ⟨d, w⟩).shop ∧
    (cache.serve ⟨d, w⟩).answer.map Hooks.transform = cache.transforms d ∧
    ∀ hooks, (cache.serve ⟨d, w⟩).answer = .ok hooks → hooks.Pure
  rcases cache.serve_cases ⟨d, w⟩ with ⟨hooks, hcached, hs⟩ | ⟨e, l, hl, hs⟩ |
    ⟨body, l, hooks, shop, hnone, hl, hrun, hs⟩ <;> rw [hs] at hreached ⊢
  · refine ⟨h, .refl w, (transforms_of_get? hcached).symm, fun hooks' heq => ?_⟩
    obtain rfl := Except.ok.inj heq
    exact h.hooks _ _ hcached
  · refine ⟨⟨hreached, h.hooks⟩, .refl w, ?_, nofun⟩
    cases hcached : Table.get? d.id cache.hooks with
    | some hooks =>
      obtain ⟨-, hanswer⟩ := serve_of_get? (r := ⟨d, w⟩) hcached
      rw [hs] at hanswer
      cases hanswer
    | none =>
      rw [transforms_of_none hcached, hl]
      rfl
  · have hpure := h.reached.pure_of_loadBody htable (congrArg Prod.fst hl)
    have hhooks : ((body d).run w).1 = hooks := congrArg Prod.fst hrun
    have hshop : ((body d).run w).2 = shop := congrArg Prod.snd hrun
    refine ⟨⟨hreached, fun i hooks' hget => ?_⟩, hshop ▸ hpure.shop d w, ?_, fun hooks' heq => ?_⟩
    · dsimp only at hget
      rw [Table.get?_insert] at hget
      split at hget
      · obtain rfl := Option.some.inj hget
        exact hhooks ▸ hpure.hooks d w
      · exact h.hooks i hooks' hget
    · rw [transforms_of_none hnone, hl, ← hhooks]
      exact congrArg Except.ok (hpure.transform d default w)
    · obtain rfl := Except.ok.inj heq
      exact hhooks ▸ hpure.hooks d w

/-- A request for one declaration leaves what a request for another one, or for the same one, would
answer. -/
theorem Pure.transforms_hooksFor (htable : table.Pure) (h : cache.Pure table)
    (hid : d'.id = d.id → d' = d) (w : Workshop) :
    ((cache.hooksFor d').run w).1.2.transforms d = cache.transforms d := by
  -- Whatever the request did to the loader, the body of `d` is looked for with the same outcome.
  have hagain : ((Loader.loadBody d).run ((Loader.loadBody d').run cache.loader).2).1 =
      ((Loader.loadBody d).run cache.loader).1 := by
    cases hsame : d'.id == d.id with
    | true =>
      rw [hid (eq_of_beq hsame)]
      exact h.reached.loadBody_twice d
    | false => exact h.reached.loadBody_again hsame
  have hstays {hooks : Hooks} (hcached : Table.get? d.id cache.hooks = some hooks) :
      ((cache.hooksFor d').run w).1.2.transforms d = cache.transforms d := by
    rw [transforms_of_get? hcached]
    exact transforms_of_get? (get?_serve hcached ⟨d', w⟩)
  cases hcached : Table.get? d.id cache.hooks with
  | some hooks => exact hstays hcached
  | none =>
    change (cache.serve ⟨d', w⟩).after.transforms d = cache.transforms d
    rcases cache.serve_cases ⟨d', w⟩ with ⟨hooks, -, hs⟩ | ⟨e, l, hl, hs⟩ |
      ⟨body, l, hooks, shop, hnone, hl, hrun, hs⟩ <;> rw [hs]
    · rw [hl] at hagain
      have hmissing : transforms ⟨l, cache.hooks⟩ d = _ := transforms_of_none hcached
      rw [hmissing, transforms_of_none hcached, hagain]
    · rw [hl] at hagain
      rw [transforms_of_none hcached]
      cases hsame : d'.id == d.id with
      -- The request kept hooks of `d` itself: those that its body registers whenever it runs.
      | true =>
        obtain rfl := hid (eq_of_beq hsame)
        have hpure := h.reached.pure_of_loadBody htable (congrArg Prod.fst hl)
        have hhooks : ((body d').run w).1 = hooks := congrArg Prod.fst hrun
        rw [transforms_of_get? (Table.get?_insert_self _ _ _), hl, ← hhooks]
        exact congrArg Except.ok (hpure.transform d' default w)
      | false =>
        have hmissing : Table.get? d.id (Table.insert d'.id hooks cache.hooks) = none := by
          rw [Table.get?_insert, hsame]
          exact hcached
        rw [transforms_of_none hmissing, hagain]

structure Abreast (table : ModuleTable) (ds : List Declaration) (cache cache' : HookCache) : Prop where
  pure : cache.Pure table
  pure' : cache'.Pure table
  same : ∀ d ∈ ds, cache'.transforms d = cache.transforms d

variable {ds : List Declaration}

theorem Abreast.symm (h : Abreast table ds cache cache') : Abreast table ds cache' cache :=
  ⟨h.pure', h.pure, fun d hd => (h.same d hd).symm⟩

/-- A cache and what a request makes of it. -/
theorem Pure.abreast_hooksFor (htable : table.Pure) (h : cache.Pure table)
    (hdistinct : (ds.map Declaration.id).Nodup) (hd : d ∈ ds) (w : Workshop) :
    Abreast table ds cache ((cache.hooksFor d).run w).1.2 where
  pure := h
  pure' := (h.hooksFor htable d w).1
  same _ hd' := h.transforms_hooksFor htable (eq_of_id hdistinct hd hd') w

theorem Abreast.trans {cache'' : HookCache} (h : Abreast table ds cache cache')
    (h' : Abreast table ds cache' cache'') : Abreast table ds cache cache'' :=
  ⟨h.pure, h'.pure', fun d hd => (h'.same d hd).trans (h.same d hd)⟩

end HookCache

end MacroEngine
