import MacroEngine.Proofs.Loading.Bodies
import MacroEngine.Proofs.Order.Blind

/-!
# Hooks out of a cache

Whether the hooks of a declaration are already in the cache depends on what was expanded before.
What they are does not: the body is the one that a new loader finds, and a blind body registers hooks
that ask for the same whenever it runs.
-/

namespace MacroEngine

def ModuleTable.bodyOf (table : ModuleTable) (d : Declaration) : Except LoadError MacroBody :=
  ((Loader.loadBody d).run (.new table)).1

theorem ModuleTable.bodyOf_renumber (table : ModuleTable) (ρ : NodeId → NodeId) (d : Declaration) :
    table.bodyOf (d.renumber ρ) = table.bodyOf d := by
  rw [bodyOf, bodyOf, Loader.run_loadBody, Loader.run_loadBody]
  change (Loader.found (d.renumber ρ) ((Loader.loadModule d.file).run (.new table))).1 =
    (Loader.found d ((Loader.loadModule d.file).run (.new table))).1
  obtain ⟨e | m, l⟩ := (Loader.loadModule d.file).run (.new table)
  · rfl
  · rw [Loader.found, Loader.found, Declaration.exportName?_renumber]
    split
    · rfl
    · split <;> rfl

/-- Over a table with one module for all paths, a body is found among its exports. -/
theorem ModuleTable.lookup_of_bodyOf {exports : List (String × MacroBody)} {d : Declaration}
    {body : MacroBody} (h : ModuleTable.bodyOf ⟨[], some ⟨exports, []⟩⟩ d = .ok body) :
    ∃ name, d.exportName? = some name ∧ exports.lookup name = some body := by
  rw [bodyOf, Loader.run_loadBody] at h
  change (Loader.found d (.ok ⟨exports, []⟩, _)).1 = .ok body at h
  rw [Loader.found] at h
  split at h
  · cases h
  · rename_i name hname
    split at h
    · cases h
    · rename_i found hfound
      exact ⟨name, hname, hfound.trans (congrArg some (Except.ok.inj h))⟩

namespace Loader

/-- Looking for a body enters it among the bodies, or enters nothing. -/
theorem bodies_loadBody (d : Declaration) (l : Loader) :
    ((loadBody d).run l).2.bodies = l.bodies ∨ ∃ body, ((loadBody d).run l).1 = .ok body ∧
      ((loadBody d).run l).2.bodies = Table.insert d.id body l.bodies := by
  have hkeeps := (loadModule_keeps d.file l).bodies
  rw [run_loadBody]
  split
  · exact .inl rfl
  · generalize (loadModule d.file).run l = out at hkeeps
    obtain ⟨e | m, l'⟩ := out <;> rw [found]
    · exact .inl hkeeps
    · split
      · exact .inl hkeeps
      · split
        · exact .inl hkeeps
        · rename_i body _
          exact .inr ⟨body, rfl, by rw [← hkeeps]⟩

end Loader

/-- What a cache holds belongs to some declarations, and is what a new cache would come to. -/
structure HookCache.Holds (cache : HookCache) (table : ModuleTable) (ds : List Declaration) :
    Prop where
  reached : Loader.Reached table cache.loader
  bodies : ∀ i body, Table.get? i cache.loader.bodies = some body →
    ∃ d ∈ ds, d.id = i ∧ table.bodyOf d = .ok body
  hooks : ∀ i hooks, Table.get? i cache.hooks = some hooks →
    ∃ d ∈ ds, d.id = i ∧ ∃ body w, table.bodyOf d = .ok body ∧ ((body d).run w).1 = hooks

namespace HookCache

variable {table : ModuleTable} {ds : List Declaration} {cache : HookCache} {d : Declaration}

theorem Holds.new (table : ModuleTable) (ds : List Declaration) :
    (HookCache.new table).Holds table ds where
  reached := .new
  bodies _ _ h := by cases h
  hooks _ _ h := by cases h

theorem Holds.mono {more : List Declaration} (h : cache.Holds table ds) (hsub : ds ⊆ more) :
    cache.Holds table more where
  reached := h.reached
  bodies i body hbody := (h.bodies i body hbody).imp fun _ hd => ⟨hsub hd.1, hd.2⟩
  hooks i hooks hhooks := (h.hooks i hooks hhooks).imp fun _ hd => ⟨hsub hd.1, hd.2⟩

/-- A declaration of those with different identities is known by its own. -/
theorem eq_of_id (hdistinct : (ds.map Declaration.id).Nodup) {d' : Declaration} (hd : d ∈ ds)
    (hd' : d' ∈ ds) (hid : d.id = d'.id) : d = d' :=
  List.inj_on_of_nodup_map hdistinct hd hd' hid

/-- A cache that holds what it should finds the body that a new loader finds. -/
theorem Holds.loadBody (h : cache.Holds table ds) (hdistinct : (ds.map Declaration.id).Nodup)
    (hd : d ∈ ds) : ((Loader.loadBody d).run cache.loader).1 = table.bodyOf d := by
  rw [Loader.run_loadBody]
  cases hbody : Table.get? d.id cache.loader.bodies with
  | some body =>
    obtain ⟨d', hd', hid, hbodyOf⟩ := h.bodies d.id body hbody
    obtain rfl := eq_of_id hdistinct hd' hd hid
    exact hbodyOf.symm
  | none =>
    rw [ModuleTable.bodyOf, Loader.run_loadBody]
    exact Loader.outcome_found d ((h.reached.outcome d.file).trans
      (Loader.Reached.new.outcome d.file).symm)

theorem Holds.with_loader (h : cache.Holds table ds) (hdistinct : (ds.map Declaration.id).Nodup)
    (hd : d ∈ ds) : ({ cache with loader := ((Loader.loadBody d).run cache.loader).2 } :
      HookCache).Holds table ds where
  reached := h.reached.body d
  bodies i body' hbody' := by
    have hfound := h.loadBody hdistinct hd
    rcases Loader.bodies_loadBody d cache.loader with heq | ⟨body, hbody, heq⟩
    · exact h.bodies i body' (heq ▸ hbody')
    · dsimp only at hbody'
      rw [heq, Table.get?_insert] at hbody'
      split at hbody'
      · rename_i hid
        obtain rfl := Option.some.inj hbody'
        exact ⟨d, hd, eq_of_beq hid, by rw [← hfound, hbody]⟩
      · exact h.bodies i body' hbody'
  hooks := h.hooks

/-- Asking for the hooks of a declaration fails if its body is not found. Else it answers what the
body registers when it runs, now or at some time before. -/
theorem Holds.hooksFor (h : cache.Holds table ds) (hdistinct : (ds.map Declaration.id).Nodup)
    (hd : d ∈ ds) (w : Workshop) :
    ((cache.hooksFor d).run w).1.2.Holds table ds ∧
      ((∃ e, table.bodyOf d = .error e ∧ ((cache.hooksFor d).run w).1.1 = .error e ∧
          ((cache.hooksFor d).run w).2 = w) ∨
        ∃ body w₀, table.bodyOf d = .ok body ∧
          ((cache.hooksFor d).run w).1.1 = .ok ((body d).run w₀).1 ∧
          (((cache.hooksFor d).run w).2 = w ∨
            ((cache.hooksFor d).run w).2 = ((body d).run w).2)) := by
  have hfound := h.loadBody hdistinct hd
  have hloader := h.with_loader hdistinct hd
  have hserve : ((cache.hooksFor d).run w).1.1 = (cache.serve ⟨d, w⟩).answer ∧
      ((cache.hooksFor d).run w).2 = (cache.serve ⟨d, w⟩).shop ∧
      ((cache.hooksFor d).run w).1.2 = (cache.serve ⟨d, w⟩).after := ⟨rfl, rfl, rfl⟩
  rw [hserve.1, hserve.2.1, hserve.2.2]
  rcases cache.serve_cases ⟨d, w⟩ with ⟨hooks, hcached, hs⟩ | ⟨e, l, hl, hs⟩ |
    ⟨body, l, hooks, shop, -, hl, hrun, hs⟩ <;> rw [hs]
  · obtain ⟨d', hd', hid, body, w₀, hbody, hhooks⟩ := h.hooks d.id hooks hcached
    obtain rfl := eq_of_id hdistinct hd' hd hid
    exact ⟨h, .inr ⟨body, w₀, hbody, congrArg Except.ok hhooks.symm, .inl rfl⟩⟩
  · rw [hl] at hfound hloader
    exact ⟨hloader, .inl ⟨e, hfound.symm, rfl, rfl⟩⟩
  · rw [hl] at hfound hloader
    have hhooks : ((body d).run w).1 = hooks := congrArg Prod.fst hrun
    refine ⟨⟨hloader.reached, hloader.bodies, fun i hooks' hget => ?_⟩, .inr ⟨body, w,
      hfound.symm, congrArg Except.ok hhooks.symm, .inr (congrArg Prod.snd hrun).symm⟩⟩
    dsimp only at hget
    rw [Table.get?_insert] at hget
    split at hget
    · rename_i hid
      obtain rfl := Option.some.inj hget
      exact ⟨d, hd, eq_of_beq hid, body, w, hfound.symm, hhooks⟩
    · exact h.hooks i hooks' hget

end HookCache

end MacroEngine
