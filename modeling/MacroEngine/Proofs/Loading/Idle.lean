import MacroEngine.Proofs.Loading.History

/-!
# Declarations that transform nothing

A declaration is idle if its body can be found and registers no transform hook. Whether it is does
not depend on which other idle declarations were asked for before: a body that was found is found
again, and hooks that were registered stay.
-/

namespace MacroEngine

namespace Loader

variable {table : ModuleTable} {l : Loader}

theorem outcome_found (d : Declaration) {r r' : Except LoadError MacroModule × Loader}
    (h : r.1 = r'.1) : (found d r).1 = (found d r').1 := by
  obtain ⟨outcome, l⟩ := r
  obtain ⟨_, l'⟩ := r'
  obtain rfl : outcome = _ := h
  cases outcome with
  | error e => rfl
  | ok m =>
    simp only [found]
    split
    · rfl
    · split <;> rfl

/-- The bodies that are known of other declarations stay. -/
theorem get?_bodies_loadBody {d d' : Declaration} (hne : (d'.id == d.id) = false) :
    Table.get? d.id ((loadBody d').run l).2.bodies = Table.get? d.id l.bodies := by
  have hkeeps := loadModule_keeps d'.file l
  rw [run_loadBody]
  split
  · rfl
  · generalize (loadModule d'.file).run l = r at hkeeps
    obtain ⟨outcome, l'⟩ := r
    rw [← hkeeps.bodies]
    cases outcome with
    | error e => rfl
    | ok m =>
      simp only [found]
      split
      · rfl
      · split
        · rfl
        · simp [Table.get?_insert, hne]

/-- What looking for a body comes to stays the same when another one has been looked for. -/
theorem Reached.loadBody_again (h : Reached table l) {d d' : Declaration}
    (hne : (d'.id == d.id) = false) :
    ((loadBody d).run ((loadBody d').run l).2).1 = ((loadBody d).run l).1 := by
  rw [run_loadBody d, run_loadBody d l, get?_bodies_loadBody hne]
  split
  · rfl
  · exact outcome_found d (((h.body d').outcome d.file).trans (h.outcome d.file).symm)

end Loader

namespace HookCache

/-- The body of a declaration is found, and registers no transform hook. -/
def Idle (cache : HookCache) (d : Declaration) : Prop :=
  ∀ w, ∃ hooks, ((cache.hooksFor d).run w).1.1 = .ok hooks ∧ hooks.transform = []

variable {table : ModuleTable} {cache : HookCache} {d d' : Declaration}

/-- What asking for hooks does to the loader. -/
theorem loader_hooksFor (cache : HookCache) (d : Declaration) (w : Workshop) :
    ((cache.hooksFor d).run w).1.2.loader = cache.loader ∨
      ((cache.hooksFor d).run w).1.2.loader = ((Loader.loadBody d).run cache.loader).2 := by
  unfold hooksFor
  split
  · exact .inl rfl
  · generalize (Loader.loadBody d).run cache.loader = r
    obtain ⟨_ | _, _⟩ := r <;> exact .inr rfl

theorem reached_hooksFor (h : Loader.Reached table cache.loader) (w : Workshop) :
    Loader.Reached table ((cache.hooksFor d).run w).1.2.loader := by
  rcases cache.loader_hooksFor d w with heq | heq <;> rw [heq]
  · exact h
  · exact h.body d

/-- An idle declaration has hooks in the cache, or a body that can be found. -/
theorem idle_iff : cache.Idle d ↔
    (∃ hooks, Table.get? d.id cache.hooks = some hooks ∧ hooks.transform = []) ∨
      Table.get? d.id cache.hooks = none ∧
        ∃ body, ((Loader.loadBody d).run cache.loader).1 = .ok body ∧
          ∀ w, ((body d).run w).1.transform = [] := by
  unfold Idle hooksFor
  cases hcached : Table.get? d.id cache.hooks with
  | some hooks =>
    constructor
    · intro h
      obtain ⟨_, hok, htransform⟩ := h default
      obtain rfl := Except.ok.inj hok
      exact .inl ⟨_, rfl, htransform⟩
    · rintro (⟨_, hsome, htransform⟩ | ⟨hnone, _⟩)
      · obtain rfl := Option.some.inj hsome
        exact fun _ => ⟨_, rfl, htransform⟩
      · cases hnone
  | none =>
    generalize (Loader.loadBody d).run cache.loader = r
    obtain ⟨e | body, l⟩ := r
    · refine ⟨fun h => ?_, fun h => ?_⟩
      · obtain ⟨_, herror, _⟩ := h default
        cases herror
      · rcases h with ⟨_, hsome, _⟩ | ⟨_, _, herror, _⟩
        · cases hsome
        · cases herror
    · refine ⟨fun h => .inr ⟨rfl, body, rfl, fun w => ?_⟩, fun h w => ?_⟩
      · obtain ⟨_, hok, htransform⟩ := h w
        exact Except.ok.inj hok ▸ htransform
      · rcases h with ⟨_, hsome, _⟩ | ⟨_, _, hok, htransform⟩
        · cases hsome
        · obtain rfl := Except.ok.inj hok
          exact ⟨_, rfl, htransform w⟩

/-- A declaration stays idle when an idle one has been asked for. -/
theorem Idle.hooksFor (hcache : Loader.Reached table cache.loader) (h : cache.Idle d)
    (h' : cache.Idle d') (w : Workshop) : ((cache.hooksFor d').run w).1.2.Idle d := by
  rcases idle_iff.mp h' with ⟨hooks', hcached', htransform'⟩ | ⟨hnone', body', hbody', htransform'⟩
  · have hsame : ((cache.hooksFor d').run w).1.2 = cache := by
      unfold HookCache.hooksFor
      rw [hcached']
      rfl
    rwa [hsame]
  · have hnew : ((cache.hooksFor d').run w).1.2 = ⟨((Loader.loadBody d').run cache.loader).2,
        Table.insert d'.id ((body' d').run w).1 cache.hooks⟩ := by
      unfold HookCache.hooksFor
      rw [hnone']
      generalize (Loader.loadBody d').run cache.loader = r at hbody'
      obtain ⟨outcome, l⟩ := r
      obtain rfl : outcome = .ok body' := hbody'
      rfl
    rw [hnew, idle_iff]
    simp only [Table.get?_insert]
    cases hid : d'.id == d.id with
    | true => exact .inl ⟨_, by simp, htransform' w⟩
    | false =>
      rw [hcache.loadBody_again hid]
      simpa using idle_iff.mp h

end HookCache

end MacroEngine
