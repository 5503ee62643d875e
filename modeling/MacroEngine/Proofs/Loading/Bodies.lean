import MacroEngine.Proofs.Loading.Idle

/-!
# A body runs once

A request for the hooks of a declaration finds them in the cache, or fails to find a body, or runs
the body and keeps what it registered. `served_cases` says all that a request can do. From it
follows what one request preserves, hooks that are kept stay, and then what a whole run of requests
comes to: at most one of them runs the body of a declaration, and all that succeed answer the same
hooks. Expansions and checks make such requests, in any order and with a workshop that others work in
between them, so nothing is assumed about the workshop at each request.
-/

namespace MacroEngine

inductive Registration where
  | transform (hook : TransformHook)
  | check (hook : CheckHook)

namespace Registration

def enter (hooks : Hooks) : Registration → Hooks
  | .transform hook => { hooks with transform := hooks.transform ++ [hook] }
  | .check hook => { hooks with check := hooks.check ++ [hook] }

def transform? : Registration → Option TransformHook
  | .transform hook => some hook
  | .check _ => none

def check? : Registration → Option CheckHook
  | .transform _ => none
  | .check hook => some hook

def body (registrations : Declaration → Work (List Registration)) : MacroBody := fun d => do
  return (← registrations d).foldl enter ⟨[], []⟩

theorem foldl_enter (hooks : Hooks) (registrations : List Registration) :
    registrations.foldl enter hooks =
      ⟨hooks.transform ++ registrations.filterMap transform?,
        hooks.check ++ registrations.filterMap check?⟩ := by
  induction registrations generalizing hooks with
  | nil => simp
  | cons r rs ih => cases r <;> simp [ih, enter, transform?, check?, List.filterMap_cons]

end Registration

/-- A request for the hooks of a declaration, and the workshop at that time. -/
structure Request where
  declaration : Declaration
  shop : Workshop

structure Served where
  request : Request
  /-- The body that ran. -/
  ran : Option MacroBody
  answer : Except LoadError Hooks
  /-- The workshop afterwards. -/
  shop : Workshop
  before : HookCache
  after : HookCache

namespace Served

def id (s : Served) : NodeId := s.request.declaration.id

def succeeds (s : Served) : Bool := s.answer.isOk

/-- What a request may do. A body that runs does so once, on the workshop as it is; what it registers
is the answer, in the order of registration. If none runs, the workshop stays as it is. A request
that fails runs no body, and changes nothing but which modules are in memory. -/
structure Faithful (s : Served) : Prop where
  runs : ∀ body, s.ran = some body →
    ∃ hooks, (body s.request.declaration).run s.request.shop = (hooks, s.shop) ∧ s.answer = .ok hooks
  registers : ∀ registrations, s.ran = some (Registration.body registrations) →
    s.answer = .ok
      ⟨((registrations s.request.declaration).run s.request.shop).1.filterMap Registration.transform?,
        ((registrations s.request.declaration).run s.request.shop).1.filterMap Registration.check?⟩
  rests : s.ran = none → s.shop = s.request.shop
  fails : ∀ e, s.answer = .error e → s.ran = none ∧
    ∃ modules, s.after = ⟨{ s.before.loader with modules }, s.before.hooks⟩

theorem Faithful.succeeds {s : Served} (h : s.Faithful) (hran : s.ran.isSome = true) :
    s.succeeds = true := by
  obtain ⟨body, hbody⟩ := Option.isSome_iff_exists.mp hran
  obtain ⟨hooks, -, hanswer⟩ := h.runs body hbody
  simp [Served.succeeds, hanswer, Except.isOk, Except.toBool]

end Served

namespace HookCache

/-- The body that a request runs, if it runs one. -/
def pendingBody? (cache : HookCache) (d : Declaration) : Option MacroBody :=
  match Table.get? d.id cache.hooks with
  | some _ => none
  | none => ((Loader.loadBody d).run cache.loader).1.toOption

def serve (cache : HookCache) (r : Request) : Served :=
  let out := (cache.hooksFor r.declaration).run r.shop
  ⟨r, cache.pendingBody? r.declaration, out.1.1, out.2, cache, out.1.2⟩

def serveAll : HookCache → List Request → List Served
  | _, [] => []
  | cache, r :: rs => cache.serve r :: serveAll (cache.serve r).after rs

/-- A request finds hooks in the cache, or finds no body, or runs the body and keeps its hooks. -/
theorem serve_cases (cache : HookCache) (r : Request) :
    (∃ hooks, Table.get? r.declaration.id cache.hooks = some hooks ∧
      cache.serve r = ⟨r, none, .ok hooks, r.shop, cache, cache⟩) ∨
    (∃ e l, (Loader.loadBody r.declaration).run cache.loader = (.error e, l) ∧
      cache.serve r = ⟨r, none, .error e, r.shop, cache, { cache with loader := l }⟩) ∨
    ∃ body l hooks shop, Table.get? r.declaration.id cache.hooks = none ∧
      (Loader.loadBody r.declaration).run cache.loader = (.ok body, l) ∧
      (body r.declaration).run r.shop = (hooks, shop) ∧
      cache.serve r = ⟨r, some body, .ok hooks, shop, cache,
        ⟨l, Table.insert r.declaration.id hooks cache.hooks⟩⟩ := by
  unfold serve pendingBody? hooksFor
  cases Table.get? r.declaration.id cache.hooks with
  | some hooks => exact .inl ⟨hooks, rfl, rfl⟩
  | none =>
    refine .inr ?_
    obtain ⟨e | body, l⟩ := (Loader.loadBody r.declaration).run cache.loader
    · exact .inl ⟨e, l, rfl, rfl⟩
    · exact .inr ⟨body, l, _, _, rfl, rfl, rfl, rfl⟩

/-- Looking for a body in vain changes nothing but which modules are in memory. -/
theorem loader_of_error {d : Declaration} {l l' : Loader} {e : LoadError}
    (h : (Loader.loadBody d).run l = (.error e, l')) : ∃ modules, l' = { l with modules } := by
  have hkeeps := Loader.loadModule_keeps d.file l
  rw [Loader.run_loadBody] at h
  cases hbody : Table.get? d.id l.bodies with
  | some body =>
    rw [hbody] at h
    cases h
  | none =>
    suffices hl : ((Loader.loadModule d.file).run l).2 = l' by
      refine ⟨l'.modules, ?_⟩
      rw [hl] at hkeeps
      obtain ⟨table, modules, bodies, loading⟩ := l'
      obtain ⟨rfl, rfl, rfl, -⟩ := hkeeps
      rfl
    simp only [hbody] at h
    generalize (Loader.loadModule d.file).run l = out at h
    obtain ⟨_ | m, l''⟩ := out <;> simp only [Loader.found] at h
    · exact congrArg Prod.snd h
    · split at h
      · exact congrArg Prod.snd h
      · split at h
        · exact congrArg Prod.snd h
        · cases h

theorem serve_faithful (cache : HookCache) (r : Request) : (cache.serve r).Faithful := by
  rcases cache.serve_cases r with ⟨hooks, -, hs⟩ | ⟨e, l, hl, hs⟩ | ⟨body, l, hooks, shop, -, -, hrun, hs⟩ <;>
    rw [hs]
  · exact ⟨by simp, by simp, fun _ => rfl, by simp⟩
  · obtain ⟨modules, rfl⟩ := loader_of_error hl
    exact ⟨by simp, by simp, fun _ => rfl, fun _ _ => ⟨rfl, modules, rfl⟩⟩
  · refine ⟨fun body' hbody => ?_, fun registrations hbody => ?_, by simp, by simp⟩
    · obtain rfl := Option.some.inj hbody
      exact ⟨hooks, hrun, rfl⟩
    · obtain rfl := Option.some.inj hbody
      obtain rfl := (congrArg Prod.fst hrun).symm
      exact congrArg Except.ok (Registration.foldl_enter ⟨[], []⟩ _)

/-- Hooks that are kept stay, whatever is asked for. -/
theorem get?_serve {cache : HookCache} {id : NodeId} {hooks : Hooks}
    (h : Table.get? id cache.hooks = some hooks) (r : Request) :
    Table.get? id (cache.serve r).after.hooks = some hooks := by
  rcases cache.serve_cases r with ⟨_, -, hs⟩ | ⟨_, _, -, hs⟩ | ⟨_, _, _, _, hnone, -, -, hs⟩ <;> rw [hs]
  · exact h
  · exact h
  · have hne : ¬ (r.declaration.id == id) = true := fun hid => by
      rw [eq_of_beq hid, h] at hnone
      cases hnone
    simp [Table.get?_insert, hne, h]

/-- Hooks that are answered are kept. -/
theorem get?_of_answer {cache : HookCache} {r : Request} {hooks : Hooks}
    (h : (cache.serve r).answer = .ok hooks) :
    Table.get? r.declaration.id (cache.serve r).after.hooks = some hooks := by
  rcases cache.serve_cases r with ⟨_, hcached, hs⟩ | ⟨_, _, -, hs⟩ | ⟨_, _, _, _, -, -, -, hs⟩ <;>
    rw [hs] at h ⊢
  · obtain rfl := Except.ok.inj h
    exact hcached
  · cases h
  · obtain rfl := Except.ok.inj h
    exact Table.get?_insert_self _ _ _

/-- Hooks that are kept are the answer, and no body runs for it. -/
theorem serve_of_get? {cache : HookCache} {r : Request} {hooks : Hooks}
    (h : Table.get? r.declaration.id cache.hooks = some hooks) :
    (cache.serve r).ran = none ∧ (cache.serve r).answer = .ok hooks := by
  unfold serve pendingBody? hooksFor
  rw [h]
  exact ⟨rfl, rfl⟩

/-- All requests of a run for hooks that are kept get these, and none runs a body. -/
theorem serveAll_of_get? {cache : HookCache} {id : NodeId} {hooks : Hooks}
    (h : Table.get? id cache.hooks = some hooks) {rs : List Request} {s : Served}
    (hs : s ∈ cache.serveAll rs) (hid : s.id = id) : s.ran = none ∧ s.answer = .ok hooks := by
  induction rs generalizing cache with
  | nil => cases hs
  | cons r rs ih =>
    rcases List.mem_cons.mp hs with rfl | hs
    · subst hid
      exact serve_of_get? h
    · exact ih (get?_serve h r) hs

theorem serveAll_faithful (cache : HookCache) (rs : List Request) :
    ∀ s ∈ cache.serveAll rs, s.Faithful := by
  induction rs generalizing cache with
  | nil => simp [serveAll]
  | cons r rs ih => exact List.forall_mem_cons.mpr ⟨cache.serve_faithful r, ih _⟩

/-- After a request of a run that succeeds, those for the same declaration run no body and answer the
same hooks. -/
theorem serveAll_pairwise (cache : HookCache) (rs : List Request) :
    (cache.serveAll rs).Pairwise fun s s' =>
      s.succeeds = true → s'.id = s.id → s'.ran = none ∧ s'.answer = s.answer := by
  induction rs generalizing cache with
  | nil => exact .nil
  | cons r rs ih =>
    refine List.pairwise_cons.mpr ⟨fun s' hs' hok hid => ?_, ih _⟩
    cases h : (cache.serve r).answer with
    | error e => simp [Served.succeeds, h, Except.isOk, Except.toBool] at hok
    | ok hooks => exact serveAll_of_get? (get?_of_answer h) hs' hid

/-- No two of a list pass a test, if none after one that passes it does. -/
theorem countP_le_one {α : Type} {p : α → Bool} {xs : List α}
    (h : xs.Pairwise fun a b => p a = true → p b = false) : xs.countP p ≤ 1 := by
  induction h with
  | nil => exact Nat.zero_le 1
  | @cons a xs ha _ ih =>
    cases hpa : p a with
    | false => simpa [List.countP_cons, hpa] using ih
    | true =>
      have hzero : xs.countP p = 0 := List.countP_eq_zero.mpr fun b hb => by simp [ha b hb hpa]
      simp [hpa, hzero]

/-- In every run of requests, from every cache, the body of a declaration runs at most once, all
requests for a declaration that succeed answer the hooks of the first of them, and each request does
what it may do. -/
theorem body_runs_once (cache : HookCache) (rs : List Request) :
    (∀ id, (cache.serveAll rs).countP (fun s => s.id == id && s.ran.isSome) ≤ 1) ∧
      (∀ id first, (cache.serveAll rs).find? (fun s => s.id == id && s.succeeds) = some first →
        ∀ s ∈ cache.serveAll rs, s.id = id → s.succeeds = true → s.answer = first.answer) ∧
      ∀ s ∈ cache.serveAll rs, s.Faithful := by
  have hfaithful := cache.serveAll_faithful rs
  have hpairs := cache.serveAll_pairwise rs
  refine ⟨fun id => countP_le_one ?_, fun id first hfirst s hs hid hok => ?_, hfaithful⟩
  · refine hpairs.imp_of_mem fun {s s'} hs _ h hran => ?_
    obtain ⟨hid, hran⟩ := Bool.and_eq_true_iff.mp hran
    refine Bool.and_eq_false_imp.mpr fun hid' => ?_
    rw [(h ((hfaithful s hs).succeeds hran) ((eq_of_beq hid').trans (eq_of_beq hid).symm)).1]
    rfl
  · obtain ⟨hp, earlier, later, hsplit, hearlier⟩ := List.find?_eq_some_iff_append.mp hfirst
    obtain ⟨hid', hok'⟩ := Bool.and_eq_true_iff.mp hp
    rw [hsplit] at hs hpairs
    rcases List.mem_append.mp hs with hs | hs
    · simpa [hid, hok] using hearlier s hs
    · rcases List.mem_cons.mp hs with rfl | hs
      · rfl
      · have hlater := (List.pairwise_cons.mp (List.pairwise_append.mp hpairs).2.1).1 s hs
        exact (hlater hok' (hid.trans (eq_of_beq hid').symm)).2

end HookCache

end MacroEngine
