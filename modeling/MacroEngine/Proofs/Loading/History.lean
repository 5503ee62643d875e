import MacroEngine.Proofs.Loading.Requirements

/-!
# Loading does not depend on what was loaded before

A loader keeps the modules it has loaded, whatever became of the load that asked for them. This
module shows that its answers do not tell: in every state that calls can lead to, a path has the
outcome that it has for a new loader. `Sound` carries the proof. Every module in memory is loadable
and has what it requires in memory too, so finding it there is no different from loading it, and no
module that is being loaded is in memory.
-/

namespace MacroEngine

namespace Loader

/-- What the memory of a loader never gets wrong. -/
structure Sound (l : Loader) : Prop where
  /-- A module in memory is the one of the table, and can be loaded. -/
  loadable : ∀ p m, Table.get? p l.modules = some m → l.table.answer? p = some m ∧ l.table.Loadable p
  /-- What a module in memory requires is in memory. -/
  closed : ∀ p m, Table.get? p l.modules = some m → ∀ q ∈ m.requires, Table.has q l.modules = true
  /-- What is being loaded is not in memory. -/
  pending : ∀ p ∈ l.loading, Table.has p l.modules = false

theorem has_congr {p q : SourcePath} (h : p == q) (t : Table SourcePath MacroModule) :
    Table.has p t = Table.has q t := by
  rw [Table.has, Table.has, Table.get?_congr h]

/-- All that a module in memory leads to is in memory. -/
theorem Sound.has_of_leads {l : Loader} (h : l.Sound) {p q : SourcePath}
    (hp : Table.has p l.modules = true) (hq : l.table.Leads p q) : Table.has q l.modules = true := by
  induction hq with
  | refl => exact hp
  | tail _ hstep ih =>
    obtain ⟨m, hm⟩ := Option.isSome_iff_exists.mp ih
    obtain ⟨m', hm', hreq⟩ := hstep
    obtain rfl : m = m' := Option.some.inj ((h.loadable _ m hm).1.symm.trans hm')
    exact h.closed _ m hm _ hreq

/-- A module in memory is safe below what is being loaded. -/
theorem Sound.safe {l : Loader} (h : l.Sound) {p : SourcePath} {m : MacroModule}
    (hp : Table.get? p l.modules = some m) : l.table.Safe l.loading p where
  loadable := (h.loadable p m hp).2
  apart q hq := by
    have hhas := h.has_of_leads (Option.isSome_iff_exists.mpr ⟨m, hp⟩) hq
    refine List.any_eq_false.mpr fun r hr heq => ?_
    rw [← has_congr heq, h.pending r hr] at hhas
    exact Bool.false_ne_true hhas

section Run

def entered (l : Loader) (p : SourcePath) : Loader := { l with loading := l.loading ++ [p] }

def left (l : Loader) : Loader := { l with loading := l.loading.dropLast }

def keeping (l : Loader) (p : SourcePath) (m : MacroModule) : Loader :=
  { l with modules := Table.insert p m l.modules }

/-- What loading the requirements of `p` leads to. -/
def concluded (p : SourcePath) (m : MacroModule) :
    Except LoadError Unit × Loader → Except LoadError MacroModule × Loader
  | (.error e, l) => (.error e, l.left)
  | (.ok (), l) => (.ok m, l.left.keeping p m)

theorem run_loadWithin (n : Nat) (p : SourcePath) (l : Loader) :
    (loadWithin (n + 1) p).run l =
      match Table.get? p l.modules with
      | some m => (.ok m, l)
      | none =>
        if l.loading.any (· == p) then
          (.error (.cyclic (l.loading.dropWhile (fun q => !(q == p)) ++ [p])), l)
        else
          match l.table.answer? p with
          | none => (.error (.moduleNotFound p), l)
          | some m => concluded p m ((loadAll (loadWithin n) m.requires).run (l.entered p)) := by
  rw [loadWithin]
  simp only [StateT.run_bind, StateT.run_get, pure_bind]
  cases Table.get? p l.modules with
  | some m => rfl
  | none =>
    simp only
    split
    · rfl
    · cases l.table.answer? p with
      | none => rfl
      | some m =>
        simp only [StateT.run_bind, StateT.run_modify, pure_bind]
        change ((loadAll (loadWithin n) m.requires).run (l.entered p) >>= _) = _
        obtain ⟨_ | _, _⟩ := (loadAll (loadWithin n) m.requires).run (l.entered p) <;> rfl

theorem run_loadAll_cons (load : SourcePath → StateM Loader (Except LoadError MacroModule))
    (p : SourcePath) (ps : List SourcePath) (l : Loader) :
    (loadAll load (p :: ps)).run l =
      match (load p).run l with
      | (.error e, l) => (.error e, l)
      | (.ok _, l) => (loadAll load ps).run l := by
  rw [loadAll, StateT.run_bind]
  cases h : (load p).run l with
  | mk outcome l' => cases outcome <;> rfl

end Run

section Frame

/-- What loading a module leaves as it was: the table, what is being loaded, and the bodies. Memory
only grows. -/
structure Keeps (l l' : Loader) : Prop where
  table : l'.table = l.table
  loading : l'.loading = l.loading
  bodies : l'.bodies = l.bodies
  grows : ∀ p, Table.has p l.modules = true → Table.has p l'.modules = true

theorem Keeps.refl (l : Loader) : Keeps l l := ⟨rfl, rfl, rfl, fun _ h => h⟩

theorem Keeps.trans {l l' l'' : Loader} (h : Keeps l l') (h' : Keeps l' l'') : Keeps l l'' :=
  ⟨h'.table.trans h.table, h'.loading.trans h.loading, h'.bodies.trans h.bodies,
    fun p hp => h'.grows p (h.grows p hp)⟩

theorem has_keeping (l : Loader) (p q : SourcePath) (m : MacroModule) :
    Table.has q (l.keeping p m).modules = (p == q || Table.has q l.modules) := by
  by_cases h : p == q <;> simp [keeping, Table.has, Table.get?_insert, h]

theorem loadAll_keeps {load : SourcePath → StateM Loader (Except LoadError MacroModule)}
    (hload : ∀ p l, Keeps l ((load p).run l).2) (ps : List SourcePath) (l : Loader) :
    Keeps l ((loadAll load ps).run l).2 := by
  induction ps generalizing l with
  | nil => exact .refl l
  | cons p ps ih =>
    have hp := hload p l
    rw [run_loadAll_cons]
    split
    · rename_i hrun
      rw [hrun] at hp
      exact hp
    · rename_i hrun
      rw [hrun] at hp
      exact hp.trans (ih _)

/-- Entering a path, loading what it requires and leaving it keeps what calls keep. -/
theorem concluded_keeps {l : Loader} {p : SourcePath} {m : MacroModule}
    {r : Except LoadError Unit × Loader} (h : Keeps (l.entered p) r.2) :
    Keeps l (concluded p m r).2 := by
  have hloading : r.2.loading.dropLast = l.loading := by simp [h.loading, entered]
  obtain ⟨_ | _, l'⟩ := r
  · exact ⟨h.table, hloading, h.bodies, h.grows⟩
  · refine ⟨h.table, hloading, h.bodies, fun q hq => ?_⟩
    have hkeep := has_keeping l'.left p q m
    exact hkeep.trans (by simp [left, h.grows q hq])

theorem loadWithin_keeps (n : Nat) (p : SourcePath) (l : Loader) :
    Keeps l ((loadWithin n p).run l).2 := by
  induction n generalizing p l with
  | zero => exact .refl l
  | succ n ih =>
    rw [run_loadWithin]
    split
    · exact .refl l
    · split
      · exact .refl l
      · split
        · exact .refl l
        · exact concluded_keeps (loadAll_keeps ih _ _)

end Frame

section Answers

/-- At every sound loader that is loading `above`, a call has the outcome `r`; it leaves a sound
loader, which has the module if there is one. -/
def Answers (t : ModuleTable) (above : List SourcePath)
    (x : StateM Loader (Except LoadError MacroModule)) (p : SourcePath)
    (r : Except LoadError MacroModule) : Prop :=
  ∀ l : Loader, l.Sound → l.table = t → l.loading = above →
    (x.run l).1 = r ∧ (x.run l).2.Sound ∧
      ((∃ m, r = .ok m) → Table.has p (x.run l).2.modules = true)

/-- Loading several paths has the outcome of resolving them. -/
theorem loadAll_answers {t : ModuleTable} {above : List SourcePath}
    {load : SourcePath → StateM Loader (Except LoadError MacroModule)}
    {f : SourcePath → Except LoadError MacroModule} (hload : ∀ p l, Keeps l ((load p).run l).2)
    {ps : List SourcePath} (h : ∀ p ∈ ps, Answers t above (load p) p (f p)) {l : Loader}
    (hl : l.Sound) (ht : l.table = t) (habove : l.loading = above) :
    ((loadAll load ps).run l).1 = ModuleTable.resolveAll f ps ∧
      ((loadAll load ps).run l).2.Sound ∧
      (ModuleTable.resolveAll f ps = .ok () →
        ∀ p ∈ ps, Table.has p ((loadAll load ps).run l).2.modules = true) := by
  induction ps generalizing l with
  | nil => exact ⟨rfl, hl, fun _ p hp => absurd hp (List.not_mem_nil)⟩
  | cons p ps ih =>
    obtain ⟨hout, hsound, hhas⟩ := h p List.mem_cons_self l hl ht habove
    have hkeeps := hload p l
    rw [run_loadAll_cons, ModuleTable.resolveAll, ← hout]
    rw [← hout] at hhas
    generalize (load p).run l = r at hsound hhas hkeeps ⊢
    obtain ⟨e | m, l'⟩ := r
    · exact ⟨rfl, hsound, fun h => by cases h⟩
    · obtain ⟨houts, hsounds, hhass⟩ := ih (fun q hq => h q (List.mem_cons_of_mem _ hq)) hsound
        (hkeeps.table.trans ht) (hkeeps.loading.trans habove)
      refine ⟨houts, hsounds, fun hok q hq => ?_⟩
      rcases List.mem_cons.mp hq with rfl | hq
      · exact (loadAll_keeps hload ps l').grows q (hhas ⟨m, rfl⟩)
      · exact hhass hok q hq

theorem Sound.entered {l : Loader} (h : l.Sound) {p : SourcePath}
    (hp : Table.get? p l.modules = none) : (l.entered p).Sound where
  loadable := h.loadable
  closed := h.closed
  pending q hq := by
    rcases List.mem_append.mp hq with hq | hq
    · exact h.pending q hq
    · obtain rfl := List.mem_singleton.mp hq
      simp [Loader.entered, Table.has, hp]

theorem Sound.left {l : Loader} (h : l.Sound) : l.left.Sound where
  loadable := h.loadable
  closed := h.closed
  pending q hq := h.pending q (List.dropLast_subset _ hq)

/-- A module can be kept once it is known to be loadable and what it requires is in memory, if no
path is being loaded that is the same. -/
theorem Sound.keeping {l : Loader} (h : l.Sound) {p : SourcePath} {m : MacroModule}
    (hm : l.table.answer? p = some m) (hp : l.table.Safe l.loading p)
    (hrequires : ∀ q ∈ m.requires, Table.has q l.modules = true) : (l.keeping p m).Sound where
  loadable q m' hq := by
    have hget := Table.get?_insert p q m l.modules
    rw [Loader.keeping] at hq
    simp only [hget] at hq
    split at hq
    · rename_i hpq
      obtain rfl := Option.some.inj hq
      exact ⟨(ModuleTable.answer?_congr hpq).symm.trans hm, hp.loadable.congr hpq⟩
    · exact h.loadable q m' hq
  closed q m' hq r hr := by
    have hget := Table.get?_insert p q m l.modules
    rw [has_keeping]
    rw [Loader.keeping] at hq
    simp only [hget] at hq
    split at hq
    · obtain rfl := Option.some.inj hq
      simp [hrequires r hr]
    · simp [h.closed q m' hq r hr]
  pending q hq := by
    have hne : (p == q) = false := by
      have := List.any_eq_false.mp (hp.apart p .refl) q hq
      exact Bool.eq_false_iff.mpr fun hpq => this (BEq.symm hpq)
    rw [has_keeping, hne, h.pending q hq]
    rfl

/-- Loading a path has the outcome of resolving it, whatever is in memory. -/
theorem loadWithin_answers (t : ModuleTable) {n : Nat} {above : List SourcePath} {p : SourcePath}
    (hn : t.room above p < n) : Answers t above (loadWithin n p) p (t.resolve n above p) := by
  induction n generalizing above p with
  | zero => exact absurd hn (Nat.not_lt_zero _)
  | succ n ih =>
    intro l hl ht habove
    subst ht habove
    rw [run_loadWithin]
    cases hget : Table.get? p l.modules with
    | some m =>
      obtain ⟨m', hm', hresolve⟩ := (hl.safe hget).resolve hn
      obtain rfl : m = m' := Option.some.inj ((hl.loadable p m hget).1.symm.trans hm')
      exact ⟨hresolve.symm, hl, fun _ => Option.isSome_iff_exists.mpr ⟨m, hget⟩⟩
    | none =>
      simp only
      split
      · rename_i hany
        have hresolve := ModuleTable.resolve_of_any (t := l.table) hany n
        exact ⟨hresolve.symm, hl, by simp [hresolve]⟩
      · rename_i hany
        have hapart := Bool.eq_false_iff.mpr hany
        cases hm : l.table.answer? p with
        | none =>
          have hresolve := ModuleTable.resolve_of_none hapart hm n
          exact ⟨hresolve.symm, hl, by simp [hresolve]⟩
        | some m =>
          have hroom : ∀ q ∈ m.requires, l.table.room (l.loading ++ [p]) q < n := fun q hq => by
            have := ModuleTable.room_below hapart ⟨m, hm, hq⟩
            omega
          obtain ⟨hout, hsound, hhas⟩ := loadAll_answers (loadWithin_keeps n)
            (fun q hq => ih (hroom q hq)) (hl.entered hget) rfl rfl
          have hkeeps := loadAll_keeps (loadWithin_keeps n) m.requires (l.entered p)
          have hresolve := ModuleTable.resolve_of_some hapart hm n
          rw [← hout] at hhas hresolve
          change (concluded p m _).1 = _ ∧ (concluded p m _).2.Sound ∧
            (_ → Table.has p (concluded p m _).2.modules = true)
          generalize (loadAll (loadWithin n) m.requires).run (l.entered p) = r at *
          obtain ⟨e | ⟨⟩, l'⟩ := r
          · exact ⟨hresolve.symm, hsound.left, by simp [hresolve]⟩
          · have htable : l'.left.table = l.table := hkeeps.table
            have hloading : l'.left.loading = l.loading :=
              (congrArg List.dropLast hkeeps.loading).trans (by simp [entered])
            have hsafe := (ModuleTable.Safe.of_resolve hresolve).2
            rw [← htable, ← hloading] at hsafe
            refine ⟨hresolve.symm, hsound.left.keeping (by rw [htable, hm]) hsafe (hhas rfl),
              fun _ => ?_⟩
            exact (has_keeping l'.left p p m).trans (by simp)

end Answers

/-- The states of a loader over a table that calls lead to. -/
inductive Reached (table : ModuleTable) : Loader → Prop
  | new : Reached table (.new table)
  | module {l : Loader} (p : SourcePath) (h : Reached table l) :
    Reached table ((loadModule p).run l).2
  | body {l : Loader} (d : Declaration) (h : Reached table l) :
    Reached table ((loadBody d).run l).2

section History

variable {table : ModuleTable}

/-- Loading several paths depends on nothing but what loading each of them does. -/
theorem loadAll_congr {load load' : SourcePath → StateM Loader (Except LoadError MacroModule)}
    (hkeeps : ∀ p l, Keeps l ((load' p).run l).2) {ps : List SourcePath} {l : Loader}
    (h : ∀ p ∈ ps, ∀ l' : Loader, Keeps l l' → (load p).run l' = (load' p).run l') :
    (loadAll load ps).run l = (loadAll load' ps).run l := by
  induction ps generalizing l with
  | nil => rfl
  | cons p ps ih =>
    have hp := hkeeps p l
    rw [run_loadAll_cons, run_loadAll_cons, h p List.mem_cons_self l (.refl l)]
    split
    · rfl
    · rename_i hrun
      rw [hrun] at hp
      exact ih fun q hq l' hl' => h q (List.mem_cons_of_mem _ hq) l' (hp.trans hl')

/-- With any bound that leaves room for all paths, loading a path has the same outcome and leads to
the same state. -/
theorem loadWithin_eq {n n' : Nat} {l : Loader} {p : SourcePath}
    (hn : l.table.room l.loading p < n) (hn' : l.table.room l.loading p < n') :
    (loadWithin n p).run l = (loadWithin n' p).run l := by
  induction n generalizing n' l p with
  | zero => exact absurd hn (Nat.not_lt_zero _)
  | succ n ih =>
    obtain _ | n' := n'
    · exact absurd hn' (Nat.not_lt_zero _)
    rw [run_loadWithin, run_loadWithin]
    cases hget : Table.get? p l.modules with
    | some m => rfl
    | none =>
      simp only
      split
      · rfl
      · rename_i hany
        cases hm : l.table.answer? p with
        | none => rfl
        | some m =>
          refine congrArg (concluded p m) (loadAll_congr (loadWithin_keeps n') fun q hq l' hl' => ?_)
          have hroom := ModuleTable.room_below (Bool.eq_false_iff.mpr hany) ⟨m, hm, hq⟩
          have hsame : l'.table.room l'.loading q = l.table.room (l.loading ++ [p]) q := by
            rw [hl'.table, hl'.loading]
            rfl
          exact ih (by omega) (by omega)

theorem run_loadModule (p : SourcePath) (l : Loader) :
    (loadModule p).run l = (loadWithin (l.table.mentioned.length + 2) p).run l := rfl

theorem loadModule_keeps (p : SourcePath) (l : Loader) : Keeps l ((loadModule p).run l).2 :=
  loadWithin_keeps _ p l

def found (d : Declaration) :
    Except LoadError MacroModule × Loader → Except LoadError MacroBody × Loader
  | (.error e, l) => (.error e, l)
  | (.ok m, l) =>
    match d.exportName? with
    | none => (.error (.unreachable d.file), l)
    | some name =>
      match m.get? name with
      | none => (.error (.exportNotFound name d.file), l)
      | some body => (.ok body, { l with bodies := Table.insert d.id body l.bodies })

theorem run_loadBody (d : Declaration) (l : Loader) :
    (loadBody d).run l =
      match Table.get? d.id l.bodies with
      | some body => (.ok body, l)
      | none => found d ((loadModule d.file).run l) := by
  rw [loadBody, StateT.run_bind]
  simp only [StateT.run_get, pure_bind]
  cases Table.get? d.id l.bodies with
  | some body => rfl
  | none =>
    simp only [StateT.run_bind]
    obtain ⟨_ | m, l'⟩ := (loadModule d.file).run l
    · rfl
    · change StateT.run (match d.exportName? with | none => _ | some name => _) l' = _
      rw [found]
      cases d.exportName? with
      | none => rfl
      | some name =>
        change StateT.run (match m.get? name with | none => _ | some body => _) l' =
          match m.get? name with | none => _ | some body => _
        cases m.get? name <;> rfl

/-- Finding the body of a declaration loads its module at most. -/
theorem loadBody_cases (d : Declaration) (l : Loader) :
    ((loadBody d).run l).2 = l ∨ ∃ bodies,
      ((loadBody d).run l).2 = { ((loadModule d.file).run l).2 with bodies } := by
  rw [run_loadBody]
  split
  · exact .inl rfl
  · refine .inr ?_
    generalize (loadModule d.file).run l = r
    obtain ⟨_ | m, l'⟩ := r <;> rw [found]
    · exact ⟨_, rfl⟩
    · split
      · exact ⟨_, rfl⟩
      · split <;> exact ⟨_, rfl⟩

theorem Sound.new (table : ModuleTable) : (Loader.new table).Sound where
  loadable _ _ h := by cases h
  closed _ _ h := by cases h
  pending _ h := absurd h (List.not_mem_nil)

theorem Sound.of_memory {l l' : Loader} (h : l.Sound) (htable : l'.table = l.table)
    (hmodules : l'.modules = l.modules) (hloading : l'.loading = l.loading) : l'.Sound where
  loadable p m hp := htable ▸ h.loadable p m (hmodules ▸ hp)
  closed p m hp q hq := hmodules ▸ h.closed p m (hmodules ▸ hp) q hq
  pending p hp := hmodules ▸ h.pending p (hloading ▸ hp)

theorem Sound.loadModule {l : Loader} (h : l.Sound) (p : SourcePath) :
    ((loadModule p).run l).2.Sound :=
  (loadWithin_answers l.table (ModuleTable.room_lt _ _) l h rfl rfl).2.1

/-- In every state that calls lead to, nothing is being loaded and memory is sound. -/
theorem Reached.sound {l : Loader} (h : Reached table l) :
    l.Sound ∧ l.table = table ∧ l.loading = [] := by
  induction h with
  | new => exact ⟨.new table, rfl, rfl⟩
  | module p _ ih =>
    obtain ⟨hsound, htable, hloading⟩ := ih
    exact ⟨hsound.loadModule p, (loadModule_keeps p _).table.trans htable,
      (loadModule_keeps p _).loading.trans hloading⟩
  | @body l d _ ih =>
    obtain ⟨hsound, htable, hloading⟩ := ih
    rcases loadBody_cases d l with heq | ⟨bodies, heq⟩ <;> rw [heq]
    · exact ⟨hsound, htable, hloading⟩
    · have hkeeps := loadModule_keeps d.file l
      exact ⟨(hsound.loadModule d.file).of_memory rfl rfl rfl, hkeeps.table.trans htable,
        hkeeps.loading.trans hloading⟩

/-- Loading a module has the outcome of resolving it. -/
theorem Reached.outcome {l : Loader} (h : Reached table l) (p : SourcePath) :
    ((loadModule p).run l).1 = table.resolve (table.mentioned.length + 2) [] p := by
  obtain ⟨hsound, rfl, hloading⟩ := h.sound
  exact (loadWithin_answers l.table (ModuleTable.room_lt _ _) l hsound rfl hloading).1

/-- Whatever was loaded before, successfully or not, a module has the outcome that it has for a new
loader, with the same error; no bound on how deep modules require each other is ever met. It can be
loaded exactly if all that it leads to is there and nothing of it leads back to itself. Between
calls nothing is being loaded, and what a module in memory requires is in memory too. -/
theorem loadModule_of_reached {l : Loader} (h : Reached table l) (p : SourcePath) :
    ((loadModule p).run l).1 = ((loadModule p).run (.new table)).1 ∧
      (∀ n ≥ table.mentioned.length + 2, (loadWithin n p).run l = (loadModule p).run l) ∧
      ((∃ m, ((loadModule p).run l).1 = .ok m) ↔ table.Loadable p) ∧
      l.loading = [] ∧
      ∀ q m, Table.get? q l.modules = some m →
        ∀ r ∈ m.requires, Table.has r l.modules = true := by
  obtain ⟨hsound, htable, hloading⟩ := h.sound
  refine ⟨(h.outcome p).trans (Reached.new.outcome p).symm, fun n hn => ?_, ?_,
    hloading, hsound.closed⟩
  · have hroom := ModuleTable.room_lt (t := table) l.loading p
    rw [Loader.run_loadModule, htable]
    exact loadWithin_eq (by rw [htable]; omega) (by rw [htable]; omega)
  · rw [h.outcome p]
    constructor
    · rintro ⟨m, hm⟩
      exact (ModuleTable.Safe.of_resolve hm).2.loadable
    · intro hp
      have hsafe : table.Safe [] p := ⟨hp, fun _ _ => rfl⟩
      obtain ⟨m, -, hm⟩ := hsafe.resolve (ModuleTable.room_lt [] p)
      exact ⟨m, hm⟩

/-- Two modules that require each other, one of them under another spelling, and a module that
requires none. -/
def entangled : ModuleTable where
  modules := [(⟨"a.kn"⟩, ⟨[], [⟨"b.kn"⟩]⟩), (⟨"b.kn"⟩, ⟨[], [⟨"c.kn"⟩, ⟨"a.kn/"⟩]⟩), (⟨"c.kn"⟩, .empty)]
  fallback := none

/-- The load of `a.kn` fails, but leaves `c.kn` in memory; a second load fails alike. -/
theorem loadModule_entangled_again :
    Reached entangled ((loadModule ⟨"a.kn"⟩).run (.new entangled)).2 ∧
      ((loadModule ⟨"a.kn"⟩).run ((loadModule ⟨"a.kn"⟩).run (.new entangled)).2).1 =
        .error (.cyclic [⟨"a.kn"⟩, ⟨"b.kn"⟩, ⟨"a.kn/"⟩]) ∧
      ¬ entangled.Loadable ⟨"a.kn"⟩ := by
  have hreached : Reached entangled ((loadModule ⟨"a.kn"⟩).run (.new entangled)).2 :=
    Reached.new.module ⟨"a.kn"⟩
  obtain ⟨hsame, -, hiff, -⟩ := loadModule_of_reached hreached ⟨"a.kn"⟩
  have hfresh : ((loadModule ⟨"a.kn"⟩).run (.new entangled)).1 =
      .error (.cyclic [⟨"a.kn"⟩, ⟨"b.kn"⟩, ⟨"a.kn/"⟩]) := rfl
  rw [hsame, hfresh] at hiff ⊢
  refine ⟨hreached, rfl, fun hloadable => ?_⟩
  obtain ⟨m, hm⟩ := hiff.mpr hloadable
  cases hm

end History

end Loader

end MacroEngine
