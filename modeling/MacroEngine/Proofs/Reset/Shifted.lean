import MacroEngine.Proofs.Order.AnyOrder
import MacroEngine.Proofs.Reset.Registry

/-!
# Two sessions with the same program

A session in which the numbers of nodes do not start from zero enters a program as a new session
does: it fails with the same error, or it has the same files and the same registry, with all numbers
moved up by as many as were given before. From then on every file compiles to the same, up to the
first error.
-/

namespace MacroEngine

open Grammar

/-- Computations that may fail do the same if they fail with the same error, or answer the same. -/
def Lockstep.failing {ε : Type} {m : Type → Type} [Monad m] (l : Lockstep m) :
    Lockstep (ExceptT ε m) where
  holds V x y := l.holds (ExceptRel V) x.run y.run
  pure h := l.pure (.ok h)
  bind h h' := by
    refine l.bind h fun a b hab => ?_
    cases hab with
    | error e => exact l.pure (.error e)
    | ok hab => exact h' _ _ hab

theorem exceptRel_id_iff {ε α : Type} {x y : Except ε α} : ExceptRel (Sends id) x y ↔ x = y := by
  constructor
  · intro h
    cases h with
    | error e => rfl
    | ok h => exact congrArg Except.ok h.symm
  · rintro rfl
    cases x with
    | error e => exact .error e
    | ok a => exact .ok rfl

theorem SourceFile.run_parse_of_recognize {text : String} {p : Pair}
    (h : recognize text.toList = .ok p) (path : SourcePath) (k : NodeId) :
    (SourceFile.parse path text).run k = match (fileOf path p).run k with
      | none => (.error (.unreadable path), k)
      | some (file, next) => (.ok file, next) := by
  unfold SourceFile.parse
  rw [h]
  rfl

/-- Where a text is parsed from makes no difference: it fails with the same error, or gives the same
file with higher numbers. -/
theorem SourceFile.parse_shift (path : SourcePath) (text : String) (k n : Nat) :
    ExceptRel (Sends (SourceFile.renumber (· + n))) ((SourceFile.parse path text).run k).1
        ((SourceFile.parse path text).run (k + n)).1 ∧
      ((SourceFile.parse path text).run (k + n)).2 = ((SourceFile.parse path text).run k).2 + n := by
  cases hrecognize : recognize text.toList with
  | error m =>
    have hrun : ∀ k, (SourceFile.parse path text).run k = (.error (.mismatch path m), k) := fun k => by
      unfold SourceFile.parse
      rw [hrecognize]
      rfl
    rw [hrun, hrun]
    exact ⟨.error _, rfl⟩
  | ok p =>
    have hrun := SourceFile.run_parse_of_recognize hrecognize path
    cases hfile : (fileOf path p).run k with
    | some found =>
      obtain ⟨file, k'⟩ := found
      obtain ⟨hle, hshadow⟩ := fileOf_shadows (· + n) path p k file k' hfile
      have hmoved := hshadow (k + n) fun i _ => Nat.add_right_comm k i n
      rw [hrun, hrun, hfile, hmoved]
      refine ⟨.ok rfl, ?_⟩
      change k + n + (k' - k) = k' + n
      omega
    | none =>
      cases hmoved : (fileOf path p).run (k + n) with
      | none =>
        rw [hrun, hrun, hfile, hmoved]
        exact ⟨.error _, rfl⟩
      | some found =>
        obtain ⟨file, k'⟩ := found
        have hback := (fileOf_shadows (· - n) path p (k + n) file k' hmoved).2 k fun i _ => by
          dsimp only
          omega
        cases hfile.symm.trans hback

namespace Session

/-- Two sessions over one table that differ in numbers only, which are higher by `n` in the second
one. No hooks have been loaded in either. -/
structure Shifted (n : Nat) (table : ModuleTable) (s s' : Session) : Prop where
  config : s'.config = s.config
  operators : s'.operators = s.operators
  nextId : s'.shop.nextId = s.shop.nextId + n
  registry : s'.registry = s.registry.renumber (· + n)
  hooks : s.hooks = .new table
  hooks' : s'.hooks = .new table

def shifted (n : Nat) (table : ModuleTable) : Lockstep Step := .failing (.state (Shifted n table))

variable {n : Nat} {table : ModuleTable}

theorem injective_add (n : Nat) : Function.Injective (· + n) := fun _ _ h => Nat.add_right_cancel h

theorem parse_shifted (path : SourcePath) (text : String) :
    (shifted n table).holds (Sends (SourceFile.renumber (· + n))) (parse path text)
      (parse path text) := by
  intro s s' hs
  obtain ⟨hfile, hnext⟩ := SourceFile.parse_shift path text s.shop.nextId n
  rw [← hs.nextId] at hfile hnext
  rw [run_parse, run_parse]
  generalize SourceFile.parse path text = x at hfile hnext
  rw [run_build, run_build]
  exact ⟨hfile, { hs with nextId := hnext }⟩

theorem collectAll_shifted (files : List SourceFile) :
    (shifted n table).holds (fun _ _ => True) (collectAll files)
      (collectAll (files.map (SourceFile.renumber (· + n)))) := by
  induction files with
  | nil => exact (shifted n table).pure trivial
  | cons file files ih =>
    intro s s' hs
    have hcollect := Registry.collect_renumber (injective_add n) s.registry file
    rw [← hs.registry] at hcollect
    change ExceptRel _ ((collectAll (file :: files)).run.run s).1
        ((collectAll (file.renumber (· + n) :: files.map (SourceFile.renumber (· + n)))).run.run s').1 ∧
      Shifted n table ((collectAll (file :: files)).run.run s).2
        ((collectAll (file.renumber (· + n) :: files.map (SourceFile.renumber (· + n)))).run.run s').2
    rw [run_collectAll_cons, run_collectAll_cons, hcollect]
    cases s.registry.collect file with
    | error e => exact ⟨.error e, hs⟩
    | ok r => exact ih { s with registry := r } _ { hs with registry := rfl }

theorem register_shifted (files : List SourceFile) :
    (shifted n table).holds (fun _ _ => True) (register files)
      (register (files.map (SourceFile.renumber (· + n)))) := by
  refine (shifted n table).bind (collectAll_shifted files) fun _ _ _ => ?_
  intro s s' hs
  refine ⟨.ok trivial, { hs with registry := ?_ }⟩
  change s'.registry.bound (files.map (SourceFile.renumber (· + n))) =
    (s.registry.bound files).renumber (· + n)
  rw [hs.registry, Registry.bound_renumber (injective_add n)]

end Session

namespace Registry

/-- The tables of a registry agree, and it knows no declarations but some. -/
structure KnowsOnly (r : Registry) (ds : List Declaration) : Prop where
  consistent : r.Consistent
  subset : r.declarations ⊆ ds

variable {r : Registry} {ds : List Declaration}

theorem declarations_declareAll_subset (h : r.declarations ⊆ ds) {more : List Declaration}
    (hmore : more ⊆ ds) : (r.declareAll more).declarations ⊆ ds := by
  induction more generalizing r with
  | nil => exact h
  | cons d more ih =>
    obtain ⟨hd, hmore⟩ := List.cons_subset.mp hmore
    refine ih ?_ hmore
    dsimp only
    cases hknown : r.declaration? d.id with
    | some known => rwa [declare_known hknown]
    | none =>
      rw [declare_new hknown]
      exact List.append_subset.mpr ⟨h, List.cons_subset.mpr ⟨hd, List.nil_subset _⟩⟩

theorem KnowsOnly.collect (h : r.KnowsOnly ds) {file : SourceFile} {r' : Registry}
    (hcollect : r.collect file = .ok r') (hfile : file.declared ⊆ ds) : r'.KnowsOnly ds where
  consistent := h.consistent.collect hcollect
  subset := by
    obtain ⟨-, rfl⟩ := collect_eq_ok.mp hcollect
    refine declarations_declareAll_subset ?_ hfile
    rw [h.consistent.declarations_forgetFile]
    exact List.Subset.trans (List.filter_subset_self _) h.subset

theorem KnowsOnly.bound (h : r.KnowsOnly ds) (files : List SourceFile) :
    (r.bound files).KnowsOnly ds := by
  have hfollow : (r.collectDependencies files).2.KnowsOnly ds := by
    refine ⟨h.consistent.perform (.follow files), ?_⟩
    rw [(r.collectDependencies_keeps files).1]
    exact h.subset
  rw [Registry.bound]
  generalize (r.collectDependencies files).2 = r at hfollow
  clear h
  induction files generalizing r with
  | nil => exact hfollow
  | cons file files ih =>
    refine ih _ ⟨hfollow.consistent.bindSites file, ?_⟩
    rw [(r.bindSites_keeps file).1]
    exact hfollow.subset

theorem KnowsOnly.mem_of_binding? (h : r.KnowsOnly ds) {kind : MacroKind} {i : NodeId}
    {d : Declaration} (hd : r.binding? kind i = some d) : d ∈ ds :=
  h.subset (h.consistent.bindings _ (Table.mem_of_get? hd)).1

theorem KnowsOnly.mem_of_derive? (h : r.KnowsOnly ds) {name : String} {d : Declaration}
    (hd : r.derive? name = some d) : d ∈ ds :=
  h.subset (h.consistent.derives _ (Table.mem_of_get? hd)).1

/-- Only nodes of the files are bound, if none was bound before. -/
theorem mem_items_of_binding?_bound {files : List SourceFile} (hunbound : r.bindings = [])
    {kind : MacroKind} {i : NodeId} {d : Declaration} (hd : (r.bound files).binding? kind i = some d) :
    i ∈ (files.flatMap SourceFile.items).map Item.id := by
  rw [bound, foldl_bindSites] at hd
  rcases mem_of_binding?_foldl hd with hentry | hold
  · exact (entries_sublist _ files).subset (List.mem_map_of_mem hentry)
  · rw [binding?, bindings_collectDependencies, hunbound] at hold
    cases hold

end Registry

namespace Session

open Registry

variable {n T : Nat} {table : ModuleTable} {s s' : Session} {files : List SourceFile}
  {inputs : List (SourcePath × String)} {ds : List Declaration}

theorem knowsOnly_of_collectAll (h : s.registry.KnowsOnly ds)
    (hfiles : ∀ file ∈ files, file.declared ⊆ ds)
    (hrun : (collectAll files).run.run s = (.ok (), s')) : s'.registry.KnowsOnly ds := by
  induction files generalizing s with
  | nil =>
    obtain ⟨-, rfl⟩ := Prod.mk.inj hrun
    exact h
  | cons file files ih =>
    obtain ⟨hfile, hfiles⟩ := List.forall_mem_cons.mp hfiles
    rw [run_collectAll_cons] at hrun
    cases hcollect : s.registry.collect file with
    | error e =>
      rw [hcollect] at hrun
      cases hrun
    | ok r =>
      rw [hcollect] at hrun
      exact ih (s := { s with registry := r }) (h.collect hcollect hfile) hfiles hrun

/-- When a program has been registered where nothing was known, the sessions mean the same by it. -/
theorem Shifted.paired (h : Shifted n table s s') {a : Nat} (hparses : Parses a inputs files T)
    {r : Registry} (hs : s.registry = r.bound files)
    (hr : r.KnowsOnly (files.flatMap SourceFile.declared)) (hunbound : r.bindings = []) :
    Paired (· + n) T (T + n) (fun _ => True) (files.flatMap SourceFile.declared) s s' := by
  have hknows := hs ▸ hr.bound files
  have hlt : ∀ kind i d, s.registry.binding? kind i = some d → i < T := fun kind i d hd => by
    rw [hs] at hd
    obtain ⟨item, hitem, rfl⟩ := List.mem_map.mp (mem_items_of_binding?_bound hunbound hd)
    exact (hparses.numbered.bounds item hitem).2
  have hbinding : ∀ kind i, s'.registry.binding? kind (i + n) =
      (s.registry.binding? kind i).map (Declaration.renumber (· + n)) := fun kind i => by
    rw [h.registry]
    exact binding?_renumber (injective_add n) s.registry kind i
  refine ⟨fun i j _ _ => Nat.add_right_cancel, fun i => Nat.add_lt_add_right (k := n),
    hparses.nodup_declared, fun d => hparses.declared_lt, h.config, h.operators,
    fun kind i _ => hbinding kind i, fun kind i d hd => ⟨hlt kind i d hd, hknows.mem_of_binding? hd⟩,
    fun kind i hi => ?_, fun name _ => ?_, fun name d => hknows.mem_of_derive?⟩
  · obtain ⟨j, rfl⟩ := Nat.exists_eq_add_of_le' (Nat.le_trans (Nat.le_add_left n T) hi)
    rw [hbinding, Option.map_eq_none_iff]
    exact Option.eq_none_iff_forall_ne_some.mpr fun d hd =>
      Nat.not_lt.mpr hi (Nat.add_lt_add_right (hlt kind j d hd) n)
  · rw [h.registry]
    exact derive?_renumber (· + n) s.registry name

/-- Files compile to the same in both sessions, up to the first error. -/
theorem compileAll_paired {π : Nat → Nat} {top : Nat} {s₀ s₀' : Session}
    (h : Paired π T top (fun _ => True) ds s₀ s₀')
    (hblind : ∀ d ∈ ds, ∀ body, table.bodyOf d = .ok body → body.Blind)
    {a : Nat} (hparses : Parses a inputs files T)
    (hs : s.Ready s₀ table ds ∧ T ≤ s.shop.nextId)
    (hs' : s'.Ready s₀' table (ds.map (Declaration.renumber π)) ∧ top ≤ s'.shop.nextId) :
    ((files.mapM compileRegistered).run.run s).1 =
      (((files.map (SourceFile.renumber π)).mapM compileRegistered).run.run s').1 := by
  have hfile : ∀ file ∈ files, (Lockstep.failing (.state fun s s' =>
      (s.Ready s₀ table ds ∧ T ≤ s.shop.nextId) ∧
        s'.Ready s₀' table (ds.map (Declaration.renumber π)) ∧ top ≤ s'.shop.nextId)).holds
      (Sends id) (compileRegistered file) (compileRegistered (file.renumber π)) := by
    intro file hfile s s' hs
    obtain ⟨path, text, a, b, hparse, hb⟩ := hparses.exists_parse hfile
    obtain ⟨hanswer, hready, hready', used, hused, hused'⟩ := h.compile hblind
      (fun _ _ body _ => body.keeps_of_forall fun _ => trivial) hparse hb
      (fun stmt _ => Node.within_of_forall (fun _ => trivial) (.stmt stmt)) hs.1.1 hs.1.2 hs.2.1
      hs.2.2
    refine ⟨?_, ⟨hready, ?_⟩, hready', ?_⟩
    · exact exceptRel_id_iff.mpr hanswer
    · exact (Nat.le_add_right_of_le hs.1.2).trans_eq hused.symm
    · exact (Nat.le_add_right_of_le hs.2.2).trans_eq hused'.symm
  have hall := (Lockstep.mapM _ files hfile s s' ⟨hs, hs'⟩).1
  rw [List.map_id_fun] at hall
  exact exceptRel_id_iff.mp hall

def enter (inputs : List (SourcePath × String)) : Step (List SourceFile) := do
  let files ← inputs.mapM fun (path, text) => parse path text
  register files
  return files

theorem compileFiles_eq (inputs : List (SourcePath × String)) :
    compileFiles inputs = enter inputs >>= fun files => files.mapM compileRegistered := by
  simp only [compileFiles, enter, bind_assoc, pure_bind]

theorem enter_shifted (inputs : List (SourcePath × String)) :
    (shifted n table).holds (Sends (List.map (SourceFile.renumber (· + n)))) (enter inputs)
      (enter inputs) := by
  have hparse : (shifted n table).holds (Sends (List.map (SourceFile.renumber (· + n))))
      (inputs.mapM fun (path, text) => parse path text)
      (inputs.mapM fun (path, text) => parse path text) := by
    induction inputs with
    | nil => exact (shifted n table).pure rfl
    | cons input inputs ih =>
      rw [List.mapM_cons]
      refine (shifted n table).bindSends (parse_shifted input.1 input.2) fun file => ?_
      exact (shifted n table).bindSends ih fun files => (shifted n table).pure rfl
  refine (shifted n table).bindSends hparse fun files => ?_
  exact (shifted n table).bind (register_shifted files) fun _ _ _ => (shifted n table).pure rfl

theorem run_enter_eq_ok : (enter inputs).run.run s = (.ok files, s') ↔
    ∃ T, Parses s.shop.nextId inputs files T ∧
      (register files).run.run (s.withNext T) = (.ok (), s') := by
  unfold enter
  rw [run_bind_eq_ok]
  constructor
  · rintro ⟨_, _, hparse, hrest⟩
    obtain ⟨T, hparses, rfl⟩ := run_parses.mp hparse
    obtain ⟨⟨⟩, _, hregister, hpure⟩ := run_bind_eq_ok.mp hrest
    obtain ⟨hfiles, rfl⟩ := Prod.mk.inj hpure
    obtain rfl := Except.ok.inj hfiles
    exact ⟨T, hparses, hregister⟩
  · rintro ⟨T, hparses, hregister⟩
    exact ⟨files, _, run_parses.mpr ⟨T, hparses, rfl⟩,
      run_bind_eq_ok.mpr ⟨(), s', hregister, rfl⟩⟩

/-- Where nothing is known, a program compiles to the same with higher numbers, or fails with the same
error. -/
theorem compileFiles_shifted (h : Shifted n table s s') (hempty : s.registry = .empty)
    (hblind : ∀ d ∈ declaredBy inputs, ∀ body, table.bodyOf d = .ok body → body.Blind) :
    ((compileFiles inputs).run.run s).1 = ((compileFiles inputs).run.run s').1 := by
  obtain ⟨hfiles, hentered⟩ : ExceptRel (Sends (List.map (SourceFile.renumber (· + n))))
      ((enter inputs).run.run s).1 ((enter inputs).run.run s').1 ∧
    Shifted n table ((enter inputs).run.run s).2 ((enter inputs).run.run s').2 :=
    enter_shifted inputs s s' h
  rw [compileFiles_eq, run_bind, run_bind]
  cases hrun : (enter inputs).run.run s with
  | mk answer s₁ =>
    generalize (enter inputs).run.run s' = entered at hfiles hentered
    obtain ⟨answer', s₁'⟩ := entered
    rw [hrun] at hfiles hentered
    cases hfiles with
    | error e => rfl
    | @ok files files' hfiles =>
      obtain rfl := hfiles
      obtain ⟨T, hparses, hregister⟩ := run_enter_eq_ok.mp hrun
      obtain ⟨s₂, hcollect, rfl⟩ := run_register_eq_ok.mp hregister
      obtain ⟨r, rfl, hsub⟩ : ∃ r : Registry, s₂ = { s.withNext T with registry := r } ∧
          r.bindings ⊆ [] := by
        obtain ⟨r, hr, hsub⟩ := collectAll_keeps files (s.withNext T)
        rw [hcollect] at hr
        rw [show (s.withNext T).registry = .empty from hempty] at hsub
        exact ⟨r, hr, hsub⟩
      have hknown : r.KnowsOnly (files.flatMap SourceFile.declared) := by
        refine knowsOnly_of_collectAll ?_ (fun file hfile d hd => ?_) hcollect
        · change s.registry.KnowsOnly _
          rw [hempty]
          exact ⟨.empty, List.nil_subset _⟩
        · exact List.mem_flatMap.mpr ⟨file, hfile, hd⟩
      have hpaired := hentered.paired hparses rfl hknown (List.subset_nil.mp hsub)
      have hnew : ∀ {cache : HookCache} {ds}, cache = .new table → cache.Holds table ds :=
        fun {_ ds} h => h ▸ .new table ds
      exact compileAll_paired hpaired (hparses.forall_body hblind) hparses
        ⟨⟨rfl, rfl, rfl, hnew hentered.hooks⟩, Nat.le_refl T⟩
        ⟨⟨rfl, rfl, rfl, hnew hentered.hooks'⟩, hentered.nextId.ge⟩

end Session

end MacroEngine
