import MacroEngine.Proofs.Hoisting.Sessions

/-!
# Hoisted names in compiled files

A session numbers the hoisted names of all files that it compiles. So no two files share one of them,
and in each file those that it got are defined before they are used, but for the statements in front
of its first import.
-/

namespace MacroEngine

namespace Session

/-- A file as it was parsed and as it was compiled. -/
structure Compiled where
  source : SourceFile
  file : SourceFile
  report : Report
  /-- The number for the next hoisted name when the file came, -/
  first : ℕ
  /-- and when it was compiled. -/
  next : ℕ

def Compiled.given (y : Compiled) : List String :=
  (List.range' y.first (y.next - y.first)).map MacroEngine.Standard.hoistedName

theorem Compiled.mem_given {y : Compiled} {n : ℕ} :
    MacroEngine.Standard.hoistedName n ∈ y.given ↔ y.first ≤ n ∧ n < y.next := by
  rw [given, List.mem_map_of_injective MacroEngine.Standard.hoistedName_injective, List.mem_range'_1]
  omega

theorem Compiled.nodup_given (y : Compiled) : y.given.Nodup :=
  List.Nodup.map MacroEngine.Standard.hoistedName_injective (List.nodup_range' _)

/-- Files that were compiled one after the other share no hoisted name. -/
theorem Compiled.disjoint_given {y y' : Compiled} (h : y.next ≤ y'.first) :
    List.Disjoint y.given y'.given := by
  intro name hname hname'
  obtain ⟨n, -, rfl⟩ := List.mem_map.mp hname
  have hbelow := (mem_given.mp hname).2
  have habove := (mem_given.mp hname').1
  omega

def Compiled.printed (y : Compiled) : CompiledFile := ⟨y.file.path, y.file.print, y.report⟩

def compileTree (file : SourceFile) : Step Compiled := do
  let before ← get
  let (out, outcome) ← (transform file : StateM Session _)
  let report ← ExceptT.mk (pure outcome)
  return ⟨file, out, report, before.shop.hoisted, (← get).shop.hoisted⟩

/-- Compiles texts as one program, but for the printing. -/
def compileTrees (inputs : List (SourcePath × String)) : Step (List Compiled) := do
  let files ← inputs.mapM fun (path, text) => parse path text
  register files
  files.mapM compileTree

section Trees

theorem run_compileTree (file : SourceFile) (s : Session) :
    (compileTree file).run.run s =
      match (transform file).run s with
      | ((_, .error e), s') => (.error e, s')
      | ((out, .ok report), s') =>
        (.ok ⟨file, out, report, s.shop.hoisted, s'.shop.hoisted⟩, s') := by
  have hlift : (liftM (transform file) : Step (SourceFile × Except Error Report)).run.run s =
      (.ok ((transform file).run s).1, ((transform file).run s).2) := rfl
  have hget : (get : Step Session).run.run s = (.ok s, s) := rfl
  rw [compileTree, run_bind, hget]
  dsimp only
  rw [run_bind, hlift]
  generalize (transform file).run s = out
  obtain ⟨⟨file, _ | report⟩, s⟩ := out <;> rfl

theorem run_compileTree_eq_ok {file : SourceFile} {s s' : Session} {y : Compiled}
    (h : (compileTree file).run.run s = (.ok y, s')) :
    ∃ out report, (transform file).run s = ((out, .ok report), s') ∧
      y = ⟨file, out, report, s.shop.hoisted, s'.shop.hoisted⟩ := by
  rw [run_compileTree] at h
  generalize (transform file).run s = ran at h
  obtain ⟨⟨out, _ | report⟩, s₁⟩ := ran
  · cases h
  · cases h
    exact ⟨out, report, rfl, rfl⟩

theorem compileRegistered_eq (file : SourceFile) :
    compileRegistered file = do return (← compileTree file).printed := by
  refine ExceptT.ext (funext fun s => ?_)
  change (compileRegistered file).run.run s = (compileTree file >>= _ : Step CompiledFile).run.run s
  rw [run_bind, run_compileTree, run_compileRegistered]
  generalize (transform file).run s = out
  obtain ⟨⟨file, _ | report⟩, s⟩ := out <;> rfl

theorem mapM_compileRegistered (files : List SourceFile) :
    files.mapM compileRegistered = do return (← files.mapM compileTree).map Compiled.printed := by
  induction files with
  | nil => simp
  | cons file files ih => simp [compileRegistered_eq, ih]

/-- What compiling texts answers are the compiled trees, printed. -/
theorem compileFiles_eq_printed (inputs : List (SourcePath × String)) :
    compileFiles inputs = do return (← compileTrees inputs).map Compiled.printed := by
  unfold compileFiles compileTrees
  simp [mapM_compileRegistered]

theorem compileSource_eq_printed (path : SourcePath) (text : String) :
    (do return [← compileSource path text]) =
      (do return (← compileTrees [(path, text)]).map fun y => y.printed.text) := by
  unfold compileSource compileTrees
  simp [compileRegistered_eq]

/-- Answering something else leaves the same session behind. -/
theorem run_map_state {α β : Type} (x : Step α) (f : α → β) (s : Session) :
    ((do return f (← x) : Step β).run.run s).2 = (x.run.run s).2 := by
  change ((x >>= fun a => pure (f a) : Step β).run.run s).2 = _
  rw [run_bind]
  generalize x.run.run s = out
  obtain ⟨_ | a, s⟩ := out <;> rfl

end Trees

/-- The files that a step answers, none if it fails. -/
def answered : Except Error (List Compiled) → List Compiled
  | .ok ys => ys
  | .error _ => []

/-- The files that a call compiles. A tree counts only if its statements have identities that the
session gave. -/
def compiledBy (s : Session) : Call → List Compiled
  | .compileFiles inputs => answered ((compileTrees inputs).run.run s).1
  | .compileSource path text => answered ((compileTrees [(path, text)]).run.run s).1
  | .transform file =>
    if file.Below s.shop.nextId then answered (([file].mapM compileTree).run.run s).1 else []
  | _ => []

def compiled : List Call → Session → List Compiled
  | [], _ => []
  | call :: calls, s => s.compiledBy call ++ compiled calls (s.perform call)

section Compiled

variable (s : Session)

theorem perform_compileFiles (inputs : List (SourcePath × String)) :
    s.perform (.compileFiles inputs) = ((compileTrees inputs).run.run s).2 := by
  rw [perform, compileFiles_eq_printed, run_map_state]

theorem perform_compileSource (path : SourcePath) (text : String) :
    s.perform (.compileSource path text) = ((compileTrees [(path, text)]).run.run s).2 := by
  rw [perform, ← run_map_state _ fun text => [text], compileSource_eq_printed, run_map_state]

theorem perform_transform (file : SourceFile) :
    s.perform (.transform file) = (([file].mapM compileTree).run.run s).2 := by
  have hsingle : [file].mapM compileTree = do return [← compileTree file] := by simp
  rw [perform, hsingle, run_map_state, run_compileTree]
  generalize (transform file).run s = out
  obtain ⟨⟨file, _ | report⟩, s⟩ := out <;> rfl

end Compiled

/-- Hoisted names that are neither in the source of a file nor in callees are defined before they are
used where the file was compiled. -/
def Compiled.Hoisted (words : List String) (y : Compiled) : Prop :=
  ∀ n, MacroEngine.Standard.hoistedName n ∉ y.source.names →
    MacroEngine.Standard.hoistedName n ∉ words → Hoists n y.first y.next y.file.statements

/-- Files that were compiled one after the other, each with numbers of its own: all of them from `a`
on and below `b`. -/
inductive InTurn (words : List String) : ℕ → List Compiled → ℕ → Prop
  | nil {a b : ℕ} (h : a ≤ b) : InTurn words a [] b
  | cons {a b : ℕ} {y : Compiled} {ys : List Compiled} (hfirst : a ≤ y.first)
    (hnext : y.first ≤ y.next) (hy : y.Hoisted words) (hys : InTurn words y.next ys b) :
    InTurn words a (y :: ys) b

namespace InTurn

variable {words : List String} {a b c : ℕ} {ys more : List Compiled}

theorem mono_left (hle : c ≤ a) (h : InTurn words a ys b) : InTurn words c ys b := by
  cases h with
  | nil h => exact .nil (Nat.le_trans hle h)
  | cons hfirst hnext hy hys => exact .cons (Nat.le_trans hle hfirst) hnext hy hys

theorem append (h : InTurn words a ys b) (h' : InTurn words b more c) :
    InTurn words a (ys ++ more) c := by
  induction h with
  | nil h => exact h'.mono_left h
  | cons hfirst hnext hy _ ih => exact .cons hfirst hnext hy (ih h')

theorem first_le (h : InTurn words a ys b) : ∀ y ∈ ys, a ≤ y.first := by
  induction h with
  | nil => exact nofun
  | cons hfirst hnext _ _ ih =>
    refine List.forall_mem_cons.mpr ⟨hfirst, fun y hy => ?_⟩
    exact Nat.le_trans (Nat.le_trans hfirst hnext) (ih y hy)

/-- No hoisted name is given twice. -/
theorem nodup_given (h : InTurn words a ys b) : (ys.flatMap Compiled.given).Nodup := by
  refine List.nodup_flatMap.mpr ⟨fun y _ => y.nodup_given, ?_⟩
  induction h with
  | nil => exact .nil
  | cons _ _ _ hys ih =>
    exact .cons (fun y' hy' => Compiled.disjoint_given (hys.first_le y' hy')) ih

theorem hoisted (h : InTurn words a ys b) : ∀ y ∈ ys, y.Hoisted words := by
  induction h with
  | nil => exact nofun
  | cons _ _ hy _ ih => exact List.forall_mem_cons.mpr ⟨hy, ih⟩

end InTurn

section Calls

variable {environment : Standard.Environment} {words : List String} {bound : NodeId} {first : ℕ}
  {s s' : Session}

/-- What compiling one file comes to. -/
theorem run_compileTree_hoists (h : s.Standard environment words bound first) {file : SourceFile}
    (hfile : file.Below bound) {y : Compiled}
    (hrun : (compileTree file).run.run s = (.ok y, s')) :
    first ≤ y.first ∧ y.first ≤ y.next ∧ y.Hoisted words ∧
      s'.Standard environment words bound y.next := by
  obtain ⟨out, report, htransform, rfl⟩ := run_compileTree_eq_ok hrun
  have hkept := transform_keepsStandard file h.start
  rw [htransform] at hkept
  refine ⟨h.first_le, hkept.first_le, fun n hn hwords => ?_, ?_⟩
  · have hgiven : file.Below s.shop.nextId :=
      ⟨hfile.nodup, fun t ht => Nat.lt_of_lt_of_le (hfile.below t ht) h.bound_le⟩
    exact transform_hoists h hgiven hn hwords htransform
  · exact ⟨hkept.hooks, hkept.callees, Nat.le_trans h.bound_le hkept.bound_le, Nat.le_refl _⟩

theorem run_mapM_compileTree (h : s.Standard environment words bound first)
    {files : List SourceFile} (hfiles : ∀ file ∈ files, file.Below bound) {ys : List Compiled}
    (hrun : (files.mapM compileTree).run.run s = (.ok ys, s')) :
    InTurn words first ys s'.shop.hoisted := by
  induction files generalizing s first ys with
  | nil =>
    cases hrun
    exact .nil h.first_le
  | cons file files ih =>
    obtain ⟨hfile, hfiles⟩ := List.forall_mem_cons.mp hfiles
    obtain ⟨y, s₁, ys, hy, hys, rfl⟩ := run_mapM_cons_eq_ok.mp hrun
    obtain ⟨hfirst, hnext, hhoisted, h₁⟩ := run_compileTree_hoists h hfile hy
    exact .cons hfirst hnext hhoisted (ih h₁ hfiles hys)

theorem run_compileTrees (h : s.Standard environment words bound first)
    {inputs : List (SourcePath × String)} {ys : List Compiled}
    (hrun : (compileTrees inputs).run.run s = (.ok ys, s')) :
    InTurn words first ys s'.shop.hoisted := by
  obtain ⟨files, s₁, hparse, hrest⟩ := run_bind_eq_ok.mp hrun
  obtain ⟨⟨⟩, s₂, hregister, hys⟩ := run_bind_eq_ok.mp hrest
  obtain ⟨k, hparses, rfl⟩ := run_parses.mp hparse
  have hparsed : (s.withNext k).Standard environment words k first :=
    ⟨h.hooks, h.callees, Nat.le_refl _, h.first_le⟩
  have hregistered := register_keepsStandard files _ hparsed
  rw [hregister] at hregistered
  exact run_mapM_compileTree hregistered hparses.forall_below hys

theorem inTurn_answered {x : Step (List Compiled)} (hle : first ≤ (x.run.run s).2.shop.hoisted)
    (hx : ∀ ys s', x.run.run s = (.ok ys, s') → InTurn words first ys s'.shop.hoisted) :
    InTurn words first (answered (x.run.run s).1) (x.run.run s).2.shop.hoisted := by
  generalize x.run.run s = out at hle hx
  obtain ⟨_ | ys, s'⟩ := out
  · exact .nil hle
  · exact hx ys s' rfl

/-- What one call compiles. -/
theorem Standard.compiledBy (h : s.Standard environment words bound first) {call : Call}
    (hcall : call.calleeNames ⊆ words) :
    InTurn words first (s.compiledBy call) (s.perform call).shop.hoisted := by
  have hle := (h.perform hcall).first_le
  cases call with
  | compileFiles inputs =>
    rw [perform_compileFiles] at hle ⊢
    rw [Session.compiledBy]
    exact inTurn_answered hle fun ys s' => run_compileTrees h
  | compileSource path text =>
    rw [perform_compileSource] at hle ⊢
    rw [Session.compiledBy]
    exact inTurn_answered hle fun ys s' => run_compileTrees h
  | transform file =>
    rw [perform_transform] at hle ⊢
    rw [Session.compiledBy]
    split
    case isTrue hfile =>
      have hstart : s.Standard environment words s.shop.nextId first :=
        ⟨h.hooks, h.callees, Nat.le_refl _, h.first_le⟩
      exact inTurn_answered hle fun ys s' =>
        run_mapM_compileTree hstart (List.forall_mem_singleton.mpr hfile)
    case isFalse => exact .nil hle
  | parse path text => exact .nil hle
  | register files => exact .nil hle
  | check file checker => exact .nil hle
  | registerOperator op callee => exact .nil hle
  | reset => exact .nil hle

/-- What calls compile that are made one after the other. -/
theorem Standard.compiled (h : s.Standard environment words bound first) {calls : List Call}
    (hcalls : ∀ call ∈ calls, call.calleeNames ⊆ words) :
    InTurn words first (compiled calls s) (s.after calls).shop.hoisted := by
  induction calls generalizing s bound first with
  | nil => exact .nil h.first_le
  | cons call calls ih =>
    obtain ⟨hcall, hcalls⟩ := List.forall_mem_cons.mp hcalls
    exact (h.compiledBy hcall).append (ih (h.perform hcall).start hcalls)

/-- Whatever calls are made on a session over the standard macros, no hoisted name is given twice. If
neither the source of a file nor the callee of an operator has such a name, then it stands in the
compiled file only if it was given meanwhile. Then one constant there has the name, in front of all
statements that use it, unless these stand in front of the first import. -/
theorem hoisted_defined_first {config : Config} {new : Session}
    (hnew : Session.new config (Standard.table environment) = .ok new) (calls : List Call) :
    ((compiled calls new).flatMap Compiled.given).Nodup ∧
      ∀ y ∈ compiled calls new, ∀ n, MacroEngine.Standard.hoistedName n ∉ y.source.names →
        MacroEngine.Standard.hoistedName n ∉ Lowering.calleeNames new.operators →
        (∀ call ∈ calls, MacroEngine.Standard.hoistedName n ∉ call.calleeNames) →
        (MacroEngine.Standard.hoistedName n ∈ y.given →
          DefinedFirst (MacroEngine.Standard.hoistedName n) (leadingCount y.file.statements)
            y.file.statements) ∧
        (MacroEngine.Standard.hoistedName n ∈ y.file.names →
          MacroEngine.Standard.hoistedName n ∈ y.given) := by
  have hturn : InTurn (Lowering.calleeNames new.operators ++ calls.flatMap Call.calleeNames) 0
      (compiled calls new) (new.after calls).shop.hoisted := by
    refine (Standard.of_new hnew (List.subset_append_left _ _)).compiled fun call hcall => ?_
    exact fun name hname => List.mem_append_right _ (List.mem_flatMap.mpr ⟨call, hcall, hname⟩)
  refine ⟨hturn.nodup_given, fun y hy n hsource hcallees hcalls => ?_⟩
  have hwords : MacroEngine.Standard.hoistedName n ∉
      Lowering.calleeNames new.operators ++ calls.flatMap Call.calleeNames := by
    rw [List.mem_append, List.mem_flatMap, not_or]
    exact ⟨hcallees, fun ⟨call, hcall, hname⟩ => hcalls call hcall hname⟩
  have hhoists := hturn.hoisted y hy n hsource hwords
  rw [Compiled.mem_given]
  exact ⟨fun ⟨hfirst, hnext⟩ => hhoists.defined hfirst hnext, hhoists.given⟩

end Calls

section Hoisting

def hoistingSession : Session where
  config := .standard
  shop := ⟨0, 0, []⟩
  registry := .empty
  hooks := .new (MacroEngine.Standard.table [])
  operators := .empty
  warnings := []

/-- A file with values that are hoisted out of a function and from between its imports, and one
without imports. -/
def hoistingCalls : List Call :=
  [.compileFiles [(⟨"a.kn"⟩, "import \x7b a \x7d from \"./a\";\nmacro function hoist() \x7b\x7d\n" ++
      "function f() \x7b return hoist!(1); \x7d\nf(hoist!(2));\n" ++
      "import \x7b b \x7d from \"./b\";\nb(hoist!(3));"),
    (⟨"b.kn"⟩, "macro function hoist() \x7b\x7d\nconst c = hoist!(a) + hoist!(b);")]]

theorem exists_compiled_hoisting : ∃ y ∈ compiled hoistingCalls hoistingSession,
    y.first = 0 ∧ y.next = 3 ∧
      ∀ name ∈ y.source.names, name.toList.take 10 ≠ "__hoisted_".toList := by decide +kernel

theorem hoisted_defined_first_between_imports :
    Session.new .standard (MacroEngine.Standard.table []) = .ok hoistingSession ∧
      ((compiled hoistingCalls hoistingSession).flatMap Compiled.given).Nodup ∧
      ∃ y ∈ compiled hoistingCalls hoistingSession, ∀ n < 3,
        DefinedFirst (MacroEngine.Standard.hoistedName n) (leadingCount y.file.statements)
          y.file.statements := by
  have hnew : Session.new .standard (MacroEngine.Standard.table []) = .ok hoistingSession := rfl
  obtain ⟨hnodup, hdefined⟩ := hoisted_defined_first hnew hoistingCalls
  obtain ⟨y, hy, hfirst, hnext, hspares⟩ := exists_compiled_hoisting
  refine ⟨hnew, hnodup, y, hy, fun n hn => ?_⟩
  have hsource := MacroEngine.Standard.hoistedName_not_mem hspares n
  refine (hdefined y hy n hsource List.not_mem_nil ?_).1 ?_
  · exact List.forall_mem_singleton.mpr List.not_mem_nil
  · exact Compiled.mem_given.mpr ⟨hfirst ▸ Nat.zero_le n, hnext ▸ hn⟩

/-- A value that is hoisted in front of the first import. -/
def earlyCalls : List Call :=
  [.compileFiles [(⟨"main.kn"⟩, "macro function hoist() \x7b\x7d\nuse(hoist!(1));\n" ++
    "import \x7b a \x7d from \"./a\";")]]

/-- An operator that is lowered to calls of a hoisted name. -/
def poweredCalls : List Call :=
  [.registerOperator .pow "__hoisted_0",
    .compileSource ⟨"main.kn"⟩ ("macro function hoist() \x7b\x7d\nconst a = hoist!(x);\n" ++
      "const b = hoist!(y ** z);")]

theorem exists_compiled_early : ∃ y ∈ compiled earlyCalls hoistingSession,
    (∀ name ∈ y.source.names, name.toList.take 10 ≠ "__hoisted_".toList) ∧
      "__hoisted_0" ∈ y.given ∧ ¬ DefinedFirst "__hoisted_0" 0 y.file.statements := by
  decide +kernel

theorem exists_compiled_powered : ∃ y ∈ compiled poweredCalls hoistingSession,
    (∀ name ∈ y.source.names, name.toList.take 10 ≠ "__hoisted_".toList) ∧
      "__hoisted_0" ∈ y.given ∧ ¬ DefinedFirst "__hoisted_0" 0 y.file.statements := by
  decide +kernel

/-- Neither condition can go. Statements in front of the first import stay in front of the constants,
and an operator may be lowered to a call in a constant in front of the one that has its name. -/
theorem not_hoisted_defined_first :
    Session.new .standard (MacroEngine.Standard.table []) = .ok hoistingSession ∧
      (∃ y ∈ compiled earlyCalls hoistingSession,
        (∀ n, MacroEngine.Standard.hoistedName n ∉ y.source.names) ∧
          "__hoisted_0" ∈ y.given ∧ ¬ DefinedFirst "__hoisted_0" 0 y.file.statements) ∧
      ∃ y ∈ compiled poweredCalls hoistingSession,
        (∀ n, MacroEngine.Standard.hoistedName n ∉ y.source.names) ∧
          "__hoisted_0" ∈ y.given ∧ ¬ DefinedFirst "__hoisted_0" 0 y.file.statements := by
  obtain ⟨y, hy, hspares, hearly⟩ := exists_compiled_early
  obtain ⟨y', hy', hspares', hpowered⟩ := exists_compiled_powered
  exact ⟨rfl, ⟨y, hy, MacroEngine.Standard.hoistedName_not_mem hspares, hearly⟩,
    y', hy', MacroEngine.Standard.hoistedName_not_mem hspares', hpowered⟩

end Hoisting

end Session

end MacroEngine
