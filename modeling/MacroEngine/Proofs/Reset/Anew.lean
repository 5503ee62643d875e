import MacroEngine.Proofs.Reset.Shifted

/-!
# A session that was reset

Whatever was done with a session before, and whether or not it succeeded, nothing of it is left after
a reset but the numbers that were given. The settings stay, and so does the table of modules. So the
next program compiles as it does in a new session.
-/

namespace MacroEngine

namespace Session

inductive Call where
  | parse (path : SourcePath) (text : String)
  | register (files : List SourceFile)
  | transform (file : SourceFile)
  | check (file : SourceFile) (checker : TypeChecker)
  | compileFiles (inputs : List (SourcePath × String))
  | compileSource (path : SourcePath) (text : String)
  | registerOperator (op : BinaryOp) (callee : String)
  | reset

/-- The session that a call leaves behind, whatever it answers. -/
def perform (s : Session) : Call → Session
  | .parse path text => ((parse path text).run.run s).2
  | .register files => ((register files).run.run s).2
  | .transform file => ((transform file).run s).2
  | .check file checker => ((check file checker).run.run s).2
  | .compileFiles inputs => ((compileFiles inputs).run.run s).2
  | .compileSource path text => ((compileSource path text).run.run s).2
  | .registerOperator op callee => ((registerOperator op callee).run s).2
  | .reset => (reset.run s).2

def after (calls : List Call) (s : Session) : Session := calls.foldl perform s

structure Over (config : Config) (table : ModuleTable) (s : Session) : Prop where
  config : s.config = config
  loader : Loader.Reached table s.hooks.loader

section Over

variable {config : Config} {table : ModuleTable} {s s' : Session} {α β : Type}

theorem Over.runs (h : Over config table s) (hruns : Runs s s') : Over config table s' :=
  ⟨hruns.config.trans h.config, hruns.loader table h.loader⟩

def Stays (config : Config) (table : ModuleTable) (x : Step α) : Prop :=
  ∀ s, Over config table s → Over config table (x.run.run s).2

theorem OnlyRuns.stays {x : Step α} (h : OnlyRuns x) : Stays config table x :=
  fun s hs => hs.runs (h s)

theorem Stays.bind {x : Step α} {f : α → Step β} (hx : Stays config table x)
    (hf : ∀ a, Stays config table (f a)) : Stays config table (x >>= f) := Keeps.bind hx hf

theorem register_stays (files : List SourceFile) : Stays config table (register files) := by
  intro s hs
  obtain ⟨r, hr, -⟩ := collectAll_keeps files s
  rw [run_register]
  generalize (collectAll files).run.run s = out at hr
  obtain ⟨outcome, s₁⟩ := out
  obtain rfl : s₁ = { s with registry := r } := hr
  cases outcome <;> exact ⟨hs.config, hs.loader⟩

theorem compileFiles_stays (inputs : List (SourcePath × String)) :
    Stays config table (compileFiles inputs) :=
  (OnlyRuns.mapM (fun _ => parse_onlyRuns _ _) inputs).stays.bind fun files =>
    (register_stays files).bind fun _ =>
      (OnlyRuns.mapM compileRegistered_onlyRuns files).stays

theorem compileSource_stays (path : SourcePath) (text : String) :
    Stays config table (compileSource path text) :=
  (parse_onlyRuns path text).stays.bind fun file => (register_stays [file]).bind fun _ =>
    ((compileRegistered_onlyRuns file).bind fun _ => .pure _).stays

theorem Over.perform (h : Over config table s) (call : Call) :
    Over config table (s.perform call) := by
  cases call with
  | parse path text => exact (parse_onlyRuns path text).stays s h
  | register files => exact register_stays files s h
  | transform file => exact h.runs (transform_runs file s)
  | check file checker => exact (check_onlyRuns file checker).stays s h
  | compileFiles inputs => exact compileFiles_stays inputs s h
  | compileSource path text => exact compileSource_stays path text s h
  | registerOperator op callee => exact ⟨h.config, h.loader⟩
  | reset =>
    refine ⟨h.config, ?_⟩
    change Loader.Reached table (.new s.hooks.loader.table)
    rw [h.loader.sound.2.1]
    exact .new

theorem Over.after (h : Over config table s) (calls : List Call) :
    Over config table (s.after calls) := by
  unfold Session.after
  induction calls generalizing s with
  | nil => exact h
  | cons call calls ih => exact ih (h.perform call)

end Over

variable {config : Config} {table : ModuleTable} {new s : Session}

/-- A session that was reset is a new session but for the numbers that were given. -/
theorem Over.reset_shifted (hnew : Session.new config table = .ok new) (h : Over new.config table s) :
    Shifted s.shop.nextId table { new with operators := s.operators } (reset.run s).2 := by
  obtain ⟨hnext, hregistry, hhooks⟩ := of_new hnew
  refine ⟨h.config, rfl, ?_, ?_, hhooks, ?_⟩
  · exact (Nat.zero_add _).symm.trans (congrArg (· + s.shop.nextId) hnext.symm)
  · change Registry.empty = new.registry.renumber _
    rw [hregistry]
    rfl
  · change HookCache.new s.hooks.loader.table = .new table
    rw [h.loader.sound.2.1]

/-- Nothing is left after a reset. Whatever calls were made on a session before, successful or not, the
next program compiles to what it compiles to in a new session with the same settings, operators and
modules, or fails with the same error, if its hooks do not look at the identities of nodes. -/
theorem compileFiles_after_reset (hnew : Session.new config table = .ok new) (calls : List Call)
    (inputs : List (SourcePath × String))
    (hblind : ∀ d ∈ declaredBy inputs, ∀ body, table.bodyOf d = .ok body → body.Blind) :
    ((compileFiles inputs).run.run (reset.run (new.after calls)).2).1 =
      ((compileFiles inputs).run.run { new with operators := (new.after calls).operators }).1 := by
  have hstart : Over new.config table new := ⟨rfl, (of_new hnew).2.2 ▸ .new⟩
  have hshifted := (hstart.after calls).reset_shifted hnew
  exact (compileFiles_shifted hshifted (of_new hnew).2.1 hblind).symm

/-- A program was compiled, and then a text that does not parse. -/
def twiceCalls : List Call :=
  [.compileFiles twiceInputs, .compileSource ⟨"lib/broken.kn"⟩ "const x = ("]

theorem compileFiles_after_reset_twice : Session.new .standard twiceTable = .ok twiceSession ∧
    (∀ d ∈ declaredBy twiceInputs, ∀ body, twiceTable.bodyOf d = .ok body → body.Blind) ∧
    0 < (twiceSession.after twiceCalls).shop.nextId ∧
    ((compileFiles twiceInputs).run.run (reset.run (twiceSession.after twiceCalls)).2).1 =
      ((compileFiles twiceInputs).run.run
        { twiceSession with operators := (twiceSession.after twiceCalls).operators }).1 := by
  have hnew : Session.new .standard twiceTable = .ok twiceSession := rfl
  have hblind : ∀ d ∈ declaredBy twiceInputs, ∀ body, twiceTable.bodyOf d = .ok body → body.Blind :=
    fun _ _ _ hbody => blind_of_bodyOf hbody
  refine ⟨hnew, hblind, ?_, compileFiles_after_reset hnew twiceCalls twiceInputs hblind⟩
  decide +kernel

end Session

end MacroEngine
