import MacroEngine.Proofs.Expansion.Ending

/-!
# Walks under different policies

A class may derive a name that means nothing. What comes of such a miss is up to the policy, and the
policy has no other say in a walk: a walk that meets misses none of which is fatal is the walk that
ignores them, up to the warnings, and a walk that meets a fatal one comes to it before any other
error. This holds of each part of a walk, for the misses that the part meets.
-/

namespace MacroEngine

/-- What to do about names that mean nothing, and about patches without anchor. -/
structure Policies where
  derives : MissPolicy
  anchors : MissPolicy

namespace Policies

def lenient : Policies := ⟨.ignore, .ignore⟩

def of (P : Policies) : Error → MissPolicy
  | .unresolvedDerive _ _ => P.derives
  | .unresolvedAnchors _ _ => P.anchors
  | _ => .ignore

def fatal? (P : Policies) (misses : List Error) : Option Error :=
  misses.find? fun e => P.of e = .fail

def warned (P : Policies) (misses : List Error) : List String :=
  (misses.filter fun e => P.of e = .warn).map Error.message

variable {P : Policies} {misses more : List Error}

@[simp] theorem warned_nil : P.warned [] = [] := rfl

theorem fatal?_append : P.fatal? (misses ++ more) = (P.fatal? misses).or (P.fatal? more) :=
  List.find?_append

theorem warned_append : P.warned (misses ++ more) = P.warned misses ++ P.warned more := by
  rw [warned, List.filter_append, List.map_append, warned, warned]

theorem lenient_of (e : Error) : lenient.of e = .ignore := by cases e <;> rfl

@[simp] theorem lenient_fatal? (misses : List Error) : lenient.fatal? misses = none :=
  List.find?_eq_none.mpr fun e _ => by simp [lenient_of]

end Policies

/-- A miss, if derive names mean what they mean in a registry. -/
inductive Error.IsMiss (r : Registry) : Error → Prop
  | derive {className name : String} (h : r.derive? name = none) :
    IsMiss r (.unresolvedDerive className name)
  | anchors {path : SourcePath} {count : ℕ} (h : 0 < count) :
    IsMiss r (.unresolvedAnchors path count)

namespace Expansion

def saying (st : Expansion) (warnings : List String) : Expansion := { st with warnings }

section Parts

variable {α β : Type} {r : Registry}

/-- A part of a walk that has nothing to do with misses: warnings do not matter to it, and an error
that has occurred stays. -/
structure Plain (x : Walk α) : Prop where
  run : ∀ st ws, x.run (st.saying ws) = ((x.run st).1, (x.run st).2.saying ws)
  halts : ∀ st e, st.halted = some e → (x.run st).2.halted = some e

namespace Plain

theorem pure (a : α) : Plain (Pure.pure a) := ⟨fun _ _ => rfl, fun _ _ h => h⟩

theorem bind {x : Walk α} {f : α → Walk β} (hx : Plain x) (hf : ∀ a, Plain (f a)) :
    Plain (x >>= f) where
  run st ws := by
    simp only [run_bind, hx.run st ws]
    exact (hf _).run _ ws
  halts st e h := (hf _).halts _ e (hx.halts st e h)

theorem get {f : Expansion → Walk α} (hf : ∀ st, Plain (f st))
    (hsame : ∀ st ws, f (st.saying ws) = f st) : Plain (MonadState.get >>= f) where
  run st ws := by
    change (f (st.saying ws)).run (st.saying ws) = _
    rw [hsame]
    exact (hf st).run st ws
  halts st e h := (hf st).halts st e h

theorem work (x : Work α) : Plain (Walk.work x) := ⟨fun _ _ => rfl, fun _ _ h => h⟩

theorem halt (e : Error) : Plain (Walk.halt e) := by
  refine ⟨fun _ _ => rfl, fun st e' h => ?_⟩
  change st.halted.or (some e) = some e'
  rw [h, Option.some_or]

theorem record (run : HookRun) : Plain (Walk.record run) := ⟨fun _ _ => rfl, fun _ _ h => h⟩

theorem enter (site : NodeId) : Plain (Walk.enter site) := ⟨fun _ _ => rfl, fun _ _ h => h⟩

theorem leave : Plain Walk.leave := ⟨fun _ _ => rfl, fun _ _ h => h⟩

theorem setHooks (hooks : HookCache) :
    Plain (modify fun st => { st with hooks } : Walk Unit) := ⟨fun _ _ => rfl, fun _ _ h => h⟩

theorem setPatcher (patcher : Patcher) :
    Plain (modify fun st => { st with patcher } : Walk Unit) := ⟨fun _ _ => rfl, fun _ _ h => h⟩

theorem hooksFor (d : Declaration) : Plain (Walk.hooksFor d) := by
  refine .get (fun st => ?_) fun _ _ => rfl
  exact (work _).bind fun _ => (setHooks _).bind fun _ => .pure _

theorem hooksForAll (ds : List Declaration) : Plain (hooksForAll ds) := by
  induction ds with
  | nil => exact .pure _
  | cons d ds ih =>
    refine (hooksFor d).bind fun hooks => ?_
    cases hooks with
    | error e => exact .pure _
    | ok hooks =>
      refine ih.bind fun more => ?_
      cases more with
      | error e => exact .pure _
      | ok more => exact .pure _

theorem expandSite (g : ExpansionSetting) (d : Declaration) (site : Expr) :
    Plain (expandSite g d site) := by
  refine (hooksFor d).bind fun hooks => ?_
  cases hooks with
  | error e => exact .pure _
  | ok hooks =>
    refine .get (fun st => ?_) fun _ _ => rfl
    refine (work _).bind fun out => (setPatcher _).bind fun _ => ?_
    obtain ⟨e | ⟨e, beside⟩, patcher⟩ := out
    · exact .pure _
    · exact (record _).bind fun _ => .pure _

end Plain

/-- The misses that a part of a walk meets when it starts from a state. Where none of them is fatal
the part does what it does if it ignores them, and warns; otherwise the first fatal one is the
error of the walk. -/
structure Meets (r : Registry) (x : Policies → Walk α) (st : Expansion) (misses : List Error) :
    Prop where
  missed : ∀ e ∈ misses, e.IsMiss r
  tolerated : ∀ P ws, P.fatal? misses = none → (x P).run (st.saying ws) =
    (((x .lenient).run st).1, ((x .lenient).run st).2.saying (ws ++ P.warned misses))
  refused : ∀ P ws e, P.fatal? misses = some e →
    ((x P).run (st.saying ws)).2.halted = some e

def Halts (x : Policies → Walk α) : Prop :=
  ∀ P st e, st.halted = some e → ((x P).run st).2.halted = some e

/-- A part of a walk that meets misses wherever it starts, as long as no error has occurred. -/
structure TracksAwake (r : Registry) (x : Policies → Walk α) : Prop where
  halts : Halts x
  awake : ∀ st, st.halted = none → ∃ misses, Meets r x st misses

/-- A part of a walk that meets no misses any more once an error has occurred. -/
structure Tracks (r : Registry) (α : Type) (x : Policies → Walk α) : Prop
    extends TracksAwake r x where
  asleep : ∀ st e, st.halted = some e → Meets r x st []

theorem Plain.meets {x : Walk α} (hx : Plain x) (st : Expansion) : Meets r (fun _ => x) st [] where
  missed _ h := absurd h List.not_mem_nil
  tolerated P ws _ := by
    rw [Policies.warned_nil, List.append_nil]
    exact hx.run st ws
  refused _ _ _ h := nomatch h

theorem Plain.tracks {x : Walk α} (hx : Plain x) : Tracks r α fun _ => x where
  halts _ := hx.halts
  awake st _ := ⟨[], hx.meets st⟩
  asleep st _ _ := hx.meets st

theorem Meets.bind {x : Policies → Walk α} {f : Policies → α → Walk β} {st : Expansion}
    {misses more : List Error} (hx : Meets r x st misses) (hhalts : ∀ a, Halts fun P => f P a)
    (hf : Meets r (fun P => f P ((x .lenient).run st).1) ((x .lenient).run st).2 more) :
    Meets r (fun P => x P >>= f P) st (misses ++ more) where
  missed e he := (List.mem_append.mp he).elim (hx.missed e) (hf.missed e)
  tolerated P ws h := by
    rw [Policies.fatal?_append, Option.or_eq_none_iff] at h
    rw [run_bind, hx.tolerated P ws h.1, hf.tolerated P _ h.2, run_bind, Policies.warned_append,
      List.append_assoc]
  refused P ws e h := by
    rw [run_bind]
    cases hfatal : P.fatal? misses with
    | some e' =>
      rw [Policies.fatal?_append, hfatal, Option.some_or] at h
      obtain rfl := Option.some.inj h
      exact hhalts _ P _ _ (hx.refused P ws e' hfatal)
    | none =>
      rw [Policies.fatal?_append, hfatal, Option.none_or] at h
      rw [hx.tolerated P ws hfatal]
      exact hf.refused P _ e h

theorem Tracks.meets {x : Policies → Walk α} (hx : Tracks r α x) (st : Expansion) :
    ∃ misses, Meets r x st misses := by
  cases hh : st.halted with
  | none => exact hx.awake st hh
  | some e => exact ⟨[], hx.asleep st e hh⟩

theorem TracksAwake.bind {x : Policies → Walk α} {f : Policies → α → Walk β}
    (hx : TracksAwake r x) (hf : ∀ a, Tracks r β fun P => f P a) :
    TracksAwake r fun P => x P >>= f P where
  halts P st e h := (hf _).halts P _ e (hx.halts P st e h)
  awake st h := by
    obtain ⟨misses, hmisses⟩ := hx.awake st h
    obtain ⟨more, hmore⟩ := (hf ((x .lenient).run st).1).meets ((x .lenient).run st).2
    exact ⟨misses ++ more, hmisses.bind (fun a => (hf a).halts) hmore⟩

theorem Tracks.composes : Composes (Tracks r) where
  pure a := (Plain.pure a).tracks
  bind hx hf := {
    toTracksAwake := hx.toTracksAwake.bind hf
    asleep := fun st e h => (hx.asleep st e h).bind (fun a => (hf a).halts)
      ((hf _).asleep _ e (hx.halts .lenient st e h)) }

theorem TracksAwake.at_state {f : Expansion → Policies → Walk α} (hf : ∀ st, TracksAwake r (f st))
    (hsame : ∀ st ws, f (st.saying ws) = f st) : TracksAwake r fun P => get >>= fun st => f st P where
  halts P st e h := (hf st).halts P st e h
  awake st h := by
    obtain ⟨misses, hmisses⟩ := (hf st).awake st h
    refine ⟨misses, hmisses.missed, fun P ws hnone => ?_, fun P ws e hsome => ?_⟩
    · change (f (st.saying ws) P).run (st.saying ws) = _
      rw [hsame]
      exact hmisses.tolerated P ws hnone
    · change ((f (st.saying ws) P).run (st.saying ws)).2.halted = some e
      rw [hsame]
      exact hmisses.refused P ws e hsome

theorem TracksAwake.unless_halted {x : Policies → Walk α} (a : α) (hx : TracksAwake r x) :
    Tracks r α fun P => do if ← Walk.isHalted then return a else x P where
  halts P st e h := by
    rw [run_unless_halted, h]
    exact h
  awake st h := by
    obtain ⟨misses, hmisses⟩ := hx.awake st h
    refine ⟨misses, hmisses.missed, fun P ws => ?_, fun P ws => ?_⟩
    · rw [run_unless_halted, run_unless_halted, h]
      change st.halted = none at h
      simpa [saying, h] using hmisses.tolerated P ws
    · rw [run_unless_halted]
      simpa [saying, h] using hmisses.refused P ws
  asleep st e h := by
    refine ⟨fun _ h => absurd h List.not_mem_nil, fun P ws _ => ?_, fun _ _ _ h => nomatch h⟩
    rw [run_unless_halted, run_unless_halted]
    simp [saying, h]

end Parts

section Visits

variable (g : ExpansionSetting)

def settled : Except Error (Option Stmt) → Walk (Option Stmt)
  | .ok s => return s
  | .error e => do
    Walk.halt e
    return none

def under (P : Policies) : ExpansionSetting := { g with unresolvedDerive := P.derives }

variable {g}

end Visits

section Walks

variable {g : ExpansionSetting}

theorem TracksAwake.withBeside {r : Registry} {x : Policies → Walk (List Stmt)}
    (hx : TracksAwake r x) : TracksAwake r fun P => withBeside (x P) where
  halts P st e h := hx.halts P { st with beside := .empty } e h
  awake st h := by
    obtain ⟨misses, hmisses⟩ := hx.awake { st with beside := .empty } h
    let restored (out : List Stmt × Expansion) : List Stmt × Expansion :=
      (out.2.beside.before ++ out.1 ++ out.2.beside.after, { out.2 with beside := st.beside })
    refine ⟨misses, hmisses.missed, fun P ws hnone => ?_, fun P ws e hsome => ?_⟩
    · exact congrArg restored (hmisses.tolerated P ws hnone)
    · exact hmisses.refused P ws e hsome

end Walks

end Expansion

end MacroEngine
