import MacroEngine.Proofs.Expansion.Journal

/-!
# A walk settles what it visits

Every part of a walk is `Sound`: the work aside, the run of a site or of a class, one statement of
a list with what comes next to it, and so, by induction on the bound of the depth, a visit of any
expression, statement or list. The one delicate part is a site that runs: until its run is noted the
site counts as being expanded although it has not run, so there the records are not in order.
-/

namespace MacroEngine

namespace Expansion

variable {g : ExpansionSetting}

/-- A change to a walk outside the records about sites. -/
def Aside (st st' : Expansion) : Prop :=
  st'.beside = st.beside ∧ st'.expanding = st.expanding ∧ st'.runs = st.runs ∧
    st'.halted = st.halted

theorem Aside.trans {st st₁ st₂ : Expansion} (h : Aside st st₁) (h' : Aside st₁ st₂) :
    Aside st st₂ :=
  ⟨h'.1.trans h.1, h'.2.1.trans h.2.1, h'.2.2.1.trans h.2.2.1, h'.2.2.2.trans h.2.2.2⟩

theorem Orderly.of_aside {st st' : Expansion} (h : Orderly g st) (ha : Aside st st') :
    Orderly g st' := by
  obtain ⟨hbeside, hexpanding, hruns, -⟩ := ha
  refine ⟨?_, ?_, ?_⟩
  · rw [hexpanding, hruns]
    exact h.expanding
  · rw [hbeside, hruns]
    exact h.beside
  · rw [hruns]
    exact h.governed

def KeepsAside {α : Type} (x : Walk α) : Prop := ∀ st, Aside st (x.run st).2

theorem KeepsAside.pure {α : Type} (a : α) : KeepsAside (pure a) := fun _ => ⟨rfl, rfl, rfl, rfl⟩

theorem KeepsAside.bind {α β : Type} {x : Walk α} {f : α → Walk β} (hx : KeepsAside x)
    (hf : ∀ a, KeepsAside (f a)) : KeepsAside (x >>= f) := fun st => (hx st).trans (hf _ _)

theorem KeepsAside.sound {α : Type} {x : Walk α} (h : KeepsAside x) :
    Sound g x fun _ _ => True where
  awake st hh := by rw [← (h st).2.2.2, hh]
  step st ho _ := ⟨ho.of_aside (h st), (h st).2.1, by rw [(h st).2.2.1]; exact fun _ hr => hr⟩
  answer _ _ _ _ _ := trivial

theorem work_aside {α : Type} (x : Work α) : KeepsAside (Walk.work x) :=
  fun _ => ⟨rfl, rfl, rfl, rfl⟩

theorem hooksFor_aside (d : Declaration) : KeepsAside (Walk.hooksFor d) :=
  fun _ => ⟨rfl, rfl, rfl, rfl⟩

theorem reportUnresolved_aside (policy : MissPolicy) (className : String) (names : List String) :
    KeepsAside (reportUnresolved policy className names) := by
  induction names with
  | nil => exact .pure _
  | cons name names ih =>
    unfold reportUnresolved
    split
    · exact .pure _
    · exact KeepsAside.bind (fun _ => ⟨rfl, rfl, rfl, rfl⟩) fun _ => ih

theorem hooksForAll_aside (ds : List Declaration) : KeepsAside (hooksForAll ds) := by
  induction ds with
  | nil => exact .pure _
  | cons d ds ih =>
    refine (hooksFor_aside d).bind fun hooks => ?_
    cases hooks with
    | error e => exact .pure _
    | ok hooks =>
      refine ih.bind fun more => ?_
      cases more with
      | error e => exact .pure _
      | ok more => exact .pure _

/-- Noting a run, which is that of a site under the declaration that governs it. -/
theorem Orderly.record {st : Expansion} (h : Orderly g st) (run : HookRun)
    (hrun : ∀ d e b, run = .site d e b → governing? g e = some d) :
    Orderly g { st with runs := run :: st.runs, beside := st.beside ++ run.beside } := by
  have hsub : st.runs ⊆ run :: st.runs := List.subset_cons_self _ _
  refine ⟨fun id hid => ?_, fun s hs => ?_, fun d e b hmem => ?_⟩
  · obtain ⟨d, hd⟩ := h.expanding id hid
    exact ⟨d, hd.mono hsub⟩
  · have hcases : s ∈ st.beside.before ++ st.beside.after ∨
        s ∈ run.beside.before ++ run.beside.after := by
      have happend : st.beside ++ run.beside = ⟨st.beside.before ++ run.beside.before,
        st.beside.after ++ run.beside.after⟩ := rfl
      simp only [happend, List.mem_append] at hs
      rcases hs with (hs | hs) | (hs | hs) <;> simp [hs]
    rcases hcases with hs | hs
    · exact besides_mono hsub (h.beside s hs)
    · exact List.mem_flatMap.mpr ⟨run, List.mem_cons_self, hs⟩
  · rcases List.mem_cons.mp hmem with heq | hmem
    · exact hrun d e b heq.symm
    · exact h.governed d e b hmem

theorem record_sound (run : HookRun)
    (hrun : ∀ d e b, run = .site d e b → governing? g e = some d) :
    Sound g (Walk.record run) fun _ _ => True where
  awake _ hh := hh
  step _ ho _ := ⟨ho.record run hrun, rfl, List.subset_cons_self _ _⟩
  answer _ _ _ _ _ := trivial

theorem expandClass_sound (s : Stmt) : Sound g (expandClass g s) fun _ _ => True := by
  have hdone : ∀ r : Except Error (Option Stmt), Sound g (pure r) fun _ _ => True :=
    fun _ => .pure fun _ => trivial
  have hweak : ∀ {α : Type} {x : Walk α}, Sound g x (fun _ _ => True) →
      Sound g x fun _ _ => True → True := fun h => h.mono fun _ _ _ _ => trivial
  cases s with
  | classDecl stamp head members =>
    simp only [expandClass]
    refine (reportUnresolved_aside _ _ _).sound.bind fun reported => hweak ?_
    cases reported with
    | error e => exact hdone _
    | ok =>
      cases g.registry.deriveDeclarations head with
      | nil => exact hdone _
      | cons d ds =>
        refine (hooksForAll_aside (d :: ds)).sound.bind fun hooks => hweak ?_
        cases hooks with
        | error e => exact hdone _
        | ok derives =>
          have hget : KeepsAside (get : Walk Expansion) := fun _ => ⟨rfl, rfl, rfl, rfl⟩
          refine hget.sound.bind fun st => hweak ?_
          refine (work_aside _).sound.bind fun out => hweak ?_
          have hpatch : KeepsAside (modify fun st => { st with patcher := out.2.2 } : Walk Unit) :=
            fun _ => ⟨rfl, rfl, rfl, rfl⟩
          refine hpatch.sound.bind fun _ => hweak ?_
          refine Sound.bind (record_sound _ fun _ _ _ h => HookRun.noConfusion h) fun _ => hweak ?_
          exact hdone _
  | _ => exact hdone _

section Run

variable {α β : Type} (st : Expansion)

theorem run_bind (x : Walk α) (f : α → Walk β) :
    (x >>= f).run st = (f (x.run st).1).run (x.run st).2 := rfl

theorem run_pure (a : α) : (pure a : Walk α).run st = (a, st) := rfl

theorem run_get : (get : Walk Expansion).run st = (st, st) := rfl

theorem run_modify (f : Expansion → Expansion) : (modify f : Walk Unit).run st = ((), f st) := rfl

theorem run_isHalted : Walk.isHalted.run st = (st.halted.isSome, st) := rfl

theorem run_work (x : Work α) : (Walk.work x).run st =
    ((x.run st.shop).1, { st with shop := (x.run st.shop).2 }) := rfl

end Run

/-- What running a site does: it fails, or it is noted, with what its hooks put beside it. -/
theorem expandSite_cases (d : Declaration) (e : Expr) (st : Expansion) :
    (∃ e' err st', (expandSite g d e).run st = ((e', .error err), st')) ∨
      ∃ e' b shop hooks patcher, (expandSite g d e).run st = ((e', .ok ()),
        { st with shop, hooks, patcher, runs := .site d e b :: st.runs, beside := st.beside ++ b }) := by
  unfold expandSite
  rw [run_bind]
  cases ((Walk.hooksFor d).run st).1 with
  | error err => exact .inl ⟨_, _, _, rfl⟩
  | ok hooks =>
    simp only [run_bind, run_get, run_work, run_modify]
    split
    · exact .inl ⟨_, _, _, rfl⟩
    · exact .inr ⟨_, _, _, _, _, rfl⟩

/-- A part of a walk that at each state ends in an error or runs as another part does, which gives
its answers a property that is enough there. -/
theorem Sound.at_state {α : Type} {P : List HookRun → α → Prop} {x : Walk α}
    (h : ∀ st, (x.run st).2.halted ≠ none ∨ ∃ y P', x.run st = StateT.run y st ∧ Sound g y P' ∧
      (Orderly g st → ∀ runs a, st.runs ⊆ runs → P' runs a → P runs a)) : Sound g x P where
  awake st hh := by
    rcases h st with hne | ⟨y, P', hrun, hy, -⟩
    · exact absurd hh hne
    · rw [hrun] at hh
      exact hy.awake st hh
  step st ho hh := by
    rcases h st with hne | ⟨y, P', hrun, hy, -⟩
    · exact absurd hh hne
    · rw [hrun] at hh ⊢
      exact hy.step st ho hh
  answer st ho hh runs hsub := by
    rcases h st with hne | ⟨y, P', hrun, hy, hP⟩
    · exact absurd hh hne
    · rw [hrun] at hh hsub ⊢
      have hruns := (hy.step st ho hh).runs
      exact hP ho runs _ (fun _ hr => hsub (hruns hr)) (hy.answer st ho hh runs hsub)

theorem run_ite {α : Type} {c : Prop} [Decidable c] (x y : Walk α) (st : Expansion) :
    (if c then x else y).run st = if c then x.run st else y.run st :=
  apply_ite (fun x : Walk α => x.run st) c x y

theorem Sound.unless_halted {α : Type} {P : List HookRun → α → Prop} {y : Walk α} (a : α)
    (hy : Sound g y P) : Sound g (do if ← Walk.isHalted then return a else y) P := by
  refine .at_state fun st => ?_
  rw [run_bind, run_isHalted, run_ite]
  cases hs : st.halted with
  | none => exact .inr ⟨y, P, rfl, hy, fun _ _ _ _ h => h⟩
  | some err =>
    refine .inl fun hh => ?_
    have hhalted : st.halted = none := hh
    simp [hs] at hhalted

/-- Statements that some run put beside are settled throughout. -/
theorem AllSettled.of_besides {runs : List HookRun} {ss : List Stmt} (h : ss ⊆ besides runs) :
    AllSettled g runs (Stmt.itemsAll true ss) :=
  .stmts fun s hs _ he => .inr (.inr ⟨s, h hs, he⟩)

theorem itemsAll_append (enter : Bool) (ss more : List Stmt) :
    Stmt.itemsAll enter (ss ++ more) = Stmt.itemsAll enter ss ++ Stmt.itemsAll enter more := by
  simp [Stmt.itemsAll_eq_flatMap]

/-- What comes next to a statement is put there when the statement has been visited. -/
theorem withBeside_sound {x : Walk (List Stmt)}
    (hx : Sound g x fun runs ss => AllSettled g runs (Stmt.itemsAll true ss)) :
    Sound g (withBeside x) fun runs ss => AllSettled g runs (Stmt.itemsAll true ss) := by
  have hclear : ∀ {st}, Orderly g st → Orderly g { st with beside := .empty } := fun ho =>
    ⟨ho.expanding, fun s hs => absurd hs (by simp [Beside.empty]), ho.governed⟩
  refine ⟨fun st hh => hx.awake { st with beside := .empty } hh, fun st ho hh => ?_,
    fun st ho hh runs hsub => ?_⟩
  · have hstep := hx.step { st with beside := .empty } (hclear ho) hh
    refine ⟨⟨hstep.orderly.expanding, fun s hs => ?_, hstep.orderly.governed⟩, hstep.expanding,
      hstep.runs⟩
    exact besides_mono hstep.runs (ho.beside s hs)
  · have hstep := hx.step { st with beside := .empty } (hclear ho) hh
    have hvisited := hx.answer { st with beside := .empty } (hclear ho) hh runs hsub
    have hown : ∀ s ∈ _, s ∈ besides runs := fun s hs =>
      besides_mono hsub (hstep.orderly.beside s hs)
    simp only [withBeside, run_bind, run_get, run_modify, run_pure, itemsAll_append]
    refine ((AllSettled.of_besides fun s hs => hown s ?_).append hvisited).append
      (.of_besides fun s hs => hown s ?_)
    · exact List.mem_append_left _ hs
    · exact List.mem_append_right _ hs

theorem Sound.of_halted {α : Type} {P : List HookRun → α → Prop} {x : Walk α}
    (h : ∀ st, (x.run st).2.halted ≠ none) : Sound g x P where
  awake st hh := absurd hh (h st)
  step st _ hh := absurd hh (h st)
  answer st _ hh := absurd hh (h st)

theorem halt_halted {α : Type} (e : Error) (a : α) (st : Expansion) :
    ((do Walk.halt e; return a : Walk α).run st).2.halted ≠ none := by
  change st.halted.or (some e) ≠ none
  cases st.halted <;> simp

theorem derivedEntry_sound (s : Stmt) : Sound g (derivedEntry g s) fun _ _ => True := by
  unfold derivedEntry
  split
  · refine (expandClass_sound s).bind fun out => ?_
    cases out with
    | error e => exact .of_halted (halt_halted e none)
    | ok s => exact .pure fun _ _ => trivial
  · exact .pure fun _ => trivial

theorem expandEntry_sound {visit : Stmt → Walk Stmt}
    (hvisit : ∀ s, Sound g (visit s) fun runs s' => AllSettled g runs (s'.items true)) (s : Stmt) :
    Sound g (expandEntry g visit s) fun runs ss => AllSettled g runs (Stmt.itemsAll true ss) := by
  refine .unless_halted _ (withBeside_sound ((derivedEntry_sound s).bind fun kept => ?_))
  cases kept with
  | none => exact .pure fun _ _ => .nil
  | some s => exact (hvisit s).bind fun _ => .pure fun _ hs _ => hs.append .nil

section Site

variable {visit inside : Expr → Walk Expr}
  (hvisit : ∀ e, Sound g (visit e) fun runs e' => AllSettled g runs (e'.items true))
  (hinside : ∀ e, Sound g (inside e) fun runs e' =>
    governing? g e = none ∨ (∃ d, Ran runs d e.id) → AllSettled g runs (e'.items true))

include hvisit hinside

/-- What stands where a site ran is settled throughout. -/
theorem afterSite_sound (site : NodeId) (out : Expr × Except Error Unit) :
    Sound g (afterSite visit inside site out) fun runs e' =>
      (∃ d, Ran runs d site) → AllSettled g runs (e'.items true) := by
  obtain ⟨e, outcome⟩ := out
  cases outcome with
  | error err => exact .of_halted (halt_halted err e)
  | ok =>
    simp only [afterSite]
    split
    · exact (hvisit e).mono fun _ _ h _ => h
    · rename_i hid
      obtain rfl : e.id = site := by simpa using hid
      exact (hinside e).mono fun _ _ h hran => h (.inr hran)

end Site

def ranState (st : Expansion) (d : Declaration) (e : Expr) (b : Beside) (shop : Workshop)
    (hooks : HookCache) (patcher : Patcher) : Expansion :=
  { st with
    shop, hooks, patcher
    expanding := e.id :: st.expanding
    runs := .site d e b :: st.runs
    beside := st.beside ++ b }

theorem Orderly.ranState {st : Expansion} (h : Orderly g st) {d : Declaration} {e : Expr}
    (hd : governing? g e = some d) (b : Beside) (shop : Workshop) (hooks : HookCache)
    (patcher : Patcher) : Orderly g (ranState st d e b shop hooks patcher) := by
  have hrecord := h.record (.site d e b) fun d' e' b' heq => by
    obtain ⟨rfl, rfl, rfl⟩ := HookRun.site.inj heq
    exact hd
  refine ⟨fun id hid => ?_, hrecord.beside, hrecord.governed⟩
  rcases List.mem_cons.mp hid with rfl | hid
  · exact ⟨d, e, b, List.mem_cons_self, rfl⟩
  · exact hrecord.expanding id hid

theorem expandOpen_cases (visit inside : Expr → Walk Expr) (d : Declaration) (e : Expr)
    (st : Expansion) :
    ((expandOpen g visit inside d e).run st).2.halted ≠ none ∨
      ∃ b shop hooks patcher, ∃ x : Walk Expr, (∃ e', x = afterSite visit inside e.id (e', .ok ())) ∧
        (expandOpen g visit inside d e).run st =
          ((x.run (ranState st d e b shop hooks patcher)).1,
            { (x.run (ranState st d e b shop hooks patcher)).2 with
              expanding := (x.run (ranState st d e b shop hooks patcher)).2.expanding.drop 1 }) := by
  rcases expandSite_cases (g := g) d e { st with expanding := e.id :: st.expanding } with
    ⟨e', err, st', hrun⟩ | ⟨e', b, shop, hooks, patcher, hrun⟩
  · refine .inl ?_
    have hhalted := halt_halted err e' st'
    have hsame : ((expandOpen g visit inside d e).run st).2.halted =
        ((do Walk.halt err; return e' : Walk Expr).run st').2.halted := by
      simp only [expandOpen, run_bind, Walk.enter, run_modify, hrun]
      rfl
    rw [hsame]
    exact hhalted
  · refine .inr ⟨b, shop, hooks, patcher, _, ⟨e', rfl⟩, ?_⟩
    simp only [expandOpen, run_bind, Walk.enter, run_modify, hrun]
    rfl

/-- A site that runs is settled, and so is all that stands there then. -/
theorem expandOpen_sound {visit inside : Expr → Walk Expr}
    (hvisit : ∀ e, Sound g (visit e) fun runs e' => AllSettled g runs (e'.items true))
    (hinside : ∀ e, Sound g (inside e) fun runs e' =>
      governing? g e = none ∨ (∃ d, Ran runs d e.id) → AllSettled g runs (e'.items true))
    {d : Declaration} {e : Expr} (hd : governing? g e = some d) :
    Sound g (expandOpen g visit inside d e) fun runs e' => AllSettled g runs (e'.items true) := by
  have hafter := afterSite_sound hvisit hinside e.id
  refine ⟨fun st hh => ?_, fun st ho hh => ?_, fun st ho hh runs hsub => ?_⟩ <;>
    rcases expandOpen_cases (g := g) visit inside d e st with
      hne | ⟨b, shop, hooks, patcher, x, ⟨e', rfl⟩, hrun⟩
  · exact absurd hh hne
  · rw [hrun] at hh
    exact (hafter _).awake (ranState st d e b shop hooks patcher) hh
  · exact absurd hh hne
  · rw [hrun] at hh ⊢
    have hstep := (hafter _).step _ (ho.ranState hd b shop hooks patcher) hh
    have hdrop : List.drop 1 _ = st.expanding := congrArg (List.drop 1) hstep.expanding
    have hruns : st.runs ⊆ (ranState st d e b shop hooks patcher).runs :=
      List.subset_cons_self _ _
    refine ⟨⟨fun id hid => ?_, hstep.orderly.beside, hstep.orderly.governed⟩, hdrop,
      fun _ hr => hstep.runs (hruns hr)⟩
    exact hstep.orderly.expanding id (List.mem_of_mem_drop hid)
  · exact absurd hh hne
  · rw [hrun] at hh hsub ⊢
    have hstep := (hafter _).step _ (ho.ranState hd b shop hooks patcher) hh
    refine (hafter _).answer _ (ho.ranState hd b shop hooks patcher) hh runs hsub ⟨d, ?_⟩
    exact ⟨e, b, hsub (hstep.runs List.mem_cons_self), rfl⟩

theorem AllSettled.flatten {runs : List HookRun} {sss : List (List Stmt)}
    (h : ∀ ss ∈ sss, AllSettled g runs (Stmt.itemsAll true ss)) :
    AllSettled g runs (Stmt.itemsAll true sss.flatten) := by
  induction sss with
  | nil => exact .nil
  | cons ss sss ih =>
    rw [List.flatten_cons, itemsAll_append]
    exact (h ss List.mem_cons_self).append (ih fun ss hss => h ss (List.mem_cons_of_mem _ hss))

theorem expand_sound (n : Nat) :
    SoundChildren g ⟨expandExpr g n, expandStmt g n, expandStmts g n⟩ := by
  induction n with
  | zero =>
    refine ⟨fun e => ?_, fun s => ?_, fun ss => ?_⟩
    · exact .of_halted (halt_halted _ e)
    · exact .of_halted (halt_halted _ s)
    · exact .of_halted (halt_halted _ ss)
  | succ n ih =>
    refine ⟨fun e => ?_, ih.stmt, fun ss => ?_⟩
    · refine .unless_halted e ?_
      split
      · rename_i hnone
        exact (ih.expr e).mono fun _ _ h => h (.inl hnone)
      · rename_i d hd
        refine .at_state fun st => .inr ?_
        rw [run_bind, run_get, run_ite]
        split
        · rename_i hcontains
          refine ⟨_, _, rfl, ih.expr e, fun ho runs _ hsub h => h (.inr ?_)⟩
          obtain ⟨d', hran⟩ := ho.expanding e.id (by simpa using hcontains)
          exact ⟨d', hran.mono hsub⟩
        · exact ⟨_, _, rfl, expandOpen_sound ih.onExpr ih.expr hd, fun _ _ _ _ h => h⟩
    · exact (Sound.mapM (expandEntry_sound ih.onStmt) ss).bind fun _ =>
        .pure fun _ h => .flatten h

end Expansion

end MacroEngine
