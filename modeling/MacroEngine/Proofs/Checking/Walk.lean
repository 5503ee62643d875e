import MacroEngine.Proofs.Checking.Memory
import MacroEngine.Proofs.Expansion.Ending
import MacroEngine.Proofs.Registry.Consistency

/-!
# Walks side by side

Two walks through the same tree that differ in nothing but what was written and what is in memory go
on side by side: over a table of pure bodies they meet the same sites, run them through the same
transform hooks, build the same nodes, and come to the same tree or the same error.
-/

namespace MacroEngine

namespace Expansion

/-- Two walks differ in nothing but what was written and what is in memory, and what is in memory
transforms some declarations alike. -/
structure Abreast (table : ModuleTable) (ds : List Declaration) (st st' : Expansion) : Prop where
  shop : st.shop.Agrees st'.shop
  hooks : HookCache.Abreast table ds st.hooks st'.hooks
  patcher : st'.patcher = st.patcher
  beside : st'.beside = st.beside
  expanding : st'.expanding = st.expanding
  runs : st'.runs = st.runs
  warnings : st'.warnings = st.warnings
  halted : st'.halted = st.halted

def abreast (table : ModuleTable) (ds : List Declaration) : Lockstep Walk := .state (Abreast table ds)

def Steady (table : ModuleTable) (ds : List Declaration) {α : Type} (x : Walk α) : Prop :=
  (abreast table ds).holds Eq x x

section Steps

variable {table : ModuleTable} {ds : List Declaration} {α β : Type}

theorem Steady.pure (a : α) : Steady table ds (pure a) := (abreast table ds).pure rfl

theorem Steady.bind {x : Walk α} {f : α → Walk β} (hx : Steady table ds x)
    (hf : ∀ a, Steady table ds (f a)) : Steady table ds (x >>= f) := (abreast table ds).bindEq hx hf

theorem Steady.mapM {f : β → Walk α} (hf : ∀ b, Steady table ds (f b)) (bs : List β) :
    Steady table ds (bs.mapM f) := by
  induction bs with
  | nil => exact .pure []
  | cons b bs ih =>
    rw [List.mapM_cons]
    exact (hf b).bind fun a => ih.bind fun as => .pure (a :: as)

theorem Steady.composes : Composes fun α (x : Unit → Walk α) => Steady table ds (x ()) where
  pure a := .pure a
  bind hx hf := hx.bind hf

theorem Steady.change {f : Expansion → Expansion}
    (h : ∀ st st', Abreast table ds st st' → Abreast table ds (f st) (f st')) :
    Steady table ds (modify f : Walk Unit) := fun st st' hst => ⟨rfl, h st st' hst⟩

/-- A part that looks at the walk, but not at what was written nor at what is in memory. -/
theorem Steady.get {f : Expansion → Walk α} (hf : ∀ st, Steady table ds (f st))
    (hsame : ∀ st st', Abreast table ds st st' → f st' = f st) :
    Steady table ds (MonadState.get >>= f) := by
  intro st st' hst
  change ((f st).run st).1 = ((f st').run st').1 ∧
    Abreast table ds ((f st).run st).2 ((f st').run st').2
  rw [hsame st st' hst]
  exact hf st st st' hst

theorem Steady.isHalted : Steady table ds Walk.isHalted :=
  fun _ _ h => ⟨congrArg Option.isSome h.halted.symm, h⟩

theorem Steady.halt (e : Error) : Steady table ds (Walk.halt e) :=
  .change fun _ _ h => { h with halted := by rw [h.halted] }

theorem Steady.record (run : HookRun) : Steady table ds (Walk.record run) :=
  .change fun _ _ h => { h with runs := by rw [h.runs], beside := by rw [h.beside] }

theorem Steady.setPatcher (patcher : Patcher) :
    Steady table ds (modify fun st => { st with patcher } : Walk Unit) :=
  .change fun _ _ h => { h with patcher := rfl }

theorem Steady.enter (site : NodeId) : Steady table ds (Walk.enter site) :=
  .change fun _ _ h => { h with expanding := by rw [h.expanding] }

theorem Steady.leave : Steady table ds Walk.leave :=
  .change fun _ _ h => { h with expanding := by rw [h.expanding] }

theorem Steady.unless_halted {x : Walk α} (a : α) (hx : Steady table ds x) :
    Steady table ds (do if ← Walk.isHalted then return a else x) := by
  refine Steady.isHalted.bind fun halted => ?_
  split
  · exact .pure a
  · exact hx

theorem work_abreast {V : α → β → Prop} {x : Work α} {y : Work β} (h : Work.abreast.holds V x y) :
    (abreast table ds).holds V (Walk.work x) (Walk.work y) := by
  intro st st' hst
  obtain ⟨hab, hshop⟩ := h st.shop st'.shop hst.shop
  exact ⟨hab, { hst with shop := hshop }⟩

theorem reportUnresolved_steady (policy : MissPolicy) (className : String) (names : List String) :
    Steady table ds (reportUnresolved policy className names) := by
  induction names with
  | nil => exact .pure _
  | cons name names ih =>
    unfold reportUnresolved
    split
    · exact .pure _
    · exact Steady.bind (.change fun _ _ h => { h with warnings := by rw [h.warnings] }) fun _ => ih

theorem withBeside_steady {x : Walk (List Stmt)} (hx : Steady table ds x) :
    Steady table ds (withBeside x) := by
  refine .get (fun outer => ?_) fun st st' h => by rw [h.beside]
  refine Steady.bind (.change fun _ _ h => { h with beside := rfl }) fun _ => hx.bind fun visited => ?_
  refine .get (fun own => ?_) fun st st' h => by rw [h.beside]
  exact Steady.bind (.change fun _ _ h => { h with beside := rfl }) fun _ => .pure _

end Steps

section Declared

variable {g : ExpansionSetting} (hg : g.registry.Consistent)

include hg

theorem mem_declarations_of_derives {head : ClassHead} {d : Declaration}
    (hd : d ∈ g.registry.deriveDeclarations head) : d ∈ g.registry.declarations := by
  obtain ⟨name, -, hname⟩ := List.mem_filterMap.mp hd
  exact (hg.derives _ (Table.mem_of_get? hname)).1

theorem mem_declarations_of_governing {e : Expr} {d : Declaration} (hd : governing? g e = some d) :
    d ∈ g.registry.declarations := by
  obtain ⟨⟨kind, name⟩, -, hbound⟩ := Option.bind_eq_some_iff.mp hd
  exact (hg.bindings _ (Table.mem_of_get? hbound)).1

end Declared

section Visits

variable {table : ModuleTable} {g : ExpansionSetting} (htable : table.Pure)
  (hg : g.registry.Consistent)

include htable hg

/-- What a request answers to both walks: hooks that transform alike, or the same error. -/
theorem hooksFor_abreast {d : Declaration} (hd : d ∈ g.registry.declarations) :
    (abreast table g.registry.declarations).holds (ExceptRel Hooks.TransformAlike)
      (Walk.hooksFor d) (Walk.hooksFor d) := by
  intro st st' hst
  obtain ⟨-, hshop, hanswer, hpure⟩ := hst.hooks.pure.hooksFor htable d st.shop
  obtain ⟨-, hshop', hanswer', -⟩ := hst.hooks.pure'.hooksFor htable d st'.shop
  -- Each cache is abreast of what the request makes of it, and they were abreast of each other.
  have hmemory : HookCache.Abreast table g.registry.declarations
      ((st.hooks.hooksFor d).run st.shop).1.2 ((st'.hooks.hooksFor d).run st'.shop).1.2 :=
    ((hst.hooks.pure.abreast_hooksFor htable hg.distinct hd st.shop).symm.trans hst.hooks).trans
      (hst.hooks.pure'.abreast_hooksFor htable hg.distinct hd st'.shop)
  refine ⟨?_, { hst with shop := (hshop.symm.trans hst.shop).trans hshop', hooks := hmemory }⟩
  change ExceptRel Hooks.TransformAlike
    (((st.hooks.hooksFor d).run st.shop).1.1.mapError Error.load)
    (((st'.hooks.hooksFor d).run st'.shop).1.1.mapError Error.load)
  have hsame := hanswer'.trans ((hst.hooks.same d hd).trans hanswer.symm)
  generalize ((st.hooks.hooksFor d).run st.shop).1.1 = answer at hpure hsame
  generalize ((st'.hooks.hooksFor d).run st'.shop).1.1 = answer' at hsame
  cases answer with
  | error e =>
    cases answer' with
    | error e' =>
      obtain rfl := Except.error.inj hsame
      exact .error _
    | ok hooks' => cases hsame
  | ok hooks =>
    cases answer' with
    | error e' => cases hsame
    | ok hooks' => exact .ok ⟨Except.ok.inj hsame, (hpure hooks rfl).transform⟩

theorem hooksForAll_abreast {ds : List Declaration} (hds : ∀ d ∈ ds, d ∈ g.registry.declarations) :
    (abreast table g.registry.declarations).holds (ExceptRel (List.Forall₂ DeriveAbreast))
      (hooksForAll ds) (hooksForAll ds) := by
  let l := abreast table g.registry.declarations
  induction ds with
  | nil => exact l.pure (.ok .nil)
  | cons d ds ih =>
    obtain ⟨hd, hds⟩ := List.forall_mem_cons.mp hds
    refine l.bind (hooksFor_abreast htable hg hd) fun answer answer' hanswer => ?_
    cases hanswer with
    | error e => exact l.pure (.error e)
    | ok hhooks =>
      refine l.bind (ih hds) fun more more' hmore => ?_
      cases hmore with
      | error e => exact l.pure (.error e)
      | ok hmore => exact l.pure (.ok (.cons ⟨rfl, hhooks⟩ hmore))

theorem expandClass_steady (s : Stmt) : Steady table g.registry.declarations (expandClass g s) := by
  cases s with
  | classDecl stamp head ms =>
    refine (reportUnresolved_steady _ _ _).bind fun reported => ?_
    cases reported with
    | error e => exact .pure _
    | ok =>
      dsimp only
      cases hderives : g.registry.deriveDeclarations head with
      | nil => exact .pure _
      | cons d ds =>
        have hds : ∀ d' ∈ d :: ds, d' ∈ g.registry.declarations := fun d' hd' =>
          mem_declarations_of_derives hg (hderives ▸ hd')
        refine (abreast _ _).bind (hooksForAll_abreast htable hg hds) fun derives derives' h => ?_
        cases h with
        | error e => exact Steady.pure _
        | ok hderives =>
          refine (abreast _ _).bind Lockstep.get fun st st' hst => ?_
          rw [hst.patcher]
          refine (abreast _ _).bindEq (work_abreast (transformClass_abreast _ hderives _ _)) ?_
          exact fun out => (Steady.setPatcher _).bind fun _ => (Steady.record _).bind fun _ => .pure _
  | _ => exact .pure _

theorem expandSite_steady {d : Declaration} (hd : d ∈ g.registry.declarations) (site : Expr) :
    Steady table g.registry.declarations (expandSite g d site) := by
  refine (abreast _ _).bind (hooksFor_abreast htable hg hd) fun hooks hooks' h => ?_
  cases h with
  | error e => exact Steady.pure _
  | ok hhooks =>
    refine (abreast _ _).bind Lockstep.get fun st st' hst => ?_
    rw [hst.patcher]
    refine (abreast _ _).bindEq (work_abreast (transformSite_abreast _ _ hhooks _ _)) fun out => ?_
    refine (Steady.setPatcher _).bind fun _ => ?_
    obtain ⟨e | ⟨e, beside⟩, patcher⟩ := out
    · exact .pure _
    · exact (Steady.record _).bind fun _ => .pure _

theorem derivedEntry_steady (s : Stmt) : Steady table g.registry.declarations (derivedEntry g s) := by
  unfold derivedEntry
  split
  · refine (expandClass_steady htable hg s).bind fun out => ?_
    cases out with
    | error e => exact (Steady.halt e).bind fun _ => .pure none
    | ok s => exact .pure s
  · exact .pure _

theorem expandEntry_steady {visit : Stmt → Walk Stmt}
    (hvisit : ∀ s, Steady table g.registry.declarations (visit s)) (s : Stmt) :
    Steady table g.registry.declarations (expandEntry g visit s) := by
  refine .unless_halted [s] (withBeside_steady ((derivedEntry_steady htable hg s).bind fun kept => ?_))
  cases kept with
  | none => exact .pure []
  | some s => exact (hvisit s).bind fun s => .pure [s]

theorem expandOpen_steady {visit inside : Expr → Walk Expr}
    (hvisit : ∀ e, Steady table g.registry.declarations (visit e))
    (hinside : ∀ e, Steady table g.registry.declarations (inside e)) {d : Declaration}
    (hd : d ∈ g.registry.declarations) (e : Expr) :
    Steady table g.registry.declarations (expandOpen g visit inside d e) := by
  refine (Steady.enter e.id).bind fun _ => Steady.bind ?_ fun out => Steady.leave.bind fun _ => .pure out
  refine (expandSite_steady htable hg hd e).bind fun out => ?_
  obtain ⟨e', err | ok⟩ := out
  · exact (Steady.halt err).bind fun _ => .pure e'
  · dsimp only [afterSite]
    split
    · exact hvisit e'
    · exact hinside e'

theorem expand_steady (n : Nat) :
    (∀ e, Steady table g.registry.declarations (expandExpr g n e)) ∧
      (∀ s, Steady table g.registry.declarations (expandStmt g n s)) ∧
      ∀ ss, Steady table g.registry.declarations (expandStmts g n ss) := by
  induction n with
  | zero =>
    have hhalt {α : Type} (a : α) : Steady table g.registry.declarations (do
        Walk.halt (.endlessExpansion g.file.path)
        return a) := (Steady.halt _).bind fun _ => .pure a
    exact ⟨fun e => hhalt e, fun s => hhalt s, fun ss => hhalt ss⟩
  | succ n ih =>
    have hvisits (size : Nat) : Visits
        (fun α (x : Unit → Walk α) => Steady table g.registry.declarations (x ()))
        (fun _ => children g n) size :=
      ⟨fun e _ => ih.1 e, fun s _ => ih.2.1 s, fun ss _ => ih.2.2 ss⟩
    have hinside (e : Expr) := Steady.composes.expr (hvisits (sizeOf e))
    refine ⟨fun e => .unless_halted e ?_, fun s => Steady.composes.stmt (hvisits _), fun ss => ?_⟩
    · cases hd : governing? g e with
      | none => exact hinside e
      | some d =>
        refine .get (fun st => ?_) fun st st' h => by rw [h.expanding]
        split
        · exact hinside e
        · exact expandOpen_steady htable hg ih.1 hinside (mem_declarations_of_governing hg hd) e
    · exact (Steady.mapM (expandEntry_steady htable hg ih.2.1) ss).bind fun _ => .pure _

end Visits

end Expansion

end MacroEngine
