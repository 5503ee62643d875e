import MacroEngine.Expansion

/-!
# What a walk has settled

The runs through hooks that a walk records are the evidence for its sites. An expression is settled
by them if it is no bound site, if it ran, or if it stands in a statement that some run put beside.
Runs are never taken back, so what is settled stays settled. `Sound` says of a part of a walk that
it keeps the records in order and that what it answers is settled by them.
-/

namespace MacroEngine

namespace Expansion

def Ran (runs : List HookRun) (d : Declaration) (id : NodeId) : Prop :=
  ∃ site beside, .site d site beside ∈ runs ∧ site.id = id

def besides (runs : List HookRun) : List Stmt :=
  runs.flatMap fun run => run.beside.before ++ run.beside.after

def StandsIn (ss : List Stmt) (e : Expr) : Prop := ∃ s ∈ ss, .expr e ∈ s.items true

theorem Ran.mono {runs more : List HookRun} {d : Declaration} {id : NodeId} (h : Ran runs d id)
    (hsub : runs ⊆ more) : Ran more d id := by
  obtain ⟨site, beside, hmem, hid⟩ := h
  exact ⟨site, beside, hsub hmem, hid⟩

theorem besides_mono {runs more : List HookRun} (hsub : runs ⊆ more) :
    besides runs ⊆ besides more := by
  intro s hs
  obtain ⟨run, hrun, hmem⟩ := List.mem_flatMap.mp hs
  exact List.mem_flatMap.mpr ⟨run, hsub hrun, hmem⟩

theorem StandsIn.mono {ss more : List Stmt} {e : Expr} (h : StandsIn ss e) (hsub : ss ⊆ more) :
    StandsIn more e := by
  obtain ⟨s, hs, he⟩ := h
  exact ⟨s, hsub hs, he⟩

variable (g : ExpansionSetting)

/-- An expression that needs no run, or had one, or stands in a statement that a run put beside. -/
def Settled (runs : List HookRun) (e : Expr) : Prop :=
  governing? g e = none ∨ (∃ d, Ran runs d e.id) ∨ StandsIn (besides runs) e

def AllSettled (runs : List HookRun) (items : List Item) : Prop :=
  ∀ e, .expr e ∈ items → Settled g runs e

/-- The records are in order: a site that is being expanded has run, what waits to be put beside
comes from runs, and runs are those of bound sites. -/
structure Orderly (st : Expansion) : Prop where
  expanding : ∀ id ∈ st.expanding, ∃ d, Ran st.runs d id
  beside : ∀ s ∈ st.beside.before ++ st.beside.after, s ∈ besides st.runs
  governed : ∀ d e b, .site d e b ∈ st.runs → governing? g e = some d

structure Step (st st' : Expansion) : Prop where
  orderly : Orderly g st'
  expanding : st'.expanding = st.expanding
  runs : st.runs ⊆ st'.runs

theorem Step.refl {st : Expansion} (h : Orderly g st) : Step g st st :=
  ⟨h, rfl, fun _ hr => hr⟩

theorem Step.trans {st st₁ st₂ : Expansion} (h : Step g st st₁) (h' : Step g st₁ st₂) :
    Step g st st₂ :=
  ⟨h'.orderly, h'.expanding.trans h.expanding, fun _ hr => h'.runs (h.runs hr)⟩

/-- A part of a walk that takes no error back, and that keeps the records in order if it ends
without one; what it answers then has the property `P` for all runs that there are at its end or
come later. -/
structure Sound {α : Type} (x : Walk α) (P : List HookRun → α → Prop) : Prop where
  awake : ∀ st, (x.run st).2.halted = none → st.halted = none
  step : ∀ st, Orderly g st → (x.run st).2.halted = none → Step g st (x.run st).2
  answer : ∀ st, Orderly g st → (x.run st).2.halted = none →
    ∀ runs, (x.run st).2.runs ⊆ runs → P runs (x.run st).1

variable {g} {α β : Type} {P : List HookRun → α → Prop} {Q : List HookRun → β → Prop}

theorem Sound.pure {a : α} (h : ∀ runs, P runs a) : Sound g (pure a) P where
  awake _ hh := hh
  step _ ho _ := .refl g ho
  answer _ _ _ runs _ := h runs

theorem Sound.bind {x : Walk α} {f : α → Walk β} (hx : Sound g x P)
    (hf : ∀ a, Sound g (f a) fun runs b => P runs a → Q runs b) : Sound g (x >>= f) Q where
  awake st hh := hx.awake st ((hf _).awake _ hh)
  step st ho hh := by
    have hmid := (hf _).awake _ hh
    have hfirst := hx.step st ho hmid
    exact hfirst.trans g ((hf _).step _ hfirst.orderly hh)
  answer st ho hh runs hsub := by
    have hmid := (hf _).awake _ hh
    have hfirst := hx.step st ho hmid
    have hlast := (hf _).step _ hfirst.orderly hh
    exact (hf _).answer _ hfirst.orderly hh runs hsub
      (hx.answer st ho hmid runs fun _ hr => hsub (hlast.runs hr))

theorem Sound.mono {x : Walk α} {P' : List HookRun → α → Prop} (hx : Sound g x P)
    (h : ∀ runs a, P runs a → P' runs a) : Sound g x P' where
  awake := hx.awake
  step := hx.step
  answer st ho hh runs hsub := h _ _ (hx.answer st ho hh runs hsub)

theorem Sound.mapM {γ : Type} {f : γ → Walk α} (hf : ∀ c, Sound g (f c) P) (cs : List γ) :
    Sound g (cs.mapM f) fun runs as => ∀ a ∈ as, P runs a := by
  induction cs with
  | nil => exact .pure fun _ a ha => absurd ha (by simp)
  | cons c cs ih =>
    rw [List.mapM_cons]
    refine (hf c).bind fun a => ih.bind fun as => .pure fun runs has ha b hb => ?_
    rcases List.mem_cons.mp hb with rfl | hb
    · exact ha
    · exact has b hb

section Nodes

variable {runs : List HookRun}

theorem AllSettled.nil : AllSettled g runs [] := fun _ he => absurd he (by simp)

theorem AllSettled.append {items more : List Item} (h : AllSettled g runs items)
    (h' : AllSettled g runs more) : AllSettled g runs (items ++ more) := fun e he =>
  (List.mem_append.mp he).elim (h e) (h' e)

theorem AllSettled.stmt {s : Stmt} {items : List Item} (h : AllSettled g runs items) :
    AllSettled g runs (.stmt s :: items) := fun e he => h e (by simpa using he)

theorem AllSettled.expr {e : Expr} {items : List Item} (he : Settled g runs e)
    (h : AllSettled g runs items) : AllSettled g runs (.expr e :: items) := by
  intro e' he'
  rcases List.mem_cons.mp he' with heq | he'
  · obtain rfl : e' = e := Item.expr.inj heq
    exact he
  · exact h e' he'

theorem AllSettled.exprs {es : List Expr} (h : ∀ e ∈ es, AllSettled g runs (e.items true)) :
    AllSettled g runs (Expr.itemsAll true es) := by
  induction es with
  | nil => exact .nil
  | cons e es ih =>
    exact (h e List.mem_cons_self).append (ih fun e he => h e (List.mem_cons_of_mem _ he))

theorem AllSettled.properties {ps : List (String × Expr)}
    (h : ∀ p ∈ ps, AllSettled g runs (p.2.items true)) :
    AllSettled g runs (Expr.itemsProperties true ps) := by
  induction ps with
  | nil => exact .nil
  | cons p ps ih =>
    exact (h p List.mem_cons_self).append (ih fun p hp => h p (List.mem_cons_of_mem _ hp))

theorem AllSettled.stmts {ss : List Stmt} (h : ∀ s ∈ ss, AllSettled g runs (s.items true)) :
    AllSettled g runs (Stmt.itemsAll true ss) := by
  induction ss with
  | nil => exact .nil
  | cons s ss ih =>
    exact (h s List.mem_cons_self).append (ih fun s hs => h s (List.mem_cons_of_mem _ hs))

theorem AllSettled.members {ms : List Member}
    (h : ∀ m ∈ ms, AllSettled g runs (Member.itemsAll true [m])) :
    AllSettled g runs (Member.itemsAll true ms) := by
  induction ms with
  | nil => exact .nil
  | cons m ms ih =>
    have hm := h m List.mem_cons_self
    have hms := ih fun m hm => h m (List.mem_cons_of_mem _ hm)
    cases m with
    | field s n init =>
      cases init with
      | none => exact hms
      | some e => exact AllSettled.append (by simpa [Member.itemsAll] using hm) hms
    | method s head b => exact AllSettled.append (by simpa [Member.itemsAll] using hm) hms

end Nodes

section Children

variable {f : ChildMap Walk}

structure SoundChildren (g : ExpansionSetting) (f : ChildMap Walk) : Prop where
  onExpr : ∀ e, Sound g (f.onExpr e) fun runs e' => AllSettled g runs (e'.items true)
  onStmt : ∀ s, Sound g (f.onStmt s) fun runs s' => AllSettled g runs (s'.items true)
  onStmts : ∀ ss, Sound g (f.onStmts ss) fun runs ss' => AllSettled g runs (Stmt.itemsAll true ss')

theorem SoundChildren.block (h : SoundChildren g f) (b : Block) :
    Sound g (b.mapChildren f) fun runs b' => AllSettled g runs (b'.items true) :=
  (h.onStmts b.stmts).bind fun _ => .pure fun _ hss => hss

/-- An expression whose children are visited is settled throughout if it is settled itself. -/
theorem SoundChildren.expr (h : SoundChildren g f) (e : Expr) :
    Sound g (e.mapChildren f) fun runs e' =>
      governing? g e = none ∨ (∃ d, Ran runs d e.id) → AllSettled g runs (e'.items true) := by
  cases e with
  | ident | number | str | bool | null | this | template =>
    exact .pure fun _ _ => .expr (.inl rfl) .nil
  | tagged => exact .pure fun _ hself => .expr (hself.imp_right .inl) .nil
  | array s es =>
    exact (Sound.mapM h.onExpr es).bind fun _ => .pure fun _ hes _ => .expr (.inl rfl) (.exprs hes)
  | object s ps =>
    have hps : ∀ p : String × Expr, Sound g (do return (p.1, ← f.onExpr p.2))
        fun runs p' => AllSettled g runs (p'.2.items true) :=
      fun p => (h.onExpr p.2).bind fun _ => .pure fun _ he => he
    exact (Sound.mapM hps ps).bind fun _ => .pure fun _ hps _ =>
      .expr (.inl rfl) (.properties hps)
  | paren s e | member s e | unary s o e | await s e | arrowExpr s p a e =>
    exact (h.onExpr e).bind fun _ => .pure fun _ he _ => .expr (.inl rfl) he
  | call s c as =>
    exact (h.onExpr c).bind fun _ => (Sound.mapM h.onExpr as).bind fun _ =>
      .pure fun _ has hc _ => .expr (.inl rfl) (hc.append (.exprs has))
  | invoke s n as =>
    exact (Sound.mapM h.onExpr as).bind fun _ => .pure fun _ has hself =>
      .expr (hself.imp_right .inl) (.exprs has)
  | binary s o l r =>
    exact (h.onExpr l).bind fun _ => (h.onExpr r).bind fun _ =>
      .pure fun _ hr hl _ => .expr (.inl rfl) (hl.append hr)
  | assign s t v =>
    exact (h.onExpr t).bind fun _ => (h.onExpr v).bind fun _ =>
      .pure fun _ hv ht _ => .expr (.inl rfl) (ht.append hv)
  | arrow s p a b | function s h' b =>
    refine (h.block b).bind fun b' => .pure fun _ hb _ => .expr (.inl rfl) ?_
    rw [bodyItems_true]
    exact hb

theorem SoundChildren.member (h : SoundChildren g f) (m : Member) :
    Sound g (m.mapChildren f) fun runs m' => AllSettled g runs (Member.itemsAll true [m']) := by
  cases m with
  | field s n init =>
    cases init with
    | none => exact .pure fun _ => .nil
    | some e => exact (h.onExpr e).bind fun _ => .pure fun _ he => he.append .nil
  | method s head b =>
    refine (h.block b).bind fun b' => .pure fun _ hb => AllSettled.append ?_ .nil
    rw [bodyItems_true]
    exact hb

/-- A statement whose children are visited is settled throughout. -/
theorem SoundChildren.stmt (h : SoundChildren g f) (s : Stmt) :
    Sound g (s.mapChildren f) fun runs s' => AllSettled g runs (s'.items true) := by
  cases s with
  | importNames | empty => exact .pure fun _ => .stmt .nil
  | function s head b =>
    refine (h.block b).bind fun b' => .pure fun _ hb => .stmt ?_
    rw [bodyItems_true]
    exact hb
  | classDecl s head ms =>
    exact (Sound.mapM h.member ms).bind fun _ => .pure fun _ hms => .stmt (.members hms)
  | binding s k n init v =>
    cases init with
    | none => exact .pure fun _ => .stmt .nil
    | some e => exact (h.onExpr e).bind fun _ => .pure fun _ he => .stmt he
  | ret s value =>
    cases value with
    | none => exact .pure fun _ => .stmt .nil
    | some e => exact (h.onExpr e).bind fun _ => .pure fun _ he => .stmt he
  | expr s e | throwExpr s e => exact (h.onExpr e).bind fun _ => .pure fun _ he => .stmt he
  | ifElse s c t alternative =>
    refine (h.onExpr c).bind fun _ => (h.block t).bind fun _ => ?_
    cases alternative with
    | none => exact .pure fun _ ht hc => .stmt (hc.append ht)
    | some e =>
      exact (h.onStmt e).bind fun _ => .pure fun _ he ht hc => .stmt (hc.append (ht.append he))
  | whileLoop s c b | forOf s k n c b =>
    exact (h.onExpr c).bind fun _ => (h.block b).bind fun _ =>
      .pure fun _ hb hc => .stmt (hc.append hb)
  | block s b | defer s b => exact (h.block b).bind fun _ => .pure fun _ hb => .stmt hb
  | tryFinally s b b' =>
    exact (h.block b).bind fun _ => (h.block b').bind fun _ =>
      .pure fun _ hf hb => .stmt (hb.append hf)

end Children

end Expansion

end MacroEngine
