import MacroEngine.Proofs.Expansion.Ending
import MacroEngine.Proofs.Loading.Idle
import MacroEngine.Proofs.Parsed.Nodes

/-!
# Walks that change nothing

If no hook transforms anything, a walk through a tree answers with the same tree, and nothing is
left of it but the hooks that were loaded, the warnings, and the counts of sites and classes that
ran. Each site that a declaration governs runs exactly once, and so does each class with a derive
name that means something: `Passes` counts them along the nodes that a part of the walk visits. That
no site is skipped rests on the identities of the nodes being different, since a site that is being
expanded does not run again inside itself.
-/

namespace MacroEngine

def Item.isDerived (registry : Registry) : Item → Bool
  | .stmt (.classDecl _ head _) => head.derives.any fun name => (registry.derive? name).isSome
  | _ => false

theorem Registry.deriveDeclarations_eq_nil_iff (r : Registry) (stamp : Stamp) (head : ClassHead)
    (ms : List Member) : r.deriveDeclarations head = [] ↔
      Item.isDerived r (.stmt (.classDecl stamp head ms)) = false := by
  simp [deriveDeclarations, Item.isDerived]

/-- A statement that may stand after `else` is no class. -/
theorem Stmt.not_derived_of_isAlternative {s : Stmt} (h : s.isAlternative = true)
    (registry : Registry) : Item.isDerived registry (.stmt s) = false := by
  cases s with
  | classDecl => cases h
  | _ => rfl

theorem length_le_flatMap {α β : Type} {as : List α} {a : α} (h : a ∈ as) (f : α → List β) :
    (f a).length ≤ (as.flatMap f).length :=
  (List.sublist_flatten_of_mem (List.mem_map_of_mem h)).length_le

namespace Expansion

variable (g : ExpansionSetting) (D : Declaration → Prop)

def isGoverned : Item → Bool
  | .expr e => (governing? g e).isSome
  | .stmt _ => false

/-- What would happen at the node is up to declarations in `D`, and derive names that mean nothing
are no error. -/
def Uneventful : Item → Prop
  | .expr e => ∀ d, governing? g e = some d → D d
  | .stmt (.classDecl _ head _) => (∀ d ∈ g.registry.deriveDeclarations head, D d) ∧
      (g.unresolvedDerive ≠ .fail ∨ g.registry.unresolvedDerives head = [])
  | .stmt _ => True

/-- Regular nodes with nothing to do, each of its own identity, none of them being expanded. -/
structure Passable (st : Expansion) (items : List Item) : Prop where
  uneventful : ∀ i ∈ items, Uneventful g D i
  regular : ∀ i ∈ items, i.Regular
  nodup : (items.map Item.id).Nodup
  closed : ∀ i ∈ items, i.id ∉ st.expanding

/-- No error has occurred, and the declarations in `D` transform nothing. -/
structure Calm (st : Expansion) : Prop where
  halted : st.halted = none
  reached : ∃ table, Loader.Reached table st.hooks.loader
  idle : ∀ d, D d → st.hooks.Idle d

/-- What a part of a walk through nodes with nothing to do leaves behind. -/
structure Passed (st st' : Expansion) (items : List Item) : Prop where
  calm : Calm D st'
  patcher : st'.patcher = st.patcher
  beside : st'.beside = st.beside
  expanding : st'.expanding = st.expanding
  sites : st'.siteCount = st.siteCount + items.countP (isGoverned g)
  classes : st'.classCount = st.classCount + items.countP (Item.isDerived g.registry)

/-- A part of a walk answers `a` and visits `items` without changing anything. -/
def Passes {α : Type} (x : Walk α) (a : α) (items : List Item) : Prop :=
  ∀ st, Calm D st → Passable g D st items → (x.run st).1 = a ∧ Passed g D st (x.run st).2 items

variable {g D} {st st' st₁ : Expansion} {items more : List Item}

theorem Passable.left (h : Passable g D st (items ++ more)) : Passable g D st items where
  uneventful i hi := h.uneventful i (List.mem_append_left _ hi)
  regular i hi := h.regular i (List.mem_append_left _ hi)
  nodup := by
    have hnodup := h.nodup
    rw [List.map_append] at hnodup
    exact (List.nodup_append.mp hnodup).1
  closed i hi := h.closed i (List.mem_append_left _ hi)

theorem Passable.right (h : Passable g D st (items ++ more)) (heq : st'.expanding = st.expanding) :
    Passable g D st' more where
  uneventful i hi := h.uneventful i (List.mem_append_right _ hi)
  regular i hi := h.regular i (List.mem_append_right _ hi)
  nodup := by
    have hnodup := h.nodup
    rw [List.map_append] at hnodup
    exact (List.nodup_append.mp hnodup).2.1
  closed i hi := heq ▸ h.closed i (List.mem_append_right _ hi)

theorem Passable.behind {i : Item} (h : Passable g D st (i :: items))
    (heq : st'.expanding = st.expanding) : Passable g D st' items :=
  right (List.singleton_append ▸ h : Passable g D st ([i] ++ items)) heq

/-- Inside a site that is being expanded no node is being expanded. -/
theorem Passable.inside {i : Item} (h : Passable g D st (i :: items))
    (heq : st'.expanding = i.id :: st.expanding) : Passable g D st' items where
  uneventful j hj := h.uneventful j (List.mem_cons_of_mem _ hj)
  regular j hj := h.regular j (List.mem_cons_of_mem _ hj)
  nodup := (List.nodup_cons.mp h.nodup).2
  closed j hj hmem := by
    rw [heq] at hmem
    rcases List.mem_cons.mp hmem with hid | hmem
    · exact (List.nodup_cons.mp h.nodup).1 (hid ▸ List.mem_map_of_mem hj)
    · exact h.closed j (List.mem_cons_of_mem _ hj) hmem

theorem Passed.refl (h : Calm D st) : Passed g D st st [] := ⟨h, rfl, rfl, rfl, rfl, rfl⟩

theorem Passed.trans (h : Passed g D st st₁ items) (h' : Passed g D st₁ st' more) :
    Passed g D st st' (items ++ more) where
  calm := h'.calm
  patcher := h'.patcher.trans h.patcher
  beside := h'.beside.trans h.beside
  expanding := h'.expanding.trans h.expanding
  sites := by rw [h'.sites, h.sites, List.countP_append, Nat.add_assoc]
  classes := by rw [h'.classes, h.classes, List.countP_append, Nat.add_assoc]

namespace Passes

variable {α β γ : Type} {x : Walk α} {a : α} {f : α → Walk β} {b : β}

theorem pure (a : α) : Passes g D (Pure.pure a) a [] := fun _ hst _ => ⟨rfl, .refl hst⟩

theorem bind (hx : Passes g D x a items) (hf : Passes g D (f a) b more) :
    Passes g D (x >>= f) b (items ++ more) := by
  intro st hst hitems
  obtain ⟨ha, hpassed⟩ := hx st hst hitems.left
  rw [run_bind, ha]
  obtain ⟨hb, hpassed'⟩ := hf _ hpassed.calm (hitems.right hpassed.expanding)
  exact ⟨hb, hpassed.trans hpassed'⟩

theorem map (k : α → β) (hx : Passes g D x a items) :
    Passes g D (x >>= fun a => Pure.pure (k a)) (k a) items :=
  List.append_nil items ▸ hx.bind (pure (k a))

theorem map₂ {y : Walk β} {b : β} (k : α → β → γ) (hx : Passes g D x a items)
    (hy : Passes g D y b more) :
    Passes g D (x >>= fun a => y >>= fun b => Pure.pure (k a b)) (k a b) (items ++ more) :=
  hx.bind (hy.map (k a))

theorem mapM {f : γ → Walk α} {k : γ → α} {itemsOf : γ → List Item} {cs : List γ}
    (h : ∀ c ∈ cs, Passes g D (f c) (k c) (itemsOf c)) :
    Passes g D (cs.mapM f) (cs.map k) (cs.flatMap itemsOf) := by
  induction cs with
  | nil => exact pure []
  | cons c cs ih =>
    rw [List.mapM_cons]
    exact (h c List.mem_cons_self).map₂ List.cons
      (ih fun c' hc' => h c' (List.mem_cons_of_mem _ hc'))

theorem each {f : γ → Walk γ} {itemsOf : γ → List Item} {cs : List γ}
    (h : ∀ c, (itemsOf c).length ≤ (cs.flatMap itemsOf).length → Passes g D (f c) c (itemsOf c)) :
    Passes g D (cs.mapM f) cs (cs.flatMap itemsOf) := by
  have hall : Passes g D (cs.mapM f) (cs.map id) (cs.flatMap itemsOf) :=
    .mapM fun c hc => h c (length_le_flatMap hc itemsOf)
  rwa [List.map_id] at hall

/-- What is known of the nodes may be used of the part that visits them. -/
theorem assuming {p : Prop} (hp : ∀ st, Passable g D st items → p)
    (h : p → Passes g D x a items) : Passes g D x a items :=
  fun st hst hitems => h (hp st hitems) st hst hitems

/-- A node at which nothing runs. -/
theorem plain {i : Item} (hg : isGoverned g i = false) (hd : Item.isDerived g.registry i = false)
    (h : Passes g D x a items) : Passes g D x a (i :: items) := by
  intro st hst hitems
  obtain ⟨ha, hpassed⟩ := h st hst (hitems.behind rfl)
  exact ⟨ha, { hpassed with
    sites := hpassed.sites.trans (by simp [hg])
    classes := hpassed.classes.trans (by simp [hd]) }⟩

theorem unless_halted (a' : α) (h : Passes g D x a items) :
    Passes g D (do if ← Walk.isHalted then return a' else x) a items := by
  intro st hst hitems
  rw [run_unless_halted, hst.halted]
  exact h st hst hitems

end Passes

section Runs

/-- A run through hooks that put nothing beside, at a node where a site or a class runs. -/
theorem Passed.record {run : HookRun} {i : Item} (h : Passed g D st st' [])
    (hbeside : run.beside = .empty) (hsite : isGoverned g i = run.isSite)
    (hclass : i.isDerived g.registry = !run.isSite) :
    Passed g D st { st' with runs := run :: st'.runs, beside := st'.beside ++ run.beside } [i] where
  calm := ⟨h.calm.halted, h.calm.reached, h.calm.idle⟩
  patcher := h.patcher
  beside := by rw [hbeside, Beside.append_empty, h.beside]
  expanding := h.expanding
  sites := by
    have hcount : st'.siteCount = st.siteCount := h.sites
    rw [← hcount, siteCount, siteCount, List.countP_cons, List.countP_singleton, hsite]
  classes := by
    have hcount : st'.classCount = st.classCount := h.classes
    rw [← hcount, classCount, classCount, List.countP_cons, List.countP_singleton, hclass]

/-- An idle declaration has hooks, none of which transforms; asking for them changes nothing. -/
theorem hooksFor_passed (hst : Calm D st) {d : Declaration} (hd : D d) :
    ∃ hooks, ((Walk.hooksFor d).run st).1 = .ok hooks ∧ hooks.transform = [] ∧
      Passed g D st ((Walk.hooksFor d).run st).2 [] := by
  obtain ⟨table, hreached⟩ := hst.reached
  obtain ⟨hooks, hok, htransform⟩ := hst.idle d hd st.shop
  refine ⟨hooks, ?_, htransform, ⟨⟨hst.halted, ⟨table, ?_⟩, fun d' hd' => ?_⟩, rfl, rfl, rfl, rfl, rfl⟩⟩
  · change ((st.hooks.hooksFor d).run st.shop).1.1.mapError Error.load = _
    rw [hok]
    rfl
  · exact HookCache.reached_hooksFor hreached st.shop
  · exact (hst.idle d' hd').hooksFor hreached (hst.idle d hd) st.shop

theorem hooksForAll_passed {ds : List Declaration} (hst : Calm D st) (hds : ∀ d ∈ ds, D d) :
    ∃ derives, ((hooksForAll ds).run st).1 = .ok derives ∧
      (∀ p ∈ derives, p.2.transform = []) ∧ Passed g D st ((hooksForAll ds).run st).2 [] := by
  induction ds generalizing st with
  | nil => exact ⟨[], rfl, fun _ hp => absurd hp List.not_mem_nil, .refl hst⟩
  | cons d ds ih =>
    obtain ⟨hooks, hok, htransform, hpassed⟩ := hooksFor_passed (g := g) hst (hds d List.mem_cons_self)
    obtain ⟨more, hmore, htransforms, hpassed'⟩ :=
      ih hpassed.calm fun d' hd' => hds d' (List.mem_cons_of_mem _ hd')
    rw [hooksForAll, run_bind, hok]
    simp only [run_bind, hmore]
    refine ⟨_, rfl, fun p hp => ?_, hpassed.trans hpassed'⟩
    rcases List.mem_cons.mp hp with rfl | hp
    · exact htransform
    · exact htransforms p hp

/-- Derive names that mean nothing leave warnings at most. -/
theorem reportUnresolved_passes {policy : MissPolicy} {className : String} {names : List String}
    (h : policy ≠ .fail ∨ names = []) :
    Passes g D (reportUnresolved policy className names) (.ok ()) [] := by
  induction names with
  | nil => exact .pure _
  | cons name names ih =>
    have hpolicy : policy ≠ .fail := h.resolve_right (List.cons_ne_nil _ _)
    obtain ⟨warnings, hwarnings⟩ :
        ∃ warnings, policy.apply (.unresolvedDerive className name) = .ok warnings := by
      cases policy with
      | ignore => exact ⟨_, rfl⟩
      | warn => exact ⟨_, rfl⟩
      | fail => exact absurd rfl hpolicy
    rw [reportUnresolved, hwarnings]
    have hwarn : Passes g D
        (modify fun st => { st with warnings := st.warnings ++ warnings } : Walk Unit) () [] :=
      fun st hst _ => ⟨rfl, ⟨hst.halted, hst.reached, hst.idle⟩, rfl, rfl, rfl, rfl, rfl⟩
    exact hwarn.bind (ih (.inl hpolicy))

theorem run_throughDerives {file : FileView} {derives : List (Declaration × Hooks)} {s : Stmt}
    {b : Beside} {p : Patcher} (h : ∀ d ∈ derives, d.2.transform = []) (w : Workshop) :
    (Folded.throughDerives file derives ⟨.stmt s, b, p⟩).run w = (⟨.stmt s, b, p⟩, w) := by
  induction derives with
  | nil => rfl
  | cons d derives ih =>
    obtain ⟨d, hooks⟩ := d
    have hhooks : hooks.transform = [] := h _ List.mem_cons_self
    rw [Folded.throughDerives, hhooks]
    exact ih fun d' hd' => h d' (List.mem_cons_of_mem _ hd')

theorem run_transformClass {file : FileView} {derives : List (Declaration × Hooks)} {s : Stmt}
    {p : Patcher} (h : ∀ d ∈ derives, d.2.transform = []) (w : Workshop) :
    (transformClass file derives s p).run w = ((some s, .empty, p), w) := by
  rw [transformClass, StateT.run_bind, run_throughDerives h]
  rfl

theorem run_transformSite {file : FileView} {d : Declaration} {hooks : Hooks} {e : Expr}
    {p : Patcher} (h : hooks.transform = []) (w : Workshop) :
    (transformSite file d hooks e p).run w = ((.ok (e, .empty), p), w) := by
  rw [transformSite, h]
  rfl

/-- A class whose derives transform nothing stays as it is, and counts if one of them means
something. -/
theorem expandClass_passes (s : Stmt) :
    Passes g D (expandClass g s) (.ok (some s)) [.stmt s] := by
  have hsame (h : Item.isDerived g.registry (.stmt s) = false) :
      Passes g D (Pure.pure (.ok (some s)) : Walk (Except Error (Option Stmt))) (.ok (some s))
        [.stmt s] := .plain rfl h (.pure _)
  cases s with
  | classDecl stamp head ms =>
    refine .assuming (fun _ hitems => hitems.uneventful _ List.mem_cons_self) fun hevent => ?_
    obtain ⟨hderives, hpolicy⟩ := hevent
    have hreport : Passes g D
        (reportUnresolved g.unresolvedDerive head.name (g.registry.unresolvedDerives head)) (.ok ()) [] :=
      reportUnresolved_passes hpolicy
    rw [← List.nil_append [Item.stmt _]]
    refine hreport.bind ?_
    dsimp only
    cases hds : g.registry.deriveDeclarations head with
    | nil => exact hsame ((g.registry.deriveDeclarations_eq_nil_iff stamp head ms).mp hds)
    | cons d ds =>
      have hderived : Item.isDerived g.registry (.stmt (.classDecl stamp head ms)) = true := by
        refine Bool.of_not_eq_false fun hfalse => ?_
        rw [(g.registry.deriveDeclarations_eq_nil_iff stamp head ms).mpr hfalse] at hds
        cases hds
      intro st hst _
      obtain ⟨derives, hok, htransform, hpassed⟩ :=
        hooksForAll_passed (g := g) hst (hds ▸ hderives)
      simp only [run_bind, hok]
      generalize ((hooksForAll (d :: ds)).run st).2 = st₁ at hpassed
      simp only [run_get, run_work, run_transformClass htransform]
      exact ⟨rfl, hpassed.record rfl rfl hderived⟩
  | _ => exact hsame rfl

theorem derivedEntry_passes (s : Stmt) : Passes g D (derivedEntry g s) (some s) [.stmt s] := by
  unfold derivedEntry
  split
  · rw [← List.append_nil [Item.stmt s]]
    exact (expandClass_passes s).bind (.pure _)
  · rename_i hnot
    refine .plain rfl ?_ (.pure _)
    cases s with
    | classDecl _ head _ =>
      have hnone : head.derives = [] := by simpa [Stmt.isDerivedClass] using hnot
      simp [Item.isDerived, hnone]
    | _ => rfl

theorem withBeside_passes {x : Walk (List Stmt)} {ss : List Stmt} (h : Passes g D x ss items) :
    Passes g D (withBeside x) ss items := by
  intro st hst hitems
  obtain ⟨hss, hpassed⟩ := h { st with beside := .empty } ⟨hst.halted, hst.reached, hst.idle⟩
    ⟨hitems.uneventful, hitems.regular, hitems.nodup, hitems.closed⟩
  simp only [withBeside, run_bind, run_get, run_modify, run_pure, hss, hpassed.beside]
  refine ⟨by simp [Beside.empty], ⟨?_, hpassed.patcher, rfl, hpassed.expanding, hpassed.sites,
    hpassed.classes⟩⟩
  exact ⟨hpassed.calm.halted, hpassed.calm.reached, hpassed.calm.idle⟩

theorem expandEntry_passes {visit : Stmt → Walk Stmt} {s : Stmt}
    (hvisit : Passes g D (visit s) s (s.items true).tail) :
    Passes g D (expandEntry g visit s) [s] (s.items true) := by
  refine .unless_halted [s] (withBeside_passes ?_)
  rw [Stmt.items_eq_cons true s]
  exact (derivedEntry_passes s).bind (hvisit.map fun s => [s])

/-- A site that an idle declaration governs stays as it is, and counts. -/
theorem expandSite_passed (hst : Calm D st) {d : Declaration} {e : Expr}
    (hd : governing? g e = some d) (hD : D d) :
    ((expandSite g d e).run st).1 = (e, .ok ()) ∧
      Passed g D st ((expandSite g d e).run st).2 [.expr e] := by
  obtain ⟨hooks, hok, htransform, hpassed⟩ := hooksFor_passed (g := g) hst hD
  simp only [expandSite, run_bind, hok]
  generalize ((Walk.hooksFor d).run st).2 = st₁ at hpassed
  simp only [run_get, run_work, run_transformSite htransform]
  have hgoverned : isGoverned g (.expr e) = true := by simp [isGoverned, hd]
  exact ⟨rfl, hpassed.record rfl hgoverned rfl⟩

theorem expandOpen_passes {visit inside : Expr → Walk Expr} {d : Declaration} {e : Expr}
    (hd : governing? g e = some d) (hinside : Passes g D (inside e) e items) :
    Passes g D (expandOpen g visit inside d e) e (.expr e :: items) := by
  intro st hst hitems
  have hD : D d := hitems.uneventful _ List.mem_cons_self d hd
  have hentered : Calm D { st with expanding := e.id :: st.expanding } :=
    ⟨hst.halted, hst.reached, hst.idle⟩
  obtain ⟨hanswer, hpassed⟩ := expandSite_passed hentered hd hD
  simp only [expandOpen, Walk.enter, Walk.leave, run_bind, run_modify, run_pure, hanswer, afterSite,
    ne_eq, not_true_eq_false, if_false]
  obtain ⟨he, hpassed'⟩ := hinside _ hpassed.calm (hitems.inside hpassed.expanding)
  have hall := hpassed.trans hpassed'
  exact ⟨he, ⟨hall.calm.halted, hall.calm.reached, hall.calm.idle⟩, hall.patcher, hall.beside,
    by rw [hall.expanding]; rfl, hall.sites, hall.classes⟩

end Runs

section Children

variable (g D)

/-- What visits children changes nothing in those of at most `n` levels; a list takes one more level
than the statements in it. -/
structure Passing (f : ChildMap Walk) (n : Nat) : Prop where
  onExpr : ∀ e, 2 * (e.items true).length ≤ n → Passes g D (f.onExpr e) e (e.items true)
  onStmt : ∀ s, Item.Regular (.stmt s) → 2 * (s.items true).length ≤ n →
    Passes g D (f.onStmt s) s (s.items true).tail
  onStmts : ∀ ss, 2 * (Stmt.itemsAll true ss).length + 1 ≤ n →
    Passes g D (f.onStmts ss) ss (Stmt.itemsAll true ss)

variable {g D} {f : ChildMap Walk} {n : Nat}

namespace Passing

variable (h : Passing g D f n)

include h

theorem block (b : Block) (hb : 2 * (b.items true).length + 1 ≤ n) :
    Passes g D (b.mapChildren f) b (b.items true) := by
  obtain ⟨s, ss⟩ := b
  exact (h.onStmts ss hb).map (Block.mk s)

theorem body (b : Block) (hb : 2 * (b.bodyItems true).length + 1 ≤ n) :
    Passes g D (b.mapChildren f) b (b.bodyItems true) := by
  rw [bodyItems_true] at hb ⊢
  exact h.block b hb

theorem exprs (es : List Expr) (hes : 2 * (Expr.itemsAll true es).length ≤ n) :
    Passes g D (es.mapM f.onExpr) es (Expr.itemsAll true es) := by
  rw [Expr.itemsAll_eq_flatMap] at hes ⊢
  exact .each fun e he => h.onExpr e (by omega)

theorem properties (ps : List (String × Expr))
    (hps : 2 * (Expr.itemsProperties true ps).length ≤ n) :
    Passes g D (ps.mapM fun p => return (p.1, ← f.onExpr p.2)) ps
      (Expr.itemsProperties true ps) := by
  rw [Expr.itemsProperties_eq_flatMap] at hps ⊢
  exact .each fun p hp => (h.onExpr p.2 (by omega)).map (Prod.mk p.1)

/-- What stands after `else` is no class, so nothing runs there but what is inside. -/
theorem alternative (s : Stmt) (halternative : s.isAlternative = true)
    (hs : 2 * (s.items true).length ≤ n) : Passes g D (f.onStmt s) s (s.items true) := by
  have htail := fun hregular => h.onStmt s hregular hs
  rw [Stmt.items_eq_cons true s]
  exact .assuming (fun _ hitems => hitems.regular _ List.mem_cons_self) fun hregular =>
    (htail hregular).plain rfl (s.not_derived_of_isAlternative halternative g.registry)

theorem expr (e : Expr) (he : 2 * (e.items true).tail.length + 1 ≤ n) :
    Passes g D (e.mapChildren f) e (e.items true).tail := by
  cases e with
  | ident | number | str | bool | null | this | template | tagged => exact .pure _
  | array s es => exact (h.exprs es (by simp [Expr.items] at he; omega)).map (Expr.array s)
  | object s ps => exact (h.properties ps (by simp [Expr.items] at he; omega)).map (Expr.object s)
  | paren s e => exact (h.onExpr e (by simp [Expr.items] at he; omega)).map (Expr.paren s)
  | member s e p =>
    exact (h.onExpr e (by simp [Expr.items] at he; omega)).map (Expr.member s · p)
  | unary s o e => exact (h.onExpr e (by simp [Expr.items] at he; omega)).map (Expr.unary s o)
  | await s e => exact (h.onExpr e (by simp [Expr.items] at he; omega)).map (Expr.await s)
  | arrowExpr s p a e =>
    exact (h.onExpr e (by simp [Expr.items] at he; omega)).map (Expr.arrowExpr s p a)
  | invoke s n as => exact (h.exprs as (by simp [Expr.items] at he; omega)).map (Expr.invoke s n)
  | call s c as =>
    exact (h.onExpr c (by simp [Expr.items] at he; omega)).map₂ (Expr.call s)
      (h.exprs as (by simp [Expr.items] at he; omega))
  | binary s o a b =>
    exact (h.onExpr a (by simp [Expr.items] at he; omega)).map₂ (Expr.binary s o)
      (h.onExpr b (by simp [Expr.items] at he; omega))
  | assign s a b =>
    exact (h.onExpr a (by simp [Expr.items] at he; omega)).map₂ (Expr.assign s)
      (h.onExpr b (by simp [Expr.items] at he; omega))
  | arrow s p a b => exact (h.body b (by simp [Expr.items] at he; omega)).map (Expr.arrow s p a)
  | function s head b =>
    exact (h.body b (by simp [Expr.items] at he; omega)).map (Expr.function s head)

theorem member (m : Member) (hm : 2 * (Member.itemsAll true [m]).length + 1 ≤ n) :
    Passes g D (m.mapChildren f) m (Member.itemsAll true [m]) := by
  cases m with
  | field s name init =>
    cases init with
    | none => exact .pure _
    | some e =>
      rw [show Member.itemsAll true [.field s name (some e)] = e.items true from
        List.append_nil _] at hm ⊢
      exact (h.onExpr e (by omega)).map fun e => Member.field s name (some e)
  | method s head b =>
    rw [show Member.itemsAll true [.method s head b] = b.bodyItems true from
      List.append_nil _] at hm ⊢
    exact (h.body b hm).map (Member.method s head)

theorem stmt (s : Stmt) (hregular : Item.Regular (.stmt s))
    (hs : 2 * (s.items true).tail.length + 1 ≤ n) :
    Passes g D (s.mapChildren f) s (s.items true).tail := by
  cases s with
  | importNames | empty => exact .pure _
  | function s head b =>
    exact (h.body b (by simp [Stmt.items] at hs; omega)).map (Stmt.function s head)
  | classDecl s head ms =>
    have hms : 2 * (Member.itemsAll true ms).length + 1 ≤ n := hs
    change Passes g D _ _ (Member.itemsAll true ms)
    rw [Member.itemsAll_eq_flatMap] at hms ⊢
    exact Passes.map (Stmt.classDecl s head) (.each fun m hm => h.member m (by omega))
  | binding s k name init v =>
    cases init with
    | none => exact .pure _
    | some e =>
      exact (h.onExpr e (by simp [Stmt.items] at hs; omega)).map
        fun e => Stmt.binding s k name (some e) v
  | ret s value =>
    cases value with
    | none => exact .pure _
    | some e =>
      exact (h.onExpr e (by simp [Stmt.items] at hs; omega)).map fun e => Stmt.ret s (some e)
  | expr s e => exact (h.onExpr e (by simp [Stmt.items] at hs; omega)).map (Stmt.expr s)
  | throwExpr s e => exact (h.onExpr e (by simp [Stmt.items] at hs; omega)).map (Stmt.throwExpr s)
  | ifElse s c t alternative =>
    cases alternative with
    | none =>
      exact (h.onExpr c (by simp [Stmt.items] at hs; omega)).map₂ (Stmt.ifElse s · · none)
        (h.block t (by simp [Stmt.items] at hs; omega))
    | some e =>
      exact (h.onExpr c (by simp [Stmt.items] at hs; omega)).bind
        ((h.block t (by simp [Stmt.items] at hs; omega)).map₂ (fun t e => Stmt.ifElse s c t (some e))
          (h.alternative e (hregular e rfl) (by simp [Stmt.items] at hs; omega)))
  | whileLoop s e b =>
    exact (h.onExpr e (by simp [Stmt.items] at hs; omega)).map₂ (Stmt.whileLoop s)
      (h.block b (by simp [Stmt.items] at hs; omega))
  | forOf s k name e b =>
    exact (h.onExpr e (by simp [Stmt.items] at hs; omega)).map₂ (Stmt.forOf s k name)
      (h.block b (by simp [Stmt.items] at hs; omega))
  | block s b => exact (h.block b (by simp [Stmt.items] at hs; omega)).map (Stmt.block s)
  | defer s b => exact (h.block b (by simp [Stmt.items] at hs; omega)).map (Stmt.defer s)
  | tryFinally s b b' =>
    exact (h.block b (by simp [Stmt.items] at hs; omega)).map₂ (Stmt.tryFinally s)
      (h.block b' (by simp [Stmt.items] at hs; omega))

end Passing

/-- A walk of enough depth changes nothing. -/
theorem children_passing (n : Nat) : Passing g D (children g n) n := by
  induction n with
  | zero =>
    refine ⟨fun e he => ?_, fun s _ hs => ?_, fun ss hss => by omega⟩
    · rw [Expr.items_eq_cons, List.length_cons] at he
      omega
    · rw [Stmt.items_eq_cons, List.length_cons] at hs
      omega
  | succ n ih =>
    refine ⟨fun e he => ?_, fun s hregular hs => ?_, fun ss hss => ?_⟩
    · rw [Expr.items_eq_cons, List.length_cons] at he
      have hinside := ih.expr e (by omega)
      rw [Expr.items_eq_cons]
      refine .unless_halted e ?_
      split
      · rename_i hnone
        exact hinside.plain (by simp [isGoverned, hnone]) rfl
      · rename_i d hd
        intro st hst hitems
        have hclosed : e.id ∉ st.expanding := hitems.closed _ List.mem_cons_self
        rw [run_bind, run_get, run_ite, if_neg (by simpa using hclosed)]
        exact expandOpen_passes hd hinside st hst hitems
    · rw [Stmt.items_eq_cons, List.length_cons] at hs
      exact ih.stmt s hregular (by omega)
    · rw [Stmt.itemsAll_eq_flatMap] at hss ⊢
      have hentries : Passes g D (ss.mapM (expandEntry g (expandStmt g n))) (ss.map fun s => [s])
          (ss.flatMap (Stmt.items true)) := by
        refine .mapM fun s hs => ?_
        have hlen := length_le_flatMap hs (Stmt.items true)
        exact .assuming (fun _ hitems => hitems.regular _ (s.mem_items_self true)) fun hregular =>
          expandEntry_passes (ih.onStmt s hregular (by omega))
      have hall := hentries.map List.flatten
      rwa [show (ss.map fun s => [s]).flatten = ss from List.flatMap_singleton' ss] at hall

end Children

end Expansion

end MacroEngine
