import MacroEngine.Proofs.Edits.Turns
import MacroEngine.Proofs.Expansion.Visits

/-!
# Classes go through their derives

The derives of a class come one after the other, each with its hooks. A gap that a hook leaves is
shown to the hooks after it in the same derive, and these may fill it; a gap that a whole derive
leaves ends the chain. `Chains` says so, and `transformClass_chains` that this is how a class is
run: what the hooks that had a turn asked for is kept, those of later derives have none, and what is
left of the class is still in its place.
-/

namespace MacroEngine

/-- A class goes through derives: what their hooks ask for, what is left, and the workshop then. -/
inductive Chains (file : FileView) :
    List (Declaration × Hooks) → Node → Workshop → List Edit → Node → Workshop → Prop where
  | done {node : Node} {shop : Workshop} : Chains file [] node shop [] node shop
  /-- The first derive that leaves a gap is the last that has a turn. -/
  | removed {d : Declaration} {hooks : Hooks} {unheard : List (Declaration × Hooks)} {node : Node}
      {shop final : Workshop} {asked : List Edit} {span : Span}
      (hturns : TakeTurns file d hooks.transform node shop asked (.void span) final) :
      Chains file ((d, hooks) :: unheard) node shop asked (.void span) final
  | next {d : Declaration} {hooks : Hooks} {later : List (Declaration × Hooks)}
      {node left last : Node} {shop shop' final : Workshop} {asked more : List Edit}
      (hturns : TakeTurns file d hooks.transform node shop asked left shop')
      (hkept : left.isVoid = false) (hlater : Chains file later left shop' more last final) :
      Chains file ((d, hooks) :: later) node shop (asked ++ more) last final

/-- A node keeps its place in any chain. -/
theorem Chains.span {file : FileView} {derives : List (Declaration × Hooks)} {node last : Node}
    {shop final : Workshop} {asked : List Edit}
    (h : Chains file derives node shop asked last final) : last.span = node.span := by
  induction h with
  | done => rfl
  | removed hturns => exact hturns.span
  | next hturns _ _ ih => exact ih.trans hturns.span

namespace Folded

variable {file : FileView}

/-- A derive has its turns, and the ones behind it have theirs unless it leaves a gap. -/
theorem run_throughDerives_cons (d : Declaration) (hooks : Hooks) (ds : List (Declaration × Hooks))
    (f : Folded) (shop : Workshop) :
    (throughDerives file ((d, hooks) :: ds) f).run shop =
      if ((through file d hooks.transform f).run shop).1.node.isVoid then
        (through file d hooks.transform f).run shop
      else (throughDerives file ds ((through file d hooks.transform f).run shop).1).run
        ((through file d hooks.transform f).run shop).2 := by
  rw [throughDerives, StateT.run_bind]
  exact apply_ite (fun x : Work Folded => x.run ((through file d hooks.transform f).run shop).2)
    _ _ _

theorem exists_void_of_isVoid {node : Node} (h : node.isVoid = true) : ∃ span, node = .void span := by
  cases node with
  | void span => exact ⟨span, rfl⟩
  | stmt _ | expr _ => cases h

/-- Folding a node through derives lets it go through the chain. -/
theorem throughDerives_chains (file : FileView) (derives : List (Declaration × Hooks)) (f : Folded)
    (shop : Workshop) :
    ∃ asked,
      Chains file derives f.node shop asked ((throughDerives file derives f).run shop).1.node
        ((throughDerives file derives f).run shop).2 ∧
      f.Comes ((throughDerives file derives f).run shop).1 asked := by
  induction derives generalizing f shop with
  | nil => exact ⟨[], .done, .refl f⟩
  | cons derive later ih =>
    obtain ⟨d, hooks⟩ := derive
    obtain ⟨asked, hturns, hcomes⟩ := through_takesTurns file d hooks.transform f shop
    rw [run_throughDerives_cons]
    generalize (through file d hooks.transform f).run shop = out at hturns hcomes
    obtain ⟨f', shop'⟩ := out
    dsimp only at hturns hcomes ⊢
    split
    · rename_i hvoid
      obtain ⟨span, hspan⟩ := exists_void_of_isVoid hvoid
      refine ⟨asked, ?_, hcomes⟩
      rw [hspan] at hturns ⊢
      exact .removed hturns
    · rename_i hkept
      obtain ⟨more, hchains, hcomes'⟩ := ih f' shop'
      exact ⟨asked ++ more, .next hturns (Bool.eq_false_of_not_eq_true hkept) hchains,
        hcomes.trans hcomes'⟩

/-- If a chain leaves a gap, then the derives behind the one that left it do not matter. -/
theorem throughDerives_stops {derives : List (Declaration × Hooks)} {f : Folded} {shop : Workshop}
    (hf : f.node.isVoid = false)
    (hvoid : ((throughDerives file derives f).run shop).1.node.isVoid = true) :
    ∃ heard, heard <+: derives ∧ ∀ unheard, (throughDerives file (heard ++ unheard) f).run shop =
      (throughDerives file derives f).run shop := by
  induction derives generalizing f shop with
  | nil =>
    have hgap : f.node.isVoid = true := hvoid
    rw [hf] at hgap
    cases hgap
  | cons derive later ih =>
    obtain ⟨d, hooks⟩ := derive
    rw [run_throughDerives_cons] at hvoid
    cases hleft : ((through file d hooks.transform f).run shop).1.node.isVoid with
    | true =>
      refine ⟨[(d, hooks)], ⟨later, rfl⟩, fun unheard => ?_⟩
      rw [List.singleton_append, run_throughDerives_cons, run_throughDerives_cons, hleft]
      rfl
    | false =>
      rw [hleft] at hvoid
      obtain ⟨heard, ⟨rest, hrest⟩, hsame⟩ := ih hleft hvoid
      refine ⟨(d, hooks) :: heard, ⟨rest, by rw [List.cons_append, hrest]⟩, fun unheard => ?_⟩
      rw [List.cons_append, run_throughDerives_cons, run_throughDerives_cons, hleft]
      exact hsame unheard

end Folded

/-- The statement that is left where a class was: an expression is put into a new statement. -/
def Node.entry (shop : Workshop) : Node → Option Stmt × Workshop
  | .void _ => (none, shop)
  | .stmt s => (some s, shop)
  | .expr e => (some (.expr ⟨shop.nextId, e.span⟩ e), { shop with nextId := shop.nextId + 1 })

theorem Node.entry_span {node : Node} {shop : Workshop} {s : Stmt}
    (h : (node.entry shop).1 = some s) : s.span = node.span := by
  cases node with
  | void span => cases h
  | stmt t | expr e =>
    obtain rfl := Option.some.inj h
    rfl

theorem Node.entry_eq_none_iff {node : Node} {shop : Workshop} :
    (node.entry shop).1 = none ↔ node.isVoid = true := by
  cases node <;> simp [entry, isVoid]

section Class

variable (file : FileView) (derives : List (Declaration × Hooks)) (cls : Stmt) (patcher : Patcher)
  (shop : Workshop)

/-- What running a class gives, from the record of its chain. -/
theorem run_transformClass_eq :
    let out := (Folded.throughDerives file derives ⟨.stmt cls, .empty, patcher⟩).run shop
    (transformClass file derives cls patcher).run shop =
      (((out.1.node.entry out.2).1, out.1.beside, out.1.patcher), (out.1.node.entry out.2).2) := by
  rw [transformClass, StateT.run_bind]
  generalize (Folded.throughDerives file derives ⟨.stmt cls, .empty, patcher⟩).run shop = out
  obtain ⟨⟨node, beside, received⟩, shop'⟩ := out
  cases node <;> rfl

/-- A class runs by its chain of derives. -/
theorem exists_chains : ∃ asked node shop', Chains file derives (.stmt cls) shop asked node shop' ∧
    (transformClass file derives cls patcher).run shop =
      (((node.entry shop').1, .requested asked, asked.foldl Edit.patch patcher),
        (node.entry shop').2) := by
  obtain ⟨asked, hchains, hbeside, hpatcher⟩ :=
    Folded.throughDerives_chains file derives ⟨.stmt cls, .empty, patcher⟩ shop
  refine ⟨asked, _, _, hchains, ?_⟩
  rw [run_transformClass_eq, hbeside, hpatcher]
  rfl

end Class

namespace Expansion

variable {g : ExpansionSetting}

def HooksOf (d : Declaration) (hooks : Hooks) : Prop :=
  ∃ (cache : HookCache) (shop : Workshop), ((cache.hooksFor d).run shop).1.1 = .ok hooks

/-- A class with derives that mean something ran: what their hooks asked for, and what is left. -/
def RunsClass (g : ExpansionSetting) (s : Stmt) (asked : List Edit) (left : Option Stmt) : Prop :=
  ∃ stamp head members derives shop node shop', s = .classDecl stamp head members ∧
    derives ≠ [] ∧ derives.map Prod.fst = g.registry.deriveDeclarations head ∧
    (∀ p ∈ derives, HooksOf p.1 p.2) ∧ Chains g.file derives (.stmt s) shop asked node shop' ∧
    left = (node.entry shop').1.map (·.withId s.id)

/-- Hooks are answered by the memory of the walk. -/
theorem hooksFor_eq_ok {d : Declaration} {hooks : Hooks} {st : Expansion}
    (h : ((Walk.hooksFor d).run st).1 = .ok hooks) :
    ((st.hooks.hooksFor d).run st.shop).1.1 = .ok hooks := by
  change ((st.hooks.hooksFor d).run st.shop).1.1.mapError Error.load = .ok hooks at h
  cases hloaded : ((st.hooks.hooksFor d).run st.shop).1.1 with
  | error e => simp [hloaded, Except.mapError] at h
  | ok loaded =>
    rw [hloaded] at h
    exact congrArg Except.ok (Except.ok.inj h)

theorem hooksFor_hooksOf {d : Declaration} {hooks : Hooks} {st : Expansion}
    (h : ((Walk.hooksFor d).run st).1 = .ok hooks) : HooksOf d hooks :=
  ⟨st.hooks, st.shop, hooksFor_eq_ok h⟩

theorem hooksForAll_hooksOf {ds : List Declaration} {derives : List (Declaration × Hooks)}
    {st : Expansion} (h : ((hooksForAll ds).run st).1 = .ok derives) :
    derives.map Prod.fst = ds ∧ ∀ p ∈ derives, HooksOf p.1 p.2 := by
  induction ds generalizing derives st with
  | nil =>
    obtain rfl : [] = derives := Except.ok.inj h
    exact ⟨rfl, fun _ hp => absurd hp List.not_mem_nil⟩
  | cons d ds ih =>
    rw [hooksForAll, run_bind] at h
    cases hfound : ((Walk.hooksFor d).run st).1 with
    | error e =>
      rw [hfound] at h
      cases h
    | ok hooks =>
      simp only [hfound, run_bind] at h
      cases hmore : ((hooksForAll ds).run ((Walk.hooksFor d).run st).2).1 with
      | error e =>
        rw [hmore] at h
        cases h
      | ok more =>
        rw [hmore] at h
        obtain rfl : (d, hooks) :: more = derives := Except.ok.inj h
        obtain ⟨hnames, hhooks⟩ := ih hmore
        exact ⟨congrArg (d :: ·) hnames, List.forall_mem_cons.mpr ⟨hooksFor_hooksOf hfound, hhooks⟩⟩

def Underived (g : ExpansionSetting) (s : Stmt) : Prop :=
  ∀ stamp head members, s = .classDecl stamp head members → g.registry.deriveDeclarations head = []

theorem Underived.of_not_derived {s : Stmt} (h : s.isDerivedClass = false) : Underived g s := by
  rintro stamp head members rfl
  have hnone : head.derives = [] := by simpa [Stmt.isDerivedClass] using h
  rw [Registry.deriveDeclarations, hnone, List.filterMap_nil]

/-- What asking for the derives of a class leads to: an error, nothing, or a run that is noted. -/
inductive ClassTurn (g : ExpansionSetting) (s : Stmt) (st : Expansion) :
    Except Error (Option Stmt) × Expansion → Prop where
  | error {err : Error} {st' : Expansion} (h : Aside st st') : ClassTurn g s st (.error err, st')
  | underived {st' : Expansion} (hnone : Underived g s) (h : Aside st st') :
      ClassTurn g s st (.ok (some s), st')
  | ran {asked : List Edit} {left : Option Stmt} {st' : Expansion} (hruns : RunsClass g s asked left)
      (h : Aside st st') : ClassTurn g s st (.ok left,
        { st' with
          runs := .derives s (.requested asked) :: st'.runs
          beside := st'.beside ++ .requested asked })

theorem expandClass_turn (s : Stmt) (st : Expansion) :
    ClassTurn g s st ((expandClass g s).run st) := by
  cases s with
  | classDecl stamp head members =>
    have hreport := reportUnresolved_aside g.unresolvedDerive head.name
      (g.registry.unresolvedDerives head) st
    simp only [expandClass, run_bind]
    generalize (reportUnresolved g.unresolvedDerive head.name
      (g.registry.unresolvedDerives head)).run st = out at hreport
    obtain ⟨err | ok, st₁⟩ := out
    · exact .error hreport
    · cases hderives : g.registry.deriveDeclarations head with
      | nil =>
        refine .underived (fun stamp' head' members' heq => ?_) hreport
        obtain ⟨rfl, rfl, rfl⟩ := Stmt.classDecl.inj heq
        exact hderives
      | cons d ds =>
        have hhooks := hreport.trans (hooksForAll_aside (d :: ds) st₁)
        have hof (derives : List (Declaration × Hooks))
            (h : ((hooksForAll (d :: ds)).run st₁).1 = .ok derives) := hooksForAll_hooksOf h
        simp only [run_bind]
        generalize (hooksForAll (d :: ds)).run st₁ = out at hhooks hof
        obtain ⟨err | derives, st₂⟩ := out
        · exact .error hhooks
        · obtain ⟨hnames, hall⟩ := hof derives rfl
          obtain ⟨asked, node, shop', hchains, hrun⟩ :=
            exists_chains g.file derives (.classDecl stamp head members) st₂.patcher st₂.shop
          simp only [run_bind, run_get, run_work, run_modify, hrun]
          refine .ran ⟨stamp, head, members, derives, st₂.shop, node, shop', rfl, ?_, ?_, hall, hchains,
            rfl⟩ (hhooks.trans ⟨rfl, rfl, rfl, rfl⟩)
          · rintro rfl
            cases hnames
          · rw [hnames, hderives]
  | _ => exact .underived (.of_not_derived rfl) ⟨rfl, rfl, rfl, rfl⟩

/-- What is left of a class that ran is the same node in the same place. -/
theorem RunsClass.stamp {s t : Stmt} {asked : List Edit} (h : RunsClass g s asked (some t)) :
    t.stamp = s.stamp := by
  obtain ⟨stamp, head, members, derives, shop, node, shop', -, -, -, -, hchains, hleft⟩ := h
  obtain ⟨u, hu, rfl⟩ := Option.map_eq_some_iff.mp hleft.symm
  have hspan : u.span = s.span := (Node.entry_span hu).trans hchains.span
  rw [Stmt.withId, Stmt.stamp_withStamp, hspan]
  rfl

/-- What is left of a class keeps its identity and its place. -/
theorem expandClass_stamp {s t : Stmt} {st : Expansion}
    (h : ((expandClass g s).run st).1 = .ok (some t)) : t.stamp = s.stamp := by
  have hturn := expandClass_turn (g := g) s st
  generalize (expandClass g s).run st = out at h hturn
  cases hturn with
  | error _ => cases h
  | underived _ _ =>
    obtain rfl := Option.some.inj (Except.ok.inj h)
    rfl
  | ran hruns _ =>
    obtain rfl := Except.ok.inj h
    exact hruns.stamp

end Expansion

section Class

/-- A class goes through its derives by the chain, and what the hooks with a turn ask for is all that
is kept beside it and among the patches. If a derive leaves a gap, then nothing is left of the class,
and the derives behind it might as well be any others. Otherwise what is left is in the place of the
class, and once it stands in the class's list it is the same node. -/
theorem transformClass_chains (file : FileView) (derives : List (Declaration × Hooks)) (cls : Stmt)
    (patcher : Patcher) (shop : Workshop) :
    let out := (transformClass file derives cls patcher).run shop
    (∃ asked node shop', Chains file derives (.stmt cls) shop asked node shop' ∧
        (out.1.1, out.2) = node.entry shop' ∧ out.1.2.1 = .requested asked ∧
        patcher.Receives asked out.1.2.2) ∧
      (out.1.1 = none → ∃ heard, heard <+: derives ∧
        ∀ unheard, (transformClass file (heard ++ unheard) cls patcher).run shop = out) ∧
      (∀ s, out.1.1 = some s → s.span = cls.span) ∧
      ∀ g st s, ((expandClass g cls).run st).1 = .ok (some s) → s.span = cls.span ∧ s.id = cls.id := by
  dsimp only
  obtain ⟨asked, node, shop', hchains, hrun⟩ := exists_chains file derives cls patcher shop
  refine ⟨⟨asked, node, shop', hchains, ?_⟩, fun hnone => ?_, fun s hs => ?_, fun g st s hs => ?_⟩
  · rw [hrun]
    exact ⟨rfl, rfl, Patcher.receives_foldl asked patcher⟩
  · have hvoid := hnone
    rw [run_transformClass_eq] at hvoid
    obtain ⟨heard, hheard, hsame⟩ :=
      Folded.throughDerives_stops (f := ⟨.stmt cls, .empty, patcher⟩) rfl (Node.entry_eq_none_iff.mp hvoid)
    refine ⟨heard, hheard, fun unheard => ?_⟩
    rw [run_transformClass_eq, run_transformClass_eq, hsame]
  · rw [hrun] at hs
    exact (Node.entry_span hs).trans hchains.span
  · have hstamp := Expansion.expandClass_stamp hs
    exact ⟨congrArg Stamp.span hstamp, congrArg Stamp.id hstamp⟩

/-- A derive that puts a statement before the class and takes the class away. -/
def goneDeclaration : Declaration := ⟨1, .derive, "Gone", .function false, default, default⟩

def tailDeclaration : Declaration := ⟨2, .derive, "Tail", .function false, default, default⟩

def goneHook : TransformHook := fun _ => return [.before (Patcher.mark 40), .remove]

def fillHook : TransformHook := fun view =>
  return if view.node.isVoid then [.replace (.expr (.null ⟨41, ⟨0, 0⟩⟩))] else []

def tailHook : TransformHook := fun _ => return [.after (Patcher.mark 42)]

/-- The class `class A derives Gone, Tail {}`. -/
def chainedClass : Stmt := .classDecl ⟨10, ⟨3, 33⟩⟩ ⟨"A", ["Gone", "Tail"], .internal⟩ []

def chainedSetting : ExpansionSetting :=
  ⟨⟨default, []⟩, { Registry.empty with
    derives := [("Gone", goneDeclaration), ("Tail", tailDeclaration)] }, .ignore⟩

/-- If the gap is filled by the derive that left it, then the next derive has its turn, and the class
becomes an expression statement in its place. If it is not, then the next derive has none. -/
theorem transformClass_chains_filled :
    (((transformClass ⟨default, []⟩ [(goneDeclaration, ⟨[goneHook, fillHook], []⟩),
          (tailDeclaration, ⟨[tailHook], []⟩)] chainedClass .empty).run ⟨50, 0, []⟩).1.1 =
        some (.expr ⟨50, ⟨3, 33⟩⟩ (.null ⟨41, ⟨3, 33⟩⟩)) ∧ (⟨3, 33⟩ : Span) = chainedClass.span) ∧
      (((transformClass ⟨default, []⟩ [(goneDeclaration, ⟨[goneHook], []⟩),
            (tailDeclaration, ⟨[tailHook], []⟩)] chainedClass .empty).run ⟨50, 0, []⟩).1 =
          (none, ⟨[Patcher.mark 40], []⟩, .empty) ∧
        ∃ heard, heard <+: [(goneDeclaration, ⟨[goneHook], []⟩), (tailDeclaration, ⟨[tailHook], []⟩)] ∧
          ∀ unheard, (transformClass ⟨default, []⟩ (heard ++ unheard) chainedClass .empty).run
            ⟨50, 0, []⟩ = ((none, ⟨[Patcher.mark 40], []⟩, .empty), ⟨50, 0, []⟩)) ∧
      ((expandClass chainedSetting chainedClass).run (.start ⟨50, 0, []⟩
          ⟨.new ⟨[], none⟩, [(1, ⟨[goneHook, fillHook], []⟩), (2, ⟨[tailHook], []⟩)]⟩)).1 =
        .ok (some (.expr ⟨10, ⟨3, 33⟩⟩ (.null ⟨41, ⟨3, 33⟩⟩))) ∧
      (10 : NodeId) = chainedClass.id := by
  have hfilled := transformClass_chains ⟨default, []⟩ [(goneDeclaration, ⟨[goneHook, fillHook], []⟩),
    (tailDeclaration, ⟨[tailHook], []⟩)] chainedClass .empty ⟨50, 0, []⟩
  have hgone := transformClass_chains ⟨default, []⟩ [(goneDeclaration, ⟨[goneHook], []⟩),
    (tailDeclaration, ⟨[tailHook], []⟩)] chainedClass .empty ⟨50, 0, []⟩
  have hexpanded : ((expandClass chainedSetting chainedClass).run (.start ⟨50, 0, []⟩
      ⟨.new ⟨[], none⟩, [(1, ⟨[goneHook, fillHook], []⟩), (2, ⟨[tailHook], []⟩)]⟩)).1 =
    .ok (some (.expr ⟨10, ⟨3, 33⟩⟩ (.null ⟨41, ⟨3, 33⟩⟩))) := rfl
  exact ⟨⟨rfl, hfilled.2.2.1 _ rfl⟩, ⟨rfl, hgone.2.1 rfl⟩, hexpanded,
    (hfilled.2.2.2 _ _ _ hexpanded).2⟩

end Class

end MacroEngine
