import MacroEngine.Proofs.Expansion.Asking
import MacroEngine.Proofs.Hoisting.Hooks

/-!
# What a walk hoists

A walk over the standard macros puts nothing next to a statement, and it asks for constants in the
file: one for each number that it gives to a hoisted name, in the order of the numbers. If the trees
that it visits have none of the hoisted names, then a tree that it comes to has only names with
numbers that were given before its visit was over.
-/

namespace MacroEngine

open Expansion

namespace Standard

/-- The constants for hoisted expressions, whose numbers go from `n` on. -/
def declarations : ℕ → List (Stamp × Expr) → List Stmt
  | _, [] => []
  | n, (stamp, value) :: more => declaration stamp n value :: declarations (n + 1) more

theorem declarations_append (n : ℕ) (values more : List (Stamp × Expr)) :
    declarations n (values ++ more) =
      declarations n values ++ declarations (n + values.length) more := by
  induction values generalizing n with
  | nil => rfl
  | cons value values ih =>
    rw [List.cons_append, declarations, declarations, ih, List.cons_append, List.length_cons]
    congr 3
    omega

theorem spares_methodWords (spared : Set ℕ) : ∀ name ∈ methodWords, Spares spared name := by
  intro name hname
  refine spares_of_take ?_
  revert name
  decide

end Standard

/-- What a walk over the standard macros is about: how it expands, the numbers whose names were not
there before, the next identity before the walk and the first number of its own. -/
structure Hoisting where
  setting : ExpansionSetting
  environment : Standard.Environment
  spared : Set ℕ
  bound : NodeId
  first : ℕ

namespace Hoisting

variable (h : Hoisting)

def Clean (names : List String) : Prop := ∀ name ∈ names, Standard.Spares h.spared name

/-- A state of the walk: the patches are the constants for the hoisted names that it gave. -/
structure Reaches (st : Expansion) : Prop where
  hooks : st.hooks.Standard h.environment
  beside : st.beside = .empty
  bound_le : h.bound ≤ st.shop.nextId
  patches : ∃ values, st.shop.hoisted = h.first + values.length ∧
    (∀ value ∈ values, h.bound ≤ value.1.id ∧ h.Clean value.2.names) ∧
    st.patcher = ((Standard.declarations h.first values).map
      (Standard.place h.setting.file.statements)).foldl Edit.patch .empty

/-- The names are hoisted ones only if a walk in some state gave them. -/
def Given (st : Expansion) (names : List String) : Prop :=
  ∀ name ∈ names, Standard.Fits h.spared h.first st.shop.hoisted name

/-- A part of a walk that, where some names are given, comes to given names. -/
def Tidy {α : Type} (carried : List String) (x : Walk α) (names : α → List String) : Prop :=
  ∀ st, h.Reaches st → h.Given st carried →
    h.Reaches (x.run st).2 ∧ st.shop.hoisted ≤ (x.run st).2.shop.hoisted ∧
      h.Given (x.run st).2 (names (x.run st).1)

def Answers {α : Type} (x : Walk α) (R : α → Prop) : Prop := ∀ st, h.Reaches st → R (x.run st).1

variable {h}

theorem Clean.given {names : List String} (hnames : h.Clean names) (st : Expansion) :
    h.Given st names :=
  fun name hname => (hnames name hname).fits _ _

theorem Given.nil (st : Expansion) : h.Given st [] := List.forall_mem_nil _

theorem Given.mono {st st' : Expansion} {names : List String} (hnames : h.Given st names)
    (hle : st.shop.hoisted ≤ st'.shop.hoisted) : h.Given st' names :=
  fun name hname => (hnames name hname).mono hle

theorem Clean.append {names names' : List String} :
    h.Clean (names ++ names') ↔ h.Clean names ∧ h.Clean names' := List.forall_mem_append

theorem Clean.cons {name : String} {names : List String} :
    h.Clean (name :: names) ↔ Standard.Spares h.spared name ∧ h.Clean names := List.forall_mem_cons

theorem Reaches.start {shop : Workshop} {hooks : HookCache} (hhooks : hooks.Standard h.environment)
    (hbound : h.bound ≤ shop.nextId) (hfirst : h.first = shop.hoisted) :
    h.Reaches (.start shop hooks) where
  hooks := hhooks
  beside := rfl
  bound_le := hbound
  patches := ⟨[], hfirst.symm, List.forall_mem_nil _, rfl⟩

/-- One more hoisted name is given. -/
theorem Reaches.hoist {st : Expansion} (hst : h.Reaches st) {value : Expr}
    (hvalue : h.Clean value.names) : h.Reaches { st with
      shop := { st.shop with nextId := st.shop.nextId + 2, hoisted := st.shop.hoisted + 1 }
      patcher := Edit.patch st.patcher (Standard.place h.setting.file.statements
        (Standard.declaration ⟨st.shop.nextId, ⟨0, 0⟩⟩ st.shop.hoisted value)) } where
  hooks := hst.hooks
  beside := hst.beside
  bound_le := Nat.le_trans hst.bound_le (Nat.le_add_right _ 2)
  patches := by
    obtain ⟨values, hnumber, hvalues, hpatcher⟩ := hst.patches
    refine ⟨values ++ [(⟨st.shop.nextId, ⟨0, 0⟩⟩, value)], ?_, ?_, ?_⟩
    · rw [List.length_append, hnumber]
      rfl
    · exact List.forall_mem_append.mpr
        ⟨hvalues, fun _ hv => List.mem_singleton.mp hv ▸ ⟨hst.bound_le, hvalue⟩⟩
    · rw [Standard.declarations_append, ← hnumber, List.map_append, List.foldl_append, ← hpatcher]
      rfl

section Rules

variable {α β : Type} {carried : List String} {x : Walk α} {f : α → Walk β}
  {names : α → List String} {names' : β → List String}

theorem Tidy.pure {a : α} (ha : names a ⊆ carried) : h.Tidy carried (pure a) names :=
  fun _ hst hcarried => ⟨hst, Nat.le_refl _, fun name hname => hcarried name (ha hname)⟩

/-- What the first part comes to is carried through the second one. -/
theorem Tidy.bindWith {R : α → Prop} (hx : h.Tidy carried x names) (hR : h.Answers x R)
    (hf : ∀ a, R a → h.Tidy (names a ++ carried) (f a) names') : h.Tidy carried (x >>= f) names' := by
  intro st hst hcarried
  obtain ⟨hst₁, hle, hnames⟩ := hx st hst hcarried
  obtain ⟨hst₂, hle', hnames'⟩ := hf _ (hR st hst) _ hst₁
    (List.forall_mem_append.mpr ⟨hnames, hcarried.mono hle⟩)
  exact ⟨hst₂, Nat.le_trans hle hle', hnames'⟩

theorem Tidy.bind (hx : h.Tidy carried x names)
    (hf : ∀ a, h.Tidy (names a ++ carried) (f a) names') : h.Tidy carried (x >>= f) names' :=
  Tidy.bindWith (R := fun _ => True) hx (fun _ _ => trivial) fun a _ => hf a

theorem Tidy.mono {more : List String} (hx : h.Tidy carried x names) (hsub : carried ⊆ more) :
    h.Tidy more x names :=
  fun st hst hmore => hx st hst fun name hname => hmore name (hsub hname)

theorem Tidy.of_clean (hcarried : h.Clean carried) (hx : h.Tidy carried x names) :
    h.Tidy [] x names :=
  fun st hst _ => hx st hst (hcarried.given st)

theorem Tidy.mapM {γ : Type} {g : γ → Walk α} {cs : List γ} (hg : ∀ c ∈ cs, h.Tidy [] (g c) names) :
    h.Tidy carried (cs.mapM g) (List.flatMap names) := by
  induction cs generalizing carried with
  | nil => exact .pure (List.nil_subset _)
  | cons c cs ih =>
    obtain ⟨hc, hcs⟩ := List.forall_mem_cons.mp hg
    rw [List.mapM_cons]
    refine (hc.mono (List.nil_subset _)).bind fun a => (ih hcs).bind fun as => .pure ?_
    intro name hname
    simp only [List.flatMap_cons, List.mem_append] at hname ⊢
    tauto

theorem Tidy.modify {k : Expansion → Expansion} (hk : ∀ st, h.Reaches st → h.Reaches (k st))
    (hsame : ∀ st, (k st).shop.hoisted = st.shop.hoisted) :
    h.Tidy carried (modify k : Walk Unit) fun _ => [] :=
  fun st hst _ => ⟨hk st hst, (hsame st).ge, .nil _⟩

theorem Tidy.halt (e : Error) : h.Tidy carried (Walk.halt e) fun _ => [] :=
  .modify (fun _ hst => ⟨hst.hooks, hst.beside, hst.bound_le, hst.patches⟩) fun _ => rfl

theorem Tidy.halt_pure (e : Error) {a : α} (ha : names a ⊆ carried) :
    h.Tidy carried (do Walk.halt e; return a) names :=
  (Tidy.halt e).bind fun _ => .pure ha

theorem Tidy.unless_halted {a : α} (ha : names a ⊆ carried) (hx : h.Tidy carried x names) :
    h.Tidy carried (do if ← Walk.isHalted then return a else x) names := by
  intro st hst hcarried
  rw [run_unless_halted]
  split
  · exact Tidy.pure ha st hst hcarried
  · exact hx st hst hcarried

end Rules

section Children

structure TidyChildren (h : Hoisting) (f : ChildMap Walk) : Prop where
  onExpr : ∀ e, h.Clean e.names → h.Tidy [] (f.onExpr e) Expr.names
  onStmt : ∀ s, h.Clean s.names → h.Tidy [] (f.onStmt s) Stmt.names
  onStmts : ∀ ss, h.Clean (Stmt.namesAll ss) → h.Tidy [] (f.onStmts ss) Stmt.namesAll

variable {f : ChildMap Walk} {carried : List String} (hf : h.TidyChildren f)

include hf

theorem TidyChildren.part {e : Expr} (he : h.Clean e.names) :
    h.Tidy carried (f.onExpr e) Expr.names :=
  (hf.onExpr e he).mono (List.nil_subset _)

theorem TidyChildren.block {b : Block} (hb : h.Clean b.names) :
    h.Tidy carried (b.mapChildren f) Block.names := by
  rw [Block.names_eq] at hb
  refine ((hf.onStmts b.stmts hb).mono (List.nil_subset _)).bind fun ss => .pure ?_
  exact List.subset_append_left _ _

theorem TidyChildren.exprs {es : List Expr} (hes : h.Clean (Expr.namesAll es)) :
    h.Tidy carried (es.mapM f.onExpr) Expr.namesAll := by
  rw [Expr.namesAll_eq_flatMap] at hes
  have hall : h.Tidy carried (es.mapM f.onExpr) (List.flatMap Expr.names) :=
    .mapM fun e he => hf.onExpr e fun name hname => hes name (List.mem_flatMap.mpr ⟨e, he, hname⟩)
  intro st hst hcarried
  rw [Expr.namesAll_eq_flatMap]
  exact hall st hst hcarried

theorem TidyChildren.properties {ps : List (String × Expr)}
    (hps : h.Clean (Expr.namesProperties ps)) :
    h.Tidy (Expr.namesProperties ps)
      (ps.mapM fun p => do return (p.1, ← f.onExpr p.2)) Expr.namesProperties := by
  rw [Expr.namesProperties_eq_flatMap] at hps ⊢
  have hall : h.Tidy (ps.flatMap fun p => p.1 :: p.2.names)
      (ps.mapM fun p => do return (p.1, ← f.onExpr p.2))
      (List.flatMap fun p => p.1 :: p.2.names) := by
    refine .mapM fun p hp => ?_
    have hown : h.Clean (p.1 :: p.2.names) := fun name hname =>
      hps name (List.mem_flatMap.mpr ⟨p, hp, hname⟩)
    refine .of_clean hown ((hf.part (Clean.cons.mp hown).2).bind fun e => .pure ?_)
    simp
  intro st hst hcarried
  rw [Expr.namesProperties_eq_flatMap]
  exact hall st hst hcarried

/-- An expression is made of its parts and its own names. -/
theorem TidyChildren.expr {e : Expr} (he : h.Clean e.names) :
    h.Tidy e.names (e.mapChildren f) Expr.names := by
  cases e with
  | ident | number | str | bool | null | this | template | tagged => exact .pure (List.Subset.refl _)
  | array s es => exact (hf.exprs he).bind fun es' => .pure (List.subset_append_left _ _)
  | object s ps => exact (hf.properties he).bind fun ps' => .pure (List.subset_append_left _ _)
  | paren s e | unary s o e | await s e =>
    exact (hf.part (e := e) he).bind fun e' => .pure (List.subset_append_left _ _)
  | member s o property =>
    refine (hf.part (Clean.cons.mp he).2).bind fun o' => .pure ?_
    simp [Expr.names]
  | call s c args =>
    refine (hf.part (Clean.append.mp he).1).bind fun c' => ?_
    refine (hf.exprs (Clean.append.mp he).2).bind fun args' => .pure ?_
    simp [Expr.names]
  | invoke s name args =>
    refine (hf.exprs (Clean.cons.mp he).2).bind fun args' => .pure ?_
    simp [Expr.names]
  | binary s o l r | assign s l r =>
    refine (hf.part (Clean.append.mp he).1).bind fun l' => ?_
    refine (hf.part (Clean.append.mp he).2).bind fun r' => .pure ?_
    simp [Expr.names]
  | arrow s params isAsync b =>
    refine (hf.block (Clean.append.mp he).2).bind fun b' => .pure ?_
    simp [Expr.names]
  | arrowExpr s params isAsync e =>
    refine (hf.part (Clean.append.mp he).2).bind fun e' => .pure ?_
    simp [Expr.names]
  | function s head b =>
    refine (hf.block (Clean.append.mp he).2).bind fun b' => .pure ?_
    simp [Expr.names]

theorem TidyChildren.member {m : Member} (hm : h.Clean m.names) :
    h.Tidy m.names (m.mapChildren f) Member.names := by
  cases m with
  | field s name init =>
    cases init with
    | none => exact .pure (List.Subset.refl _)
    | some e =>
      refine (hf.part (Clean.cons.mp hm).2).bind fun e' => .pure ?_
      simp [Member.names]
  | method s head b =>
    refine (hf.block (Clean.append.mp (Clean.cons.mp hm).2).2).bind fun b' =>
      .pure fun name hname => ?_
    simp only [Member.names, List.mem_cons, List.mem_append] at hname ⊢
    tauto

theorem TidyChildren.members {ms : List Member} (hms : h.Clean (Member.namesAll ms)) :
    h.Tidy carried (ms.mapM (Member.mapChildren f)) Member.namesAll := by
  rw [Member.namesAll_eq_flatMap] at hms
  have hall : h.Tidy carried (ms.mapM (Member.mapChildren f)) (List.flatMap Member.names) := by
    refine .mapM fun m hm => ?_
    have hown : h.Clean m.names := fun name hname => hms name (List.mem_flatMap.mpr ⟨m, hm, hname⟩)
    exact .of_clean hown (hf.member hown)
  intro st hst hcarried
  rw [Member.namesAll_eq_flatMap]
  exact hall st hst hcarried

/-- So is a statement. -/
theorem TidyChildren.stmt {s : Stmt} (hs : h.Clean s.names) :
    h.Tidy s.names (s.mapChildren f) Stmt.names := by
  cases s with
  | importNames | empty => exact .pure (List.Subset.refl _)
  | function s head b =>
    refine (hf.block (Clean.append.mp hs).2).bind fun b' => .pure ?_
    simp [Stmt.names]
  | classDecl s head ms =>
    have hms := (Clean.append.mp (Clean.cons.mp hs).2).2
    refine (hf.members hms).bind fun ms' => .pure fun name hname => ?_
    simp only [Stmt.names, List.mem_cons, List.mem_append] at hname ⊢
    tauto
  | binding s kind name init visibility =>
    cases init with
    | none => exact .pure (List.Subset.refl _)
    | some e =>
      refine (hf.part (Clean.cons.mp hs).2).bind fun e' => .pure ?_
      simp [Stmt.names]
  | ret s value =>
    cases value with
    | none => exact .pure (List.Subset.refl _)
    | some e => exact (hf.part (e := e) hs).bind fun e' => .pure (List.subset_append_left _ _)
  | expr s e | throwExpr s e =>
    exact (hf.part (e := e) hs).bind fun e' => .pure (List.subset_append_left _ _)
  | ifElse s c t alternative =>
    cases alternative with
    | none =>
      refine (hf.part (Clean.append.mp hs).1).bind fun c' => ?_
      refine (hf.block (Clean.append.mp hs).2).bind fun t' => .pure ?_
      simp [Stmt.names]
    | some e =>
      have hrest := Clean.append.mp (Clean.append.mp hs).2
      refine (hf.part (Clean.append.mp hs).1).bind fun c' => (hf.block hrest.1).bind fun t' => ?_
      refine ((hf.onStmt e hrest.2).mono (List.nil_subset _)).bind fun e' =>
        .pure fun name hname => ?_
      simp only [Stmt.names, List.mem_append] at hname ⊢
      tauto
  | whileLoop s c b =>
    refine (hf.part (Clean.append.mp hs).1).bind fun c' => ?_
    refine (hf.block (Clean.append.mp hs).2).bind fun b' => .pure ?_
    simp [Stmt.names]
  | forOf s kind name c b =>
    have hrest := Clean.append.mp (Clean.cons.mp hs).2
    refine (hf.part hrest.1).bind fun c' => (hf.block hrest.2).bind fun b' => .pure ?_
    simp [Stmt.names]
  | block s b | defer s b =>
    exact (hf.block (b := b) hs).bind fun b' => .pure (List.subset_append_left _ _)
  | tryFinally s b b' =>
    refine (hf.block (Clean.append.mp hs).1).bind fun c => ?_
    refine (hf.block (Clean.append.mp hs).2).bind fun c' => .pure ?_
    simp [Stmt.names]

end Children

section Hooks

variable {e : Expr} {d : Declaration} {carried : List String}

/-- A leaf that a hook puts in place of a site, or `null` after an error. -/
inductive Leaf : Expr → Prop where
  | string (stamp : Stamp) (value : String) : Leaf (.str stamp value)
  | name (stamp : Stamp) (name : String) : Leaf (.ident stamp name)
  | null (stamp : Stamp) : Leaf (.null stamp)

theorem hooksFor_tidy (d : Declaration) : h.Tidy carried (Walk.hooksFor d) fun _ => [] := by
  intro st hst _
  obtain ⟨hhooks, hshop, -⟩ := hst.hooks.hooksFor d st.shop
  simp only [Walk.hooksFor, run_bind, run_get, run_work, run_modify, run_pure, hshop]
  exact ⟨⟨hhooks, hst.beside, hst.bound_le, hst.patches⟩, Nat.le_refl _, .nil _⟩

theorem hooksFor_answers (d : Declaration) : h.Answers (Walk.hooksFor d) fun out =>
    ∀ hooks, out = .ok hooks → hooks ∈ Standard.registered h.environment := by
  intro st hst hooks hout
  refine (hst.hooks.hooksFor d st.shop).2.2 hooks ?_
  change ((st.hooks.hooksFor d).run st.shop).1.1.mapError Error.load = .ok hooks at hout
  cases hanswer : ((st.hooks.hooksFor d).run st.shop).1.1 with
  | error e =>
    rw [hanswer] at hout
    cases hout
  | ok hooks' =>
    rw [hanswer] at hout
    exact congrArg Except.ok (Except.ok.inj hout)

theorem hooksForAll_tidy (ds : List Declaration) : h.Tidy carried (hooksForAll ds) fun _ => [] := by
  induction ds generalizing carried with
  | nil => exact .pure (List.nil_subset _)
  | cons d ds ih =>
    refine (hooksFor_tidy d).bind fun out => ?_
    cases out with
    | error e => exact .pure (List.nil_subset _)
    | ok hooks =>
      refine ih.bind fun out => ?_
      cases out with
      | error e => exact .pure (List.nil_subset _)
      | ok more => exact .pure (List.nil_subset _)

theorem hooksForAll_answers (ds : List Declaration) : h.Answers (hooksForAll ds) fun out =>
    ∀ derives, out = .ok derives →
      ∀ derive ∈ derives, derive.2 ∈ Standard.registered h.environment := by
  induction ds with
  | nil =>
    intro st _ derives hout
    obtain rfl := Except.ok.inj hout
    exact nofun
  | cons d ds ih =>
    intro st hst derives hout
    have hfirst := hooksFor_answers d st hst
    have htidy : h.Tidy [] (Walk.hooksFor d) fun _ => [] := hooksFor_tidy d
    obtain ⟨hst', -, -⟩ := htidy st hst (.nil st)
    rw [hooksForAll, run_bind] at hout
    generalize (Walk.hooksFor d).run st = out at hfirst hst' hout
    obtain ⟨e | hooks, st'⟩ := out
    · cases hout
    · have hrest := ih st' hst'
      simp only [run_bind] at hout
      generalize (hooksForAll ds).run st' = out at hrest hout
      obtain ⟨e | more, st''⟩ := out
      · cases hout
      · obtain rfl := Except.ok.inj hout
        exact List.forall_mem_cons.mpr ⟨hfirst hooks rfl, hrest more rfl⟩

end Hooks

section Sites

variable {e : Expr} {d : Declaration} {carried : List String}

/-- A site stays, or a leaf takes its place. -/
theorem expandSite_left (he : h.Clean e.names) {st : Expansion} (hst : h.Reaches st) :
    h.Reaches ((expandSite h.setting d e).run st).2 ∧
      st.shop.hoisted ≤ ((expandSite h.setting d e).run st).2.shop.hoisted ∧
      h.Given ((expandSite h.setting d e).run st).2 ((expandSite h.setting d e).run st).1.1.names ∧
      (((expandSite h.setting d e).run st).1.1 = e ∨
        Leaf ((expandSite h.setting d e).run st).1.1) := by
  obtain ⟨hst₁, hle, -⟩ := hooksFor_tidy d st hst (.nil st)
  have hof := hooksFor_answers d st hst
  unfold expandSite
  rw [run_bind]
  generalize (Walk.hooksFor d).run st = found at hst₁ hle hof
  obtain ⟨err | hooks, st₁⟩ := found
  · exact ⟨hst₁, hle, he.given _, .inl rfl⟩
  · have hleft : Standard.SiteLeft h.setting.file.statements e st₁.patcher st₁.shop _ :=
      Standard.transformSite_left (hof hooks rfl) d e st₁.patcher st₁.shop
    simp only [run_bind, run_get, run_work, run_modify]
    generalize (transformSite h.setting.file d hooks e st₁.patcher).run st₁.shop = out at hleft
    have hbeside : st₁.beside ++ Beside.empty = .empty :=
      (Beside.append_empty _).trans hst₁.beside
    cases hleft with
    | kept => exact ⟨⟨hst₁.hooks, hbeside, hst₁.bound_le, hst₁.patches⟩, hle, he.given _, .inl rfl⟩
    | string stamp value =>
      exact ⟨⟨hst₁.hooks, hbeside, Nat.le_succ_of_le hst₁.bound_le, hst₁.patches⟩, hle, nofun,
        .inr (.string stamp value)⟩
    | name stamp value hvalue =>
      have hhoist := hst₁.hoist fun name hname => he name (hvalue hname)
      obtain ⟨values, hnumber, -, -⟩ := hst₁.patches
      refine ⟨⟨hhoist.hooks, hbeside, hhoist.bound_le, hhoist.patches⟩, Nat.le_succ_of_le hle,
        fun name hname => ?_, .inr (.name stamp _)⟩
      rw [List.mem_singleton.mp hname]
      exact Standard.fits_hoistedName (hnumber ▸ Nat.le_add_right _ _) (Nat.lt_succ_self _)

/-- What is visited: trees of the file, and leaves that hooks put there. -/
theorem expandOpen_tidy {visit inside : Expr → Walk Expr}
    (hvisit : ∀ e, h.Clean e.names ∨ Leaf e → h.Tidy e.names (visit e) Expr.names)
    (hinside : ∀ e, h.Clean e.names ∨ Leaf e → h.Tidy e.names (inside e) Expr.names)
    (he : h.Clean e.names) :
    h.Tidy carried (expandOpen h.setting visit inside d e) Expr.names := by
  have hsite : h.Tidy carried (expandSite h.setting d e) fun out => out.1.names := fun st hst _ =>
    have hleft := expandSite_left he hst
    ⟨hleft.1, hleft.2.1, hleft.2.2.1⟩
  have hanswers : h.Answers (expandSite h.setting d e) fun out => out.1 = e ∨ Leaf out.1 :=
    fun st hst => (expandSite_left he hst).2.2.2
  have henter : h.Tidy carried (Walk.enter e.id) fun _ => [] :=
    .modify (fun _ hst => ⟨hst.hooks, hst.beside, hst.bound_le, hst.patches⟩) fun _ => rfl
  have hleave (more : List String) : h.Tidy more Walk.leave fun _ => [] :=
    .modify (fun _ hst => ⟨hst.hooks, hst.beside, hst.bound_le, hst.patches⟩) fun _ => rfl
  refine henter.bind fun _ => Tidy.bind (hsite.bindWith hanswers fun out hout => ?_) fun e' =>
    (hleave _).bind fun _ => .pure (List.subset_append_left _ _)
  have hown : h.Clean out.1.names ∨ Leaf out.1 := hout.imp_left fun heq => by rwa [heq]
  obtain ⟨e', err | ok⟩ := out
  · exact .halt_pure err (List.subset_append_left _ _)
  · dsimp only [afterSite]
    split
    · exact (hvisit e' hown).mono (List.subset_append_left _ _)
    · exact (hinside e' hown).mono (List.subset_append_left _ _)

end Sites

section Classes

variable {s : Stmt} {carried : List String}

theorem reportUnresolved_tidy (policy : MissPolicy) (className : String) (names : List String) :
    h.Tidy carried (reportUnresolved policy className names) fun _ => [] := by
  induction names generalizing carried with
  | nil => exact .pure (List.nil_subset _)
  | cons name names ih =>
    unfold reportUnresolved
    split
    · exact .pure (List.nil_subset _)
    · refine Tidy.bind (.modify (fun _ hst => ?_) fun _ => rfl) fun _ => ih
      exact ⟨hst.hooks, hst.beside, hst.bound_le, hst.patches⟩

/-- Methods of the standard macros have none of the hoisted names. -/
theorem Clean.withMembers {stamp stamp' : Stamp} {head : ClassHead} {members more : List Member}
    (hs : h.Clean (Stmt.classDecl stamp head members).names)
    (hmore : ∀ m ∈ more, m.names ⊆ head.name :: Standard.methodWords) :
    h.Clean (Stmt.classDecl stamp' head (members ++ more)).names := by
  obtain ⟨hname, hrest⟩ := Clean.cons.mp hs
  obtain ⟨hderives, hmembers⟩ := Clean.append.mp hrest
  refine Clean.cons.mpr ⟨hname, Clean.append.mpr ⟨hderives, fun name hn => ?_⟩⟩
  rw [Member.namesAll_eq_flatMap, List.flatMap_append, ← Member.namesAll_eq_flatMap] at hn
  rcases List.mem_append.mp hn with hn | hn
  · exact hmembers name hn
  · obtain ⟨m, hm, hn⟩ := List.mem_flatMap.mp hn
    rcases List.mem_cons.mp (hmore m hm hn) with rfl | hn
    · exact hname
    · exact Standard.spares_methodWords _ name hn

/-- What is left of a class is a class in its place. -/
theorem expandClass_kept (hs : h.Clean s.names) {st : Expansion} (hst : h.Reaches st) :
    h.Reaches ((expandClass h.setting s).run st).2 ∧
      st.shop.hoisted ≤ ((expandClass h.setting s).run st).2.shop.hoisted ∧
      ∀ kept, ((expandClass h.setting s).run st).1 = .ok kept →
        ∃ s', kept = some s' ∧ h.Clean s'.names ∧ s.SameHead s' := by
  have hsame (st' : Expansion) (hst' : h.Reaches st') (hle : st.shop.hoisted ≤ st'.shop.hoisted) :
      h.Reaches st' ∧ st.shop.hoisted ≤ st'.shop.hoisted ∧ ∀ kept : Option Stmt,
        (.ok (some s) : Except Error (Option Stmt)) = .ok kept →
          ∃ s', kept = some s' ∧ h.Clean s'.names ∧ s.SameHead s' :=
    ⟨hst', hle, fun kept hkept => ⟨s, (Except.ok.inj hkept).symm, hs, .refl s⟩⟩
  cases s with
  | classDecl stamp head members =>
    have hreported := reportUnresolved_tidy h.setting.unresolvedDerive head.name
      (h.setting.registry.unresolvedDerives head) st hst (.nil st)
    unfold expandClass
    dsimp only
    rw [run_bind]
    generalize (reportUnresolved h.setting.unresolvedDerive head.name
      (h.setting.registry.unresolvedDerives head)).run st = reported at hreported
    obtain ⟨err | ok, st₁⟩ := reported
    · exact ⟨hreported.1, hreported.2.1, nofun⟩
    · dsimp only at hreported ⊢
      cases h.setting.registry.deriveDeclarations head with
      | nil => exact hsame st₁ hreported.1 hreported.2.1
      | cons d ds =>
        have hloaded := hooksForAll_tidy (d :: ds) st₁ hreported.1 (.nil st₁)
        have hof := hooksForAll_answers (d :: ds) st₁ hreported.1
        dsimp only
        rw [run_bind]
        generalize (hooksForAll (d :: ds)).run st₁ = loaded at hloaded hof
        obtain ⟨err | derives, st₂⟩ := loaded
        · exact ⟨hloaded.1, Nat.le_trans hreported.2.1 hloaded.2.1, nofun⟩
        · obtain ⟨more, next, hmore, hnext, hrun⟩ :=
            Standard.transformClass_class h.setting.file stamp head st₂.patcher (hof derives rfl)
              members st₂.shop
          simp only [run_bind, run_get, run_work, run_modify, hrun]
          refine ⟨⟨hloaded.1.hooks, ?_, Nat.le_trans hloaded.1.bound_le hnext, hloaded.1.patches⟩,
            Nat.le_trans hreported.2.1 hloaded.2.1, fun kept hkept => ?_⟩
          · exact (Beside.append_empty _).trans hloaded.1.beside
          · obtain rfl := Except.ok.inj hkept
            refine ⟨_, rfl, hs.withMembers hmore, .of_not_import rfl rfl rfl rfl⟩
  | _ => exact hsame st hst (Nat.le_refl _)

/-- What is left of a statement of a list stands in its place; if there is nothing, then for an
error. -/
theorem derivedEntry_kept (hs : h.Clean s.names) {st : Expansion} (hst : h.Reaches st) :
    h.Reaches ((derivedEntry h.setting s).run st).2 ∧
      st.shop.hoisted ≤ ((derivedEntry h.setting s).run st).2.shop.hoisted ∧
      ((∃ s', ((derivedEntry h.setting s).run st).1 = some s' ∧ h.Clean s'.names ∧ s.SameHead s') ∨
        ((derivedEntry h.setting s).run st).1 = none ∧
          ((derivedEntry h.setting s).run st).2.halted ≠ none) := by
  unfold derivedEntry
  split
  · obtain ⟨hst', hle, hkept⟩ := expandClass_kept hs hst
    rw [run_bind]
    generalize (expandClass h.setting s).run st = out at hst' hle hkept
    obtain ⟨err | kept, st'⟩ := out
    · exact ⟨⟨hst'.hooks, hst'.beside, hst'.bound_le, hst'.patches⟩, hle,
        .inr ⟨rfl, halt_halted err (none : Option Stmt) st'⟩⟩
    · exact ⟨hst', hle, .inl (hkept kept rfl)⟩
  · exact ⟨hst, Nat.le_refl _, .inl ⟨s, rfl, hs, .refl s⟩⟩

/-- As long as nothing is put beside statements, visiting one is nothing more than that. -/
theorem run_withBeside {x : Walk (List Stmt)} {st : Expansion} (hst : st.beside = .empty)
    (hx : (x.run st).2.beside = .empty) : (withBeside x).run st = x.run st := by
  obtain ⟨shop, hooks, patcher, beside, expanding, runs, warnings, halted⟩ := st
  obtain rfl : beside = .empty := hst
  simp only [withBeside, run_bind, run_get, run_modify, run_pure]
  generalize x.run _ = out at hx
  obtain ⟨visited, shop', hooks', patcher', beside', expanding', runs', warnings', halted'⟩ := out
  obtain rfl : beside' = .empty := hx
  change (([] ++ visited ++ [] : List Stmt), _) = _
  rw [List.nil_append, List.append_nil]

theorem withBeside_tidy {x : Walk (List Stmt)} (hx : h.Tidy carried x Stmt.namesAll) :
    h.Tidy carried (withBeside x) Stmt.namesAll := by
  intro st hst hcarried
  rw [run_withBeside hst.beside (hx st hst hcarried).1.beside]
  exact hx st hst hcarried

/-- What is left of a statement is visited. -/
theorem visited_tidy {visit : Stmt → Walk Stmt}
    (hvisit : ∀ s, h.Clean s.names → h.Tidy [] (visit s) Stmt.names) (hs : h.Clean s.names) :
    h.Tidy s.names (derivedEntry h.setting s >>= visitKept visit) Stmt.namesAll := by
  have hkept : h.Tidy s.names (derivedEntry h.setting s) fun _ => [] := fun st hst _ =>
    have hkept := derivedEntry_kept hs hst
    ⟨hkept.1, hkept.2.1, nofun⟩
  have hanswers : h.Answers (derivedEntry h.setting s) fun kept =>
      ∀ s', kept = some s' → h.Clean s'.names := by
    intro st hst s' heq
    rcases (derivedEntry_kept hs hst).2.2 with ⟨left, hleft, hclean, -⟩ | ⟨hnone, -⟩
    · obtain rfl := Option.some.inj (hleft.symm.trans heq)
      exact hclean
    · cases hnone.symm.trans heq
  refine hkept.bindWith hanswers fun kept hclean => ?_
  cases kept with
  | none => exact .pure (List.nil_subset _)
  | some s' =>
    refine ((hvisit s' (hclean s' rfl)).mono (List.nil_subset _)).bind fun s'' => .pure ?_
    simp [Stmt.namesAll]

theorem expandEntry_tidy {visit : Stmt → Walk Stmt}
    (hvisit : ∀ s, h.Clean s.names → h.Tidy [] (visit s) Stmt.names) (hs : h.Clean s.names) :
    h.Tidy s.names (expandEntry h.setting visit s) Stmt.namesAll :=
  .unless_halted (by simp [Stmt.namesAll]) (withBeside_tidy (visited_tidy hvisit hs))

/-- One statement comes to one statement in its place. -/
theorem expandEntry_sameHead {visit : Stmt → Walk Stmt}
    (hvisit : ∀ s, h.Clean s.names → h.Tidy [] (visit s) Stmt.names)
    (hsame : ∀ (s : Stmt) st, s.SameHead ((visit s).run st).1)
    (hs : h.Clean s.names) {st : Expansion} (hst : h.Reaches st)
    (hhalted : ((expandEntry h.setting visit s).run st).2.halted = none) :
    ∃ s', ((expandEntry h.setting visit s).run st).1 = [s'] ∧ s.SameHead s' := by
  have hinner := (visited_tidy hvisit hs st hst (hs.given st)).1.beside
  rw [expandEntry, run_unless_halted] at hhalted ⊢
  split
  · exact ⟨s, rfl, .refl s⟩
  · rename_i hnot
    rw [if_neg hnot, run_withBeside hst.beside hinner, run_bind] at hhalted
    rw [run_withBeside hst.beside hinner, run_bind]
    have hkept := (derivedEntry_kept hs hst).2.2
    generalize (derivedEntry h.setting s).run st = out at hkept hhalted
    obtain ⟨left, st'⟩ := out
    rcases hkept with ⟨s', rfl, -, hhead⟩ | ⟨rfl, hhalt⟩
    · exact ⟨_, rfl, hhead.trans (hsame s' st')⟩
    · exact absurd hhalted hhalt

end Classes

/-- What is visited is part of the file, or a leaf that a hook put there; what a visit comes to has no
hoisted names but those that were given. -/
theorem expand_tidy (n : ℕ) :
    (∀ e, h.Clean e.names ∨ Leaf e → h.Tidy e.names (expandExpr h.setting n e) Expr.names) ∧
    (∀ s, h.Clean s.names → h.Tidy s.names (expandStmt h.setting n s) Stmt.names) ∧
    ∀ ss, h.Clean (Stmt.namesAll ss) →
      h.Tidy (Stmt.namesAll ss) (expandStmts h.setting n ss) Stmt.namesAll := by
  -- The induction is on the bound of the depth. Leaves of hooks are visited too, so expressions need
  -- not be clean: a name that was given is carried through the visit.
  induction n with
  | zero =>
    exact ⟨fun _ _ => .halt_pure _ (List.Subset.refl _), fun _ _ => .halt_pure _ (List.Subset.refl _),
      fun _ _ => .halt_pure _ (List.Subset.refl _)⟩
  | succ n ih =>
    obtain ⟨hexpr, hstmt, hstmts⟩ := ih
    have hchildren : h.TidyChildren (children h.setting n) :=
      ⟨fun e he => .of_clean he (hexpr e (.inl he)), fun s hs => .of_clean hs (hstmt s hs),
        fun ss hss => .of_clean hss (hstmts ss hss)⟩
    have hinside (e : Expr) (he : h.Clean e.names ∨ Leaf e) :
        h.Tidy e.names (e.mapChildren (children h.setting n)) Expr.names := by
      rcases he with he | hleaf
      · exact hchildren.expr he
      · cases hleaf <;> exact .pure (List.Subset.refl _)
    refine ⟨fun e he => .unless_halted (List.Subset.refl _) ?_, fun s hs => hchildren.stmt hs,
      fun ss hss => ?_⟩
    · cases hgoverning : governing? h.setting e with
      | none => exact hinside e he
      | some d =>
        rcases he with he | hleaf
        · intro st hst hcarried
          rw [run_bind, run_get, run_ite]
          split
          · exact hinside e (.inl he) st hst hcarried
          · exact expandOpen_tidy hexpr hinside he st hst hcarried
        · cases hleaf <;> exact nomatch hgoverning
    · have hentry (s : Stmt) (hs : s ∈ ss) :
          h.Tidy [] (expandEntry h.setting (expandStmt h.setting n) s) Stmt.namesAll := by
        have hown : h.Clean s.names := fun name hname => hss name (by
          rw [Stmt.namesAll_eq_flatMap]
          exact List.mem_flatMap.mpr ⟨s, hs, hname⟩)
        exact .of_clean hown (expandEntry_tidy hchildren.onStmt hown)
      refine (Tidy.mapM hentry).bind fun sss => .pure ?_
      rw [Stmt.namesAll_flatten]
      exact List.subset_append_left _ _

section Heads

theorem mapChildren_sameHead (f : ChildMap Walk) (s : Stmt) (st : Expansion) :
    s.SameHead ((s.mapChildren f).run st).1 := by
  cases s with
  | importNames => exact .refl _
  | binding _ kind _ init _ => cases init <;> cases kind <;> exact .of_not_import rfl rfl rfl rfl
  | ret _ value => cases value <;> exact .of_not_import rfl rfl rfl rfl
  | ifElse _ _ _ alternative => cases alternative <;> exact .of_not_import rfl rfl rfl rfl
  | _ => exact .of_not_import rfl rfl rfl rfl

theorem expandStmt_sameHead (n : ℕ) (s : Stmt) (st : Expansion) :
    s.SameHead ((expandStmt h.setting n s).run st).1 := by
  cases n with
  | zero => exact .refl s
  | succ n => exact mapChildren_sameHead (children h.setting n) s st

theorem entries_sameHead (n : ℕ) {ss : List Stmt} (hss : h.Clean (Stmt.namesAll ss))
    {st : Expansion} (hst : h.Reaches st)
    (hhalted : ((ss.mapM (expandEntry h.setting (expandStmt h.setting n))).run st).2.halted = none) :
    List.Forall₂ Stmt.SameHead ss
      ((ss.mapM (expandEntry h.setting (expandStmt h.setting n))).run st).1.flatten := by
  have hvisit (s : Stmt) (hs : h.Clean s.names) :
      h.Tidy [] (expandStmt h.setting n s) Stmt.names := .of_clean hs ((expand_tidy n).2.1 s hs)
  have hrest := entries_asks (expand_asks (g := h.setting) n []).onStmt
  induction ss generalizing st with
  | nil => exact .nil
  | cons s ss ih =>
    obtain ⟨hs, hss⟩ := Clean.append.mp hss
    -- What halts stays halted. So the first statement is left, or the last state were halted.
    simp only [List.mapM_cons, run_bind, run_pure, List.flatten_cons] at hhalted ⊢
    have hmiddle := (hrest ss).awake _ hhalted
    obtain ⟨s', hfirst, hhead⟩ :=
      expandEntry_sameHead hvisit (expandStmt_sameHead n) hs hst hmiddle
    rw [hfirst]
    exact .cons hhead (ih hss (expandEntry_tidy hvisit hs st hst (hs.given st)).1 hhalted)

/-- A list of statements keeps them in their places. -/
theorem expandStmts_sameHead (n : ℕ) {ss : List Stmt} (hss : h.Clean (Stmt.namesAll ss))
    {st : Expansion} (hst : h.Reaches st)
    (hhalted : ((expandStmts h.setting n ss).run st).2.halted = none) :
    List.Forall₂ Stmt.SameHead ss ((expandStmts h.setting n ss).run st).1 := by
  cases n with
  | zero => exact absurd hhalted (halt_halted _ ss st)
  | succ n => exact entries_sameHead n hss hst hhalted

end Heads

end Hoisting

end MacroEngine
