import MacroEngine.Proofs.Checking.Memory
import MacroEngine.Proofs.Hoisting.Names

/-!
# What the standard macros ask for

A session over the table of the standard macros runs no other hooks. At an expression they ask for
nothing, or for a string in its place, or for a hoisted name in its place and a constant of that name
in the file; at a class they ask for nothing, or for one more method. No hook puts a statement next to
its site.
-/

namespace MacroEngine

namespace Standard

def registered (environment : Environment) : List Hooks :=
  [⟨[addMethod cloneMethod], []⟩, ⟨[addMethod fieldsMethod], []⟩, ⟨[dedent], [checkString]⟩,
    ⟨[env environment], [checkEnv environment]⟩, ⟨[hoist], []⟩, ⟨[stringify], [checkString]⟩]

def declaration (stamp : Stamp) (n : ℕ) (value : Expr) : Stmt :=
  .binding stamp .constant (hoistedName n) (some value) .internal

/-- Puts a constant after the first import of a file, or at the top if it has none. -/
def place (statements : List Stmt) (binding : Stmt) : Edit :=
  match statements.find? Stmt.isImport with
  | some first => .insertAfter binding fun s => s.id = first.id
  | none => .prepend binding

/-- The names that derived methods write, that of the class apart. -/
def methodWords : List String := ["clone", "Object", "assign", "create", "prototype", "fields"]

inductive AtExpr (statements : List Stmt) (e : Expr) (w : Workshop) : List Edit × Workshop → Prop
    where
  | nothing : AtExpr statements e w ([], w)
  | string (value : String) : AtExpr statements e w
      ([.replace (.expr (.str ⟨w.nextId, ⟨0, 0⟩⟩ value))], { w with nextId := w.nextId + 1 })
  | name (value : Expr) (hvalue : value.names ⊆ e.names) : AtExpr statements e w
      ([place statements (declaration ⟨w.nextId, ⟨0, 0⟩⟩ w.hoisted value),
        .replace (.expr (.ident ⟨w.nextId + 1, ⟨0, 0⟩⟩ (hoistedName w.hoisted)))],
        { w with nextId := w.nextId + 2, hoisted := w.hoisted + 1 })

inductive AtClass (stamp : Stamp) (head : ClassHead) (members : List Member) (w : Workshop) :
    List Edit × Workshop → Prop where
  | nothing : AtClass stamp head members w ([], w)
  | method (m : Member) (next : NodeId) (hm : m.names ⊆ head.name :: methodWords)
      (hnext : w.nextId ≤ next) : AtClass stamp head members w
      ([.replace (.stmt (.classDecl stamp head (members ++ [m])))], { w with nextId := next })

section Turns

variable {environment : Environment} {view : SiteView} {hooks : Hooks} {hook : TransformHook}

theorem cloneMethod_names (head : ClassHead) (members : List Member) (n : NodeId) :
    ((cloneMethod head members).run n).1.names ⊆ head.name :: methodWords ∧
      n ≤ ((cloneMethod head members).run n).2 := by
  unfold cloneMethod
  simp only [StateT.run_bind, Lowering.run_path]
  generalize (segments "Object.assign").length = i
  generalize (segments "Object.create").length = j
  have hassign : (Expr.dotted (n + 1 + 1) "Object.assign").names ⊆ ["Object", "assign"] :=
    Expr.names_dotted _ _
  have hcreate : (Expr.dotted (n + 1 + 1 + i) "Object.create").names ⊆ ["Object", "create"] :=
    Expr.names_dotted _ _
  refine ⟨?_, ?_⟩
  · change "clone" :: ([] ++ (((Expr.dotted (n + 1 + 1) "Object.assign").names ++
      (((Expr.dotted (n + 1 + 1 + i) "Object.create").names ++ (["prototype", head.name] ++ [])) ++
        ([] ++ []))) ++ [])) ⊆ _
    generalize (Expr.dotted (n + 1 + 1) "Object.assign").names = assign at hassign
    generalize (Expr.dotted (n + 1 + 1 + i) "Object.create").names = create at hcreate
    intro x hx
    have hassign : x ∈ assign → x = "Object" ∨ x = "assign" := by simpa using @hassign x
    have hcreate : x ∈ create → x = "Object" ∨ x = "create" := by simpa using @hcreate x
    simp only [List.nil_append, List.append_nil, List.mem_cons, List.mem_append, List.not_mem_nil,
      or_false, methodWords] at hx ⊢
    tauto
  · have hle (n : ℕ) : n ≤ n + 1 + 1 + i + j + 1 + 1 + 1 + 1 + 1 + 1 := by omega
    exact hle n

theorem run_mapM_str (values : List String) (n : NodeId) :
    Expr.namesAll ((values.mapM Fresh.str).run n).1 = [] ∧ n ≤ ((values.mapM Fresh.str).run n).2 := by
  induction values generalizing n with
  | nil => exact ⟨rfl, Nat.le_refl n⟩
  | cons value values ih =>
    rw [List.mapM_cons]
    exact ⟨(ih (n + 1)).1, Nat.le_of_succ_le (ih (n + 1)).2⟩

theorem fieldsMethod_names (head : ClassHead) (members : List Member) (n : NodeId) :
    ((fieldsMethod head members).run n).1.names ⊆ head.name :: methodWords ∧
      n ≤ ((fieldsMethod head members).run n).2 := by
  obtain ⟨hnames, hle⟩ := run_mapM_str (members.filterMap Member.fieldName?) n
  unfold fieldsMethod
  rw [StateT.run_bind]
  generalize ((members.filterMap Member.fieldName?).mapM Fresh.str).run n = out at hnames hle
  obtain ⟨items, k⟩ := out
  refine ⟨?_, Nat.le_trans hle (Nat.le_add_right k 4)⟩
  change "fields" :: ([] ++ (Expr.namesAll items ++ [])) ⊆ _
  rw [show Expr.namesAll items = [] from hnames]
  simp [methodWords]

theorem firstArg?_names {e value : Expr} (h : firstArg? (.expr e) = some value) :
    value.names ⊆ e.names := by
  cases e with
  | invoke s name args =>
    cases args with
    | nil => cases h
    | cons arg args =>
      obtain rfl : arg = value := Option.some.inj h
      intro x hx
      simp [Expr.names, Expr.namesAll, hx]
  | _ => cases h

theorem hoist_atExpr {e : Expr} (hnode : view.node = .expr e) (w : Workshop) :
    AtExpr view.statements e w ((hoist view).run w) := by
  unfold hoist
  rw [hnode]
  cases hvalue : firstArg? (.expr e) with
  | none => exact .nothing
  | some value =>
    have hname : AtExpr view.statements e w _ := .name value (firstArg?_names hvalue)
    unfold place at hname
    dsimp only
    cases hfind : view.statements.find? Stmt.isImport with
    | none =>
      rw [hfind] at hname
      exact hname
    | some first =>
      rw [hfind] at hname
      exact hname

theorem atExpr {e : Expr} (hnode : view.node = .expr e) (hhooks : hooks ∈ registered environment)
    (hhook : hook ∈ hooks.transform) (w : Workshop) :
    AtExpr view.statements e w ((hook view).run w) := by
  simp only [registered, List.mem_cons, List.not_mem_nil, or_false] at hhooks
  rcases hhooks with rfl | rfl | rfl | rfl | rfl | rfl <;> obtain rfl := List.mem_singleton.mp hhook
  · simp only [addMethod, hnode]
    exact .nothing
  · simp only [addMethod, hnode]
    exact .nothing
  · unfold dedent
    rw [hnode]
    cases Node.raw? (.expr e) with
    | none => exact .nothing
    | some raw => exact .string _
  · unfold env
    rw [hnode]
    cases envName? (.expr e) with
    | none => exact .nothing
    | some name => exact .string _
  · exact hoist_atExpr hnode w
  · unfold stringify
    rw [hnode]
    cases firstArg? (.expr e) with
    | none => exact .nothing
    | some arg => exact .string _

theorem addMethod_atClass {stamp : Stamp} {head : ClassHead} {members : List Member}
    (hnode : view.node = .stmt (.classDecl stamp head members))
    {method : ClassHead → List Member → Fresh Member}
    (hmethod : ∀ n, ((method head members).run n).1.names ⊆ head.name :: methodWords ∧
      n ≤ ((method head members).run n).2) (w : Workshop) :
    AtClass stamp head members w ((addMethod method view).run w) := by
  unfold addMethod
  rw [hnode]
  exact .method _ _ (hmethod w.nextId).1 (hmethod w.nextId).2

theorem atClass {stamp : Stamp} {head : ClassHead} {members : List Member}
    (hnode : view.node = .stmt (.classDecl stamp head members))
    (hhooks : hooks ∈ registered environment) (hhook : hook ∈ hooks.transform) (w : Workshop) :
    AtClass stamp head members w ((hook view).run w) := by
  have hargs : firstArg? view.node = none := by rw [hnode]; rfl
  have hraw : view.node.raw? = none := by rw [hnode]; rfl
  have henv : envName? view.node = none := by rw [hnode]; rfl
  simp only [registered, List.mem_cons, List.not_mem_nil, or_false] at hhooks
  rcases hhooks with rfl | rfl | rfl | rfl | rfl | rfl <;> obtain rfl := List.mem_singleton.mp hhook
  · exact addMethod_atClass hnode (cloneMethod_names head members) w
  · exact addMethod_atClass hnode (fieldsMethod_names head members) w
  · simp only [dedent, hraw]
    exact .nothing
  · simp only [env, henv]
    exact .nothing
  · simp only [hoist, hargs]
    exact .nothing
  · simp only [stringify, hargs]
    exact .nothing

theorem transform_of_registered (h : hooks ∈ registered environment) :
    ∃ hook, hooks.transform = [hook] := by
  simp only [registered, List.mem_cons, List.not_mem_nil, or_false] at h
  rcases h with rfl | rfl | rfl | rfl | rfl | rfl <;> exact ⟨_, rfl⟩

end Turns

section Cache

variable {environment : Environment}

/-- A body of the standard macros registers standard hooks and does nothing else. -/
theorem run_body_of_exported {body : MacroBody} (h : Loader.Exported (table environment) body) :
    ∃ hooks ∈ registered environment, ∀ d w, (body d).run w = (hooks, w) := by
  obtain ⟨path, m, hanswer, entry, hentry, rfl⟩ := h
  obtain rfl : module environment = m := Option.some.inj hanswer
  simp only [module, List.mem_cons, List.not_mem_nil, or_false] at hentry
  rcases hentry with rfl | rfl | rfl | rfl | rfl | rfl <;>
    exact ⟨_, by simp [registered], fun _ _ => rfl⟩

end Cache

end Standard

/-- The loader of a cache over the standard macros has only been called, and the hooks that the cache
keeps are standard. -/
structure HookCache.Standard (environment : Standard.Environment) (cache : HookCache) : Prop where
  reached : Loader.Reached (Standard.table environment) cache.loader
  hooks : ∀ i hooks, Table.get? i cache.hooks = some hooks → hooks ∈ Standard.registered environment

namespace HookCache.Standard

variable {environment : Standard.Environment} {cache : HookCache}

theorem new (environment : Standard.Environment) :
    (HookCache.new (Standard.table environment)).Standard environment where
  reached := .new
  hooks _ _ h := by cases h

/-- A request answers standard hooks or an error, and leaves the workshop alone. -/
theorem hooksFor (h : cache.Standard environment) (d : Declaration) (w : Workshop) :
    ((cache.hooksFor d).run w).1.2.Standard environment ∧ ((cache.hooksFor d).run w).2 = w ∧
      ∀ hooks, ((cache.hooksFor d).run w).1.1 = .ok hooks →
        hooks ∈ Standard.registered environment := by
  have hreached := reached_hooksFor (d := d) h.reached w
  change Loader.Reached _ (cache.serve ⟨d, w⟩).after.loader at hreached
  change (cache.serve ⟨d, w⟩).after.Standard environment ∧ (cache.serve ⟨d, w⟩).shop = w ∧
    ∀ hooks, (cache.serve ⟨d, w⟩).answer = .ok hooks → hooks ∈ Standard.registered environment
  rcases cache.serve_cases ⟨d, w⟩ with ⟨hooks, hcached, hs⟩ | ⟨e, l, hl, hs⟩ |
    ⟨body, l, hooks, shop, hnone, hl, hrun, hs⟩ <;> rw [hs] at hreached ⊢
  · refine ⟨h, rfl, fun hooks' heq => ?_⟩
    obtain rfl := Except.ok.inj heq
    exact h.hooks _ _ hcached
  · exact ⟨⟨hreached, h.hooks⟩, rfl, nofun⟩
  · have hexported := (h.reached.exported_of_loadBody (congrArg Prod.fst hl)).elim
      h.reached.exported id
    obtain ⟨standard, hstandard, hbody⟩ := Standard.run_body_of_exported hexported
    obtain ⟨rfl, rfl⟩ := Prod.mk.inj ((hbody d w).symm.trans hrun)
    refine ⟨⟨hreached, fun i hooks' hget => ?_⟩, rfl, fun hooks' heq => ?_⟩
    · dsimp only at hget
      rw [Table.get?_insert] at hget
      split at hget
      · obtain rfl := Option.some.inj hget
        exact hstandard
      · exact h.hooks i hooks' hget
    · obtain rfl := Except.ok.inj heq
      exact hstandard

end HookCache.Standard

namespace Standard

section Folds

variable {environment : Environment} {file : FileView} {hooks : Hooks}

/-- What a site of a standard macro becomes: it stays, or a string or a hoisted name takes its place.
In the last case the file gets a constant of that name, set to a part of the site. -/
inductive SiteLeft (statements : List Stmt) (e : Expr) (patcher : Patcher) (w : Workshop) :
    (Except Error (Expr × Beside) × Patcher) × Workshop → Prop where
  | kept : SiteLeft statements e patcher w ((.ok (e, .empty), patcher), w)
  | string (stamp : Stamp) (value : String) : SiteLeft statements e patcher w
      ((.ok (.str stamp value, .empty), patcher), { w with nextId := w.nextId + 1 })
  | name (stamp : Stamp) (value : Expr) (hvalue : value.names ⊆ e.names) :
      SiteLeft statements e patcher w
        ((.ok (.ident stamp (hoistedName w.hoisted), .empty),
          Edit.patch patcher
            (place statements (declaration ⟨w.nextId, ⟨0, 0⟩⟩ w.hoisted value))),
          { w with nextId := w.nextId + 2, hoisted := w.hoisted + 1 })

theorem transformSite_left (hhooks : hooks ∈ registered environment) (d : Declaration) (e : Expr)
    (patcher : Patcher) (w : Workshop) : SiteLeft file.statements e patcher w
      ((transformSite file d hooks e patcher).run w) := by
  obtain ⟨hook, hhook⟩ := transform_of_registered hhooks
  have hmem : hook ∈ hooks.transform := by rw [hhook]; exact List.mem_singleton_self hook
  have hasked (view : SiteView) (hnode : view.node = .expr e) := atExpr hnode hhooks hmem w
  specialize hasked ⟨.expr e, d, file.path, file.statements⟩ rfl
  unfold transformSite
  rw [hhook]
  simp only [Folded.through, bind_assoc, pure_bind]
  rw [StateT.run_bind]
  generalize (hook ⟨.expr e, d, file.path, file.statements⟩).run w = out at hasked
  cases hasked with
  | nothing => exact .kept
  | string value => exact .string _ value
  | name value hvalue =>
    have hname : SiteLeft file.statements e patcher w _ := .name ⟨w.nextId + 1, e.span⟩ value hvalue
    unfold place at hname ⊢
    cases hfind : file.statements.find? Stmt.isImport <;> rw [hfind] at hname <;> exact hname

variable {stamp : Stamp} {head : ClassHead} {patcher : Patcher}

/-- A derive of the standard macros adds methods to a class and asks for nothing else. -/
theorem through_class (hhooks : hooks ∈ registered environment) (d : Declaration)
    (members : List Member) (w : Workshop) : ∃ more next,
      (∀ m ∈ more, m.names ⊆ head.name :: methodWords) ∧ w.nextId ≤ next ∧
      (Folded.through file d hooks.transform
        ⟨.stmt (.classDecl stamp head members), .empty, patcher⟩).run w =
        (⟨.stmt (.classDecl stamp head (members ++ more)), .empty, patcher⟩,
          { w with nextId := next }) := by
  obtain ⟨hook, hhook⟩ := transform_of_registered hhooks
  have hmem : hook ∈ hooks.transform := by rw [hhook]; exact List.mem_singleton_self hook
  have hasked (view : SiteView) (hnode : view.node = .stmt (.classDecl stamp head members)) :=
    atClass hnode hhooks hmem w
  specialize hasked ⟨.stmt (.classDecl stamp head members), d, file.path, file.statements⟩ rfl
  rw [hhook, Folded.through, StateT.run_bind]
  generalize (hook ⟨.stmt (.classDecl stamp head members), d, file.path, file.statements⟩).run w = out
    at hasked
  cases hasked with
  | nothing => exact ⟨[], w.nextId, List.forall_mem_nil _, Nat.le_refl _, by rw [List.append_nil]; rfl⟩
  | method m next hm hnext =>
    exact ⟨[m], next, fun m' hm' => List.mem_singleton.mp hm' ▸ hm, hnext, rfl⟩

/-- So do several. -/
theorem throughDerives_class {derives : List (Declaration × Hooks)}
    (hderives : ∀ derive ∈ derives, derive.2 ∈ registered environment) (members : List Member)
    (w : Workshop) : ∃ more next,
      (∀ m ∈ more, m.names ⊆ head.name :: methodWords) ∧ w.nextId ≤ next ∧
      (Folded.throughDerives file derives
        ⟨.stmt (.classDecl stamp head members), .empty, patcher⟩).run w =
        (⟨.stmt (.classDecl stamp head (members ++ more)), .empty, patcher⟩,
          { w with nextId := next }) := by
  induction derives generalizing members w with
  | nil => exact ⟨[], w.nextId, List.forall_mem_nil _, Nat.le_refl _, by rw [List.append_nil]; rfl⟩
  | cons derive derives ih =>
    obtain ⟨hhooks, hderives⟩ := List.forall_mem_cons.mp hderives
    obtain ⟨some, next, hsome, hnext, hfirst⟩ := through_class hhooks derive.1 members w
    obtain ⟨more, last, hmore, hlast, hrest⟩ :=
      ih hderives (members ++ some) { w with nextId := next }
    refine ⟨some ++ more, last, ?_, Nat.le_trans hnext hlast, ?_⟩
    · exact List.forall_mem_append.mpr ⟨hsome, hmore⟩
    · rw [Folded.throughDerives, StateT.run_bind, hfirst, ← List.append_assoc]
      exact hrest

variable (file stamp head patcher) in
/-- A class whose derives are standard macros gets more methods. -/
theorem transformClass_class {derives : List (Declaration × Hooks)}
    (hderives : ∀ derive ∈ derives, derive.2 ∈ registered environment) (members : List Member)
    (w : Workshop) : ∃ more next,
      (∀ m ∈ more, m.names ⊆ head.name :: methodWords) ∧ w.nextId ≤ next ∧
      (transformClass file derives (.classDecl stamp head members) patcher).run w =
        ((some (.classDecl stamp head (members ++ more)), .empty, patcher),
          { w with nextId := next }) := by
  obtain ⟨more, next, hmore, hnext, hrun⟩ := throughDerives_class hderives members w
  refine ⟨more, next, hmore, hnext, ?_⟩
  rw [transformClass, StateT.run_bind, hrun]
  rfl

end Folds

end Standard

end MacroEngine
