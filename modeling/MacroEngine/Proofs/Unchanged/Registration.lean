import Mathlib.Data.List.Nodup
import Mathlib.Data.List.Perm.Subperm
import MacroEngine.Proofs.Registry.Consistency
import MacroEngine.Proofs.Unchanged.Walk

/-!
# What registering a file does

A file whose macro function expressions are all set to variables has its declarations entered
without an error. Then each site that means a declaration in view is bound to it, and no other site
is: a site of a new file has an identity that no earlier binding has. So the sites that declarations
govern are as many as the binding of sites answers.
-/

namespace MacroEngine

def Item.macroFunction? : Item → Option Expr
  | .expr (.function s h b) => if h.macroKind.isSome then some (.function s h b) else none
  | _ => none

def Item.macroInit? : Item → Option Expr
  | .stmt (.binding _ _ _ (some e) _) => Item.macroFunction? (.expr e)
  | _ => none

def Finding.isUnbound : Finding → Bool
  | .declares _ => false
  | .unbound _ _ => true

section Findings

variable (path : SourcePath)

theorem countP_ofHead (stamp : Stamp) (shape : DeclarationShape) (name : Option String)
    (kind : Option MacroKind) :
    (Finding.ofHead path stamp shape name kind).countP Finding.isUnbound = 0 := by
  cases kind with
  | none => rfl
  | some kind => cases name <;> rfl

/-- How many macro functions of a tree are bound to nothing: at most as many as are not set to a
variable. -/
def Accounted (findings : List Finding) (items : List Item) : Prop :=
  findings.countP Finding.isUnbound + (items.filterMap Item.macroInit?).length ≤
    (items.filterMap Item.macroFunction?).length

theorem Accounted.nil : Accounted [] [] := Nat.le_refl _

theorem Accounted.append {fs fs' : List Finding} {items more : List Item} (h : Accounted fs items)
    (h' : Accounted fs' more) : Accounted (fs ++ fs') (items ++ more) := by
  simp only [Accounted, List.countP_append, List.filterMap_append, List.length_append] at *
  omega

/-- A node that is no macro function and sets no variable to one. -/
theorem Accounted.cons {fs : List Finding} {i : Item} {items : List Item} (h : Accounted fs items)
    (hf : i.macroFunction? = none) (hi : i.macroInit? = none) : Accounted fs (i :: items) := by
  simpa [Accounted, hf, hi] using h

mutual

theorem Expr.accounted : ∀ e : Expr, Accounted (e.findings path) (e.items true)
  | .ident _ _ | .number _ _ | .str _ _ | .bool _ _ | .null _ | .this _ | .template _ _
  | .tagged _ _ _ => Accounted.nil.cons rfl rfl
  | .array _ es => (Expr.accountedAll es).cons rfl rfl
  | .object _ ps => (Expr.accountedProperties ps).cons rfl rfl
  | .invoke _ _ as => (Expr.accountedAll as).cons rfl rfl
  | .paren _ e | .member _ e _ | .unary _ _ e | .await _ e | .arrowExpr _ _ _ e =>
    e.accounted.cons rfl rfl
  | .call _ c as => (c.accounted.append (Expr.accountedAll as)).cons rfl rfl
  | .binary _ _ a b | .assign _ a b => (a.accounted.append b.accounted).cons rfl rfl
  | .arrow _ _ _ b => (bodyItems_true b ▸ b.accounted).cons rfl rfl
  | .function s h b => by
    have hb := b.accounted
    rw [Expr.findings, Expr.items, bodyItems_true]
    split
    · rename_i hmacro
      simp only [Accounted, List.filterMap_cons, Item.macroFunction?, Item.macroInit?, hmacro,
        if_true, List.length_cons] at hb ⊢
      simp only [List.countP_singleton, Finding.isUnbound, if_true]
      omega
    · rename_i hplain
      exact hb.cons (by simp [Item.macroFunction?, hplain]) rfl

theorem Expr.accountedAll : ∀ es : List Expr,
    Accounted (Expr.findingsAll path es) (Expr.itemsAll true es)
  | [] => .nil
  | e :: es => e.accounted.append (Expr.accountedAll es)

theorem Expr.accountedProperties : ∀ ps : List (String × Expr),
    Accounted (Expr.findingsProperties path ps) (Expr.itemsProperties true ps)
  | [] => .nil
  | (_, e) :: ps => e.accounted.append (Expr.accountedProperties ps)

theorem Stmt.accounted : ∀ s : Stmt, Accounted (s.findings path) (s.items true)
  | .importNames _ _ _ | .empty _ | .binding _ _ _ none _ | .ret _ none =>
    Accounted.nil.cons rfl rfl
  | .function s h b => by
    have hb := b.accounted
    rw [Stmt.findings, Stmt.items, bodyItems_true]
    refine Accounted.cons ?_ rfl rfl
    simpa [Accounted, List.countP_append, countP_ofHead] using hb
  | .classDecl _ _ ms => (Member.accountedAll ms).cons rfl rfl
  | .binding _ _ name (some e) _ => by
    have he := e.accounted
    cases e with
    | function s h b =>
      have hb := b.accounted
      rw [Stmt.findings, Stmt.items, Expr.items, bodyItems_true]
      simp only [Accounted, List.countP_append, countP_ofHead, List.filterMap_cons,
        Item.macroInit?, Item.macroFunction?] at hb ⊢
      cases h.macroKind <;> simp <;> omega
    | _ => exact he.cons rfl rfl
  | .expr _ e | .ret _ (some e) | .throwExpr _ e => e.accounted.cons rfl rfl
  | .ifElse _ c t none => (c.accounted.append t.accounted).cons rfl rfl
  | .ifElse _ c t (some e) => (c.accounted.append (t.accounted.append e.accounted)).cons rfl rfl
  | .whileLoop _ e b | .forOf _ _ _ e b => (e.accounted.append b.accounted).cons rfl rfl
  | .block _ b | .defer _ b => b.accounted.cons rfl rfl
  | .tryFinally _ b f => (b.accounted.append f.accounted).cons rfl rfl

theorem Stmt.accountedAll : ∀ ss : List Stmt,
    Accounted (Stmt.findingsAll path ss) (Stmt.itemsAll true ss)
  | [] => .nil
  | s :: ss => s.accounted.append (Stmt.accountedAll ss)

theorem Member.accountedAll : ∀ ms : List Member,
    Accounted (Member.findingsAll path ms) (Member.itemsAll true ms)
  | [] => .nil
  | .field _ _ none :: ms => Member.accountedAll ms
  | .field _ _ (some e) :: ms => e.accounted.append (Member.accountedAll ms)
  | .method _ _ b :: ms =>
    (bodyItems_true b ▸ b.accounted).append (Member.accountedAll ms)

theorem Block.accounted : ∀ b : Block, Accounted (b.findings path) (b.items true)
  | ⟨_, ss⟩ => Stmt.accountedAll ss

end

end Findings

/-- Every macro function expression is what some variable is set to. -/
def MacrosBound (items : List Item) : Prop :=
  items.filterMap Item.macroFunction? ⊆ items.filterMap Item.macroInit?

section Nodup

variable {items : List Item} (hnodup : (items.map Item.id).Nodup)

include hnodup

theorem nodup_macroFunctions : (items.filterMap Item.macroFunction?).Nodup := by
  refine (List.Nodup.of_map _ hnodup).filterMap fun i i' e hi hi' => ?_
  have hself : ∀ {i : Item}, e ∈ i.macroFunction? → i = .expr e := by
    intro i hi
    simp only [Item.macroFunction?] at hi
    split at hi
    · split at hi <;> simp_all
    · cases hi
  rw [hself hi, hself hi']

/-- If all macro functions are set to variables, none is found that is bound to nothing: a variable
is set to at most one, and no two of them are the same node. -/
theorem countP_isUnbound_eq_zero {fs : List Finding} (h : Accounted fs items)
    (hbound : MacrosBound items) : fs.countP Finding.isUnbound = 0 := by
  have hle := ((nodup_macroFunctions hnodup).subperm hbound).length_le
  simp only [Accounted] at h
  omega

end Nodup

namespace Registry

/-- A file whose macro functions are all set to variables has its declarations entered. -/
theorem collect_of_bound (r : Registry) {file : SourceFile} (hnodup : (file.items.map Item.id).Nodup)
    (hbound : MacrosBound file.items) : r.collect file =
      .ok ((r.forgetFile file.path).2.declareAll (file.findings.filterMap Finding.declaration?)) := by
  have hcount := countP_isUnbound_eq_zero hnodup (Stmt.accountedAll file.path file.statements) hbound
  have hnone : file.findings.findSome? (Finding.error? file.path) = none := by
    refine List.findSome?_eq_none_iff.mpr fun f hf => ?_
    have hnot := List.countP_eq_zero.mp hcount f hf
    cases f with
    | declares d => rfl
    | unbound name span => exact absurd rfl hnot
  rw [collect_eq, hnone]

/-- All sites that are bound have identities below `n`. -/
def BoundBelow (r : Registry) (n : NodeId) : Prop := ∀ entry ∈ r.bindings, entry.1.2 < n

variable {r : Registry} {n : NodeId}

theorem BoundBelow.mono {n' : NodeId} (h : r.BoundBelow n) (hle : n ≤ n') : r.BoundBelow n' :=
  fun entry hentry => Nat.lt_of_lt_of_le (h entry hentry) hle

theorem BoundBelow.of_subset {r' : Registry} (h : r.BoundBelow n) (hsub : r'.bindings ⊆ r.bindings) :
    r'.BoundBelow n := fun entry hentry => h entry (hsub hentry)

theorem BoundBelow.bind (h : r.BoundBelow n) (kind : MacroKind) (d : Declaration) {site : NodeId}
    (hsite : site < n) : (r.bind kind d site).BoundBelow n := by
  intro entry hentry
  rcases Table.key_of_mem_insert hentry with hkey | ⟨v, hv⟩
  · rw [hkey]
    exact hsite
  · exact h (entry.1, v) hv

theorem bindings_forgetFile (r : Registry) (path : SourcePath) :
    (r.forgetFile path).2.bindings ⊆ r.bindings := by
  unfold forgetFile
  split
  · exact List.Subset.refl _
  · exact List.filter_subset_self _

theorem bindings_declareAll (r : Registry) (ds : List Declaration) :
    (r.declareAll ds).bindings = r.bindings := by
  induction ds generalizing r with
  | nil => rfl
  | cons d ds ih =>
    refine (ih (r.declare d).2).trans ?_
    unfold declare
    split <;> rfl

/-- Entering the declarations of a file binds no site. -/
theorem bindings_collect {r' : Registry} {file : SourceFile} (h : r.collect file = .ok r') :
    r'.bindings ⊆ r.bindings := by
  rw [collect_eq] at h
  split at h
  · cases h
  · obtain rfl := Except.ok.inj h
    rw [bindings_declareAll]
    exact bindings_forgetFile r file.path

theorem bindings_collectDependencies (r : Registry) (files : List SourceFile) :
    (r.collectDependencies files).2.bindings = r.bindings := by
  apply collectDependencies_induction (P := fun r' => r'.bindings = r.bindings)
  · intro r' path h
    unfold addMetaprogramFile
    split <;> exact h
  · rfl

theorem binding?_bind (kind kind' : MacroKind) (d : Declaration) (site site' : NodeId) :
    (r.bind kind d site).binding? kind' site' =
      if (kind, site) == (kind', site') then some d else r.binding? kind' site' :=
  Table.get?_insert _ _ _ _

/-- A site that has not been given yet is not bound. -/
theorem BoundBelow.binding?_eq_none (h : r.BoundBelow n) (kind : MacroKind) {site : NodeId}
    (hsite : n ≤ site) : r.binding? kind site = none := by
  refine Option.eq_none_iff_forall_ne_some.mpr fun d hd => ?_
  exact absurd (h _ (Table.mem_of_get? hd)) (Nat.not_lt.mpr hsite)

section Sites

variable {entries : List (MacroKind × Declaration × NodeId)}

theorem binding?_foldl_of_not_mem {kind : MacroKind} {site : NodeId}
    (h : ∀ entry ∈ entries, entry.2.2 ≠ site) :
    (entries.foldl (fun r (kind, d, site) => r.bind kind d site) r).binding? kind site =
      r.binding? kind site := by
  induction entries generalizing r with
  | nil => rfl
  | cons entry entries ih =>
    have hne : ((entry.1, entry.2.2) == (kind, site)) = false :=
      beq_eq_false_iff_ne.mpr fun heq => h entry List.mem_cons_self (congrArg Prod.snd heq)
    rw [List.foldl_cons, ih fun entry hentry => h entry (List.mem_cons_of_mem _ hentry), binding?_bind,
      hne]
    rfl

theorem binding?_foldl_of_mem (hnodup : (entries.map (·.2.2)).Nodup) {kind : MacroKind}
    {d : Declaration} {site : NodeId} (h : (kind, d, site) ∈ entries) :
    (entries.foldl (fun r (kind, d, site) => r.bind kind d site) r).binding? kind site = some d := by
  induction entries generalizing r with
  | nil => cases h
  | cons entry entries ih =>
    obtain ⟨hnot, hnodup⟩ := List.nodup_cons.mp hnodup
    rcases List.mem_cons.mp h with rfl | h
    · have hother : ∀ entry ∈ entries, entry.2.2 ≠ site := fun entry hentry heq =>
        hnot (List.mem_map.mpr ⟨entry, hentry, heq⟩)
      rw [List.foldl_cons, binding?_foldl_of_not_mem hother, binding?_bind]
      simp
    · exact ih hnodup h

end Sites

section BindSites

variable {file : SourceFile} {scope : List Declaration}

def resolved? (scope : List Declaration) (e : Expr) : Option (MacroKind × Declaration × NodeId) :=
  (resolve? scope e).map fun (kind, d) => (kind, d, e.id)

theorem resolved?_id {e : Expr} {entry : MacroKind × Declaration × NodeId}
    (h : resolved? scope e = some entry) : entry.2.2 = e.id := by
  obtain ⟨_, _, rfl⟩ := Option.map_eq_some_iff.mp h
  rfl

theorem bindSites_eq (r : Registry) (file : SourceFile) :
    r.bindSites file = ((file.sites.filterMap (resolved? (r.visible file))).length,
      (file.sites.filterMap (resolved? (r.visible file))).foldl
        (fun r (kind, d, site) => r.bind kind d site) r) := rfl

theorem resolved_sublist (scope : List Declaration) (es : List Expr) :
    ((es.filterMap (resolved? scope)).map (·.2.2)).Sublist (es.map Expr.id) := by
  induction es with
  | nil => exact .slnil
  | cons e es ih =>
    cases he : resolved? scope e with
    | none => simpa [he] using ih.cons _
    | some entry => simpa [he, resolved?_id he] using ih

theorem nodup_resolved {es : List Expr} (h : (es.map Expr.id).Nodup) :
    ((es.filterMap (resolved? scope)).map (·.2.2)).Nodup := List.Nodup.sublist (resolved_sublist _ es) h

theorem sites_sublist (file : SourceFile) :
    (file.sites.map Expr.id).Sublist (file.items.map Item.id) := by
  refine List.Sublist.trans (List.filter_sublist.map _) ?_
  induction file.items with
  | nil => exact .slnil
  | cons i items ih =>
    cases i with
    | stmt s => exact ih.cons _
    | expr e => exact ih.cons_cons _

/-- The sites of a file have identities of their own. -/
theorem nodup_sites (h : (file.items.map Item.id).Nodup) : (file.sites.map Expr.id).Nodup :=
  List.Nodup.sublist (sites_sublist file) h

theorem mem_items_of_mem_sites {e : Expr} (h : e ∈ file.sites) : .expr e ∈ file.items := by
  obtain ⟨i, hi, hie⟩ := List.mem_filterMap.mp (List.mem_filter.mp h).1
  cases i with
  | stmt s => cases hie
  | expr e' => exact Option.some.inj hie ▸ hi

/-- A site of a new file is governed by the declaration it means, if there is one. -/
theorem binding?_bindSites (hr : r.BoundBelow n) (hnodup : (file.items.map Item.id).Nodup)
    (hfresh : ∀ i ∈ file.items, n ≤ i.id) {e : Expr} (he : e ∈ file.sites) {kind : MacroKind}
    {name : String} (hsite : e.useSite? = some (kind, name)) :
    (r.bindSites file).2.binding? kind e.id = (resolve? (r.visible file) e).map (·.2) := by
  have hids := nodup_sites hnodup
  rw [bindSites_eq]
  cases hresolve : resolve? (r.visible file) e with
  | some found =>
    obtain ⟨kind', d⟩ := found
    have hkind : kind' = kind := by
      simp only [resolve?, hsite, Option.bind_some, Option.map_eq_some_iff] at hresolve
      obtain ⟨_, _, heq⟩ := hresolve
      exact (congrArg Prod.fst heq).symm
    subst hkind
    refine binding?_foldl_of_mem (nodup_resolved hids) (List.mem_filterMap.mpr ⟨e, he, ?_⟩)
    rw [resolved?, hresolve]
    rfl
  | none =>
    rw [binding?_foldl_of_not_mem fun entry hentry heq => ?_]
    · exact hr.binding?_eq_none kind (hfresh (.expr e) (mem_items_of_mem_sites he))
    · obtain ⟨e', he', hentry⟩ := List.mem_filterMap.mp hentry
      have hsame : e' = e := by
        have hid : e'.id = e.id := (resolved?_id hentry).symm.trans heq
        exact List.inj_on_of_nodup_map hids he' he hid
      rw [hsame, resolved?, hresolve] at hentry
      cases hentry

/-- Binding the sites of a new file answers how many of its nodes are governed then. -/
theorem countP_isGoverned (hr : r.BoundBelow n) (hnodup : (file.items.map Item.id).Nodup)
    (hfresh : ∀ i ∈ file.items, n ≤ i.id) {g : ExpansionSetting}
    (hg : g.registry = (r.bindSites file).2) :
    file.items.countP (Expansion.isGoverned g) = (r.bindSites file).1 := by
  have hresolved : ∀ e ∈ file.sites,
      (governing? g e).isSome = (resolved? (r.visible file) e).isSome := by
    intro e he
    obtain ⟨⟨kind, name⟩, hsite⟩ := Option.isSome_iff_exists.mp (List.mem_filter.mp he).2
    have hbinding := binding?_bindSites hr hnodup hfresh he hsite
    simp [governing?, hsite, hg, hbinding, resolved?]
  have hsites : file.sites.countP (fun e => (governing? g e).isSome) =
      file.items.countP (Expansion.isGoverned g) := by
    rw [SourceFile.sites, List.countP_filter, List.countP_filterMap]
    refine List.countP_congr fun i _ => ?_
    cases i with
    | stmt s => simp [Item.expr?, Expansion.isGoverned]
    | expr e => cases hsite : e.useSite? <;> simp [Item.expr?, Expansion.isGoverned, governing?, hsite]
  rw [← hsites, bindSites_eq, List.length_filterMap_eq_countP]
  refine List.countP_congr fun e he => ?_
  rw [hresolved e he]

theorem BoundBelow.bindSites (hr : r.BoundBelow n) (hbelow : ∀ i ∈ file.items, i.id < n) :
    (r.bindSites file).2.BoundBelow n := by
  rw [bindSites_eq]
  have hentries : ∀ entry ∈ file.sites.filterMap (resolved? (r.visible file)), entry.2.2 < n := by
    intro entry hentry
    obtain ⟨e, he, hentry⟩ := List.mem_filterMap.mp hentry
    rw [resolved?_id hentry]
    exact hbelow (.expr e) (mem_items_of_mem_sites he)
  generalize file.sites.filterMap (resolved? (r.visible file)) = entries at hentries
  induction entries generalizing r with
  | nil => exact hr
  | cons entry entries ih =>
    exact ih (hr.bind _ _ (hentries entry List.mem_cons_self)) fun entry hentry =>
      hentries entry (List.mem_cons_of_mem _ hentry)

end BindSites

end Registry

end MacroEngine
