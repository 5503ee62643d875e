import MacroEngine.Proofs.Expansion.Spots
import MacroEngine.Proofs.Registry.Imports

/-!
# What a site means

A site asks for a macro of a kind by a name. What it means is the first declaration that answers: of
the file itself if the file has one, else of the first import that brings one into view. Binding the
sites of a file binds each site to what it means, at whatever depth it stands, and leaves the
registry alone otherwise.
-/

namespace MacroEngine

def Declaration.Answers (d : Declaration) (kind : MacroKind) (name : String) : Prop :=
  d.kind = kind ∧ d.localName = name

instance (d : Declaration) (kind : MacroKind) (name : String) : Decidable (d.Answers kind name) :=
  inferInstanceAs (Decidable (_ ∧ _))

/-- The statement, in the file at a path, imports the declaration by its name. -/
def Stmt.Imports (path : SourcePath) (d : Declaration) : Stmt → Prop
  | .importNames _ names specifier =>
    isRelative specifier = true ∧ d.file.moduleKey = path.importKey specifier ∧ d.localName ∈ names
  | _ => False

instance (path : SourcePath) (d : Declaration) (stmt : Stmt) : Decidable (stmt.Imports path d) :=
  match stmt with
  | .importNames _ _ _ => inferInstanceAs (Decidable (_ ∧ _))
  | .function _ _ _ | .classDecl _ _ _ | .binding _ _ _ _ _ | .expr _ _ | .ret _ _
  | .ifElse _ _ _ _ | .whileLoop _ _ _ | .forOf _ _ _ _ _ | .block _ _ | .defer _ _
  | .tryFinally _ _ _ | .throwExpr _ _ | .empty _ => inferInstanceAs (Decidable False)

namespace Registry

variable {r : Registry} {file : SourceFile} {kind : MacroKind} {name : String} {d : Declaration}

/-- The declaration that a kind and a name mean in a file. -/
inductive Means (r : Registry) (file : SourceFile) (kind : MacroKind) (name : String) :
    Declaration → Prop
  /-- The file itself declares it. -/
  | own {d : Declaration} (h : IsFirst (·.Answers kind name) (r.inFile file.path) d) :
    Means r file kind name d
  /-- A statement imports it; the file declares none such, nor does a statement before import any. -/
  | imported {d : Declaration} {stmt : Stmt} {earlier later : List Stmt}
    (hown : ∀ d' ∈ r.inFile file.path, ¬ d'.Answers kind name)
    (hstmt : file.statements = earlier ++ stmt :: later)
    (hearlier : ∀ s ∈ earlier, ∀ d' ∈ r.declarations,
      s.Imports file.path d' → ¬ d'.Answers kind name)
    (h : IsFirst (fun d' => stmt.Imports file.path d' ∧ d'.Answers kind name) r.declarations d) :
    Means r file kind name d

section Means

theorem suppliedBy_eq (r : Registry) (path : SourcePath) (stmt : Stmt) :
    r.suppliedBy path stmt = r.declarations.filter fun d => stmt.Imports path d := by
  cases stmt with
  | importNames stamp names specifier =>
    rw [suppliedBy]
    cases hrelative : isRelative specifier <;> simp [Stmt.Imports, hrelative]
  | _ => exact (List.filter_eq_nil_iff.mpr fun d _ h => (of_decide_eq_true h : False)).symm

/-- What a kind and a name mean is the first of the declarations in view that answers. -/
theorem means_iff : r.Means file kind name d ↔
    (r.visible file).find? (fun d => d.Answers kind name) = some d := by
  rw [visible_eq, List.find?_append, List.find?_flatMap, Option.or_eq_some_iff,
    List.findSome?_eq_some_iff]
  simp only [suppliedBy_eq, List.find?_filter, decide_eq_true_eq]
  constructor
  · intro h
    cases h with
    | own h => exact .inl (isFirst_iff.mp h)
    | @imported stmt earlier later hown hstmt hearlier h =>
      refine .inr ⟨?_, earlier, stmt, later, hstmt, isFirst_iff.mp h, fun s hs => ?_⟩
      · simpa using hown
      · simpa using hearlier s hs
  · rintro (h | ⟨hown, earlier, stmt, later, hstmt, h, hearlier⟩)
    · exact .own (isFirst_iff.mpr h)
    · refine .imported (by simpa using hown) hstmt (fun s hs => ?_) (isFirst_iff.mpr h)
      simpa using hearlier s hs

theorem Means.eq {d' : Declaration} (h : r.Means file kind name d) (h' : r.Means file kind name d') :
    d = d' := Option.some.inj ((means_iff.mp h).symm.trans (means_iff.mp h'))

theorem resolve?_eq_some_iff {site : Expr} : resolve? (r.visible file) site = some (kind, d) ↔
    ∃ name, site.useSite? = some (kind, name) ∧ r.Means file kind name d := by
  have hanswers : ∀ name, (fun d : Declaration => d.kind = kind && d.localName = name) =
      fun d => decide (d.Answers kind name) := fun name => funext fun d => (Bool.decide_and _ _).symm
  rw [resolve?, Option.bind_eq_some_iff]
  constructor
  · rintro ⟨⟨kind', name⟩, huse, h⟩
    obtain ⟨d', hfind, heq⟩ := Option.map_eq_some_iff.mp h
    obtain ⟨rfl, rfl⟩ := Prod.mk.inj heq
    exact ⟨name, huse, means_iff.mpr (hanswers name ▸ hfind)⟩
  · rintro ⟨name, huse, h⟩
    exact ⟨(kind, name), huse, Option.map_eq_some_iff.mpr
      ⟨d, (hanswers name).symm ▸ means_iff.mp h, rfl⟩⟩

end Means

def Resolves (r : Registry) (file : SourceFile) (i : Item) : Prop :=
  ∃ site kind name d, i = .expr site ∧ site.useSite? = some (kind, name) ∧ r.Means file kind name d

theorem resolves_iff {i : Item} : r.Resolves file i ↔
    (i.expr?.bind (resolve? (r.visible file))).isSome = true := by
  constructor
  · rintro ⟨site, kind, name, d, rfl, huse, h⟩
    exact Option.isSome_iff_exists.mpr ⟨(kind, d), resolve?_eq_some_iff.mpr ⟨name, huse, h⟩⟩
  · intro h
    obtain ⟨⟨kind, d⟩, h⟩ := Option.isSome_iff_exists.mp h
    obtain ⟨site, hsite, hresolve⟩ := Option.bind_eq_some_iff.mp h
    obtain ⟨name, huse, hmeans⟩ := resolve?_eq_some_iff.mp hresolve
    cases i with
    | stmt s => cases hsite
    | expr e =>
      obtain rfl := Option.some.inj hsite
      exact ⟨e, kind, name, d, rfl, huse, hmeans⟩

instance (i : Item) : Decidable (r.Resolves file i) := decidable_of_iff _ resolves_iff.symm

section Binding

variable {site : NodeId}

/-- Of the bindings of one kind that are made at a node, the last stays. -/
theorem binding?_foldl (r : Registry) (found : List (MacroKind × Declaration × NodeId))
    (kind : MacroKind) (site : NodeId) :
    (found.foldl (fun r (kind, d, site) => r.bind kind d site) r).binding? kind site =
      ((found.reverse.find? fun entry => (entry.1, entry.2.2) == (kind, site)).map (·.2.1)).or
        (r.binding? kind site) := by
  induction found generalizing r with
  | nil => rfl
  | cons entry found ih =>
    rw [List.foldl_cons, ih, List.reverse_cons, List.find?_append, binding?_bind]
    cases found.reverse.find? fun entry => (entry.1, entry.2.2) == (kind, site) with
    | some last => rfl
    | none => cases hkey : (entry.1, entry.2.2) == (kind, site) <;> simp [hkey]

theorem foldl_bind_bindings (r : Registry) (found : List (MacroKind × Declaration × NodeId))
    (bindings : Table (MacroKind × NodeId) Declaration) :
    { found.foldl (fun r (kind, d, site) => r.bind kind d site) r with bindings := bindings } =
      { r with bindings := bindings } := by
  induction found generalizing r with
  | nil => rfl
  | cons entry found ih => exact ih (r.bind entry.1 entry.2.1 entry.2.2)

/-- The bindings that are made are those of the sites that mean a declaration. -/
theorem mem_resolved : (kind, d, site) ∈ file.sites.filterMap (resolved? (r.visible file)) ↔
    ∃ e name, file.Holds (.expr e) ∧ e.id = site ∧ e.useSite? = some (kind, name) ∧
      r.Means file kind name d := by
  rw [List.mem_filterMap]
  constructor
  · rintro ⟨e, he, hresolved⟩
    obtain ⟨⟨kind', d'⟩, hresolve, heq⟩ := Option.map_eq_some_iff.mp hresolved
    obtain ⟨rfl, rfl, rfl⟩ : kind' = kind ∧ d' = d ∧ e.id = site := by simpa using heq
    obtain ⟨name, huse, h⟩ := resolve?_eq_some_iff.mp hresolve
    exact ⟨e, name, SourceFile.holds_iff.mpr (mem_items_of_mem_sites he), rfl, huse, h⟩
  · rintro ⟨e, name, he, rfl, huse, h⟩
    refine ⟨e, List.mem_filter.mpr ⟨List.mem_filterMap.mpr ⟨.expr e, SourceFile.holds_iff.mp he,
      rfl⟩, by rw [huse]; rfl⟩, ?_⟩
    rw [resolved?, resolve?_eq_some_iff.mpr ⟨name, huse, h⟩]
    rfl

/-- One binding is made for each node that resolves. -/
theorem length_resolved (r : Registry) (file : SourceFile) :
    (file.sites.filterMap (resolved? (r.visible file))).length =
      file.items.countP fun i => r.Resolves file i := by
  have hresolves : ∀ i, decide (r.Resolves file i) =
      (i.expr?.bind (resolve? (r.visible file))).isSome := fun i =>
    Bool.eq_iff_iff.mpr (decide_eq_true_iff.trans resolves_iff)
  rw [SourceFile.sites, List.length_filterMap_eq_countP, List.countP_filter, List.countP_filterMap]
  refine List.countP_congr fun i _ => ?_
  rw [hresolves]
  cases i with
  | stmt s => exact Iff.rfl
  | expr e => cases huse : e.useSite? <;> simp [Item.expr?, resolved?, resolve?, huse]

end Binding

/-- Binding the sites of a file: the number is that of the nodes that are sites and mean a
declaration. Such a site is bound to what it means, unless another one of its kind and identity means
something else. Where no site of a kind means anything, what was bound as that kind stays, and so does
all the rest of the registry. -/
theorem bindSites_means (r : Registry) (file : SourceFile) :
    (r.bindSites file).1 = file.items.countP (fun i => r.Resolves file i) ∧
      (∀ site kind name d, file.Holds (.expr site) → site.useSite? = some (kind, name) →
        r.Means file kind name d →
          (∀ other name' d', file.Holds (.expr other) → other.id = site.id →
            other.useSite? = some (kind, name') → r.Means file kind name' d' → d' = d) →
              (r.bindSites file).2.binding? kind site.id = some d) ∧
      (∀ kind id, (∀ site name d, file.Holds (.expr site) → site.id = id →
        site.useSite? = some (kind, name) → ¬ r.Means file kind name d) →
          (r.bindSites file).2.binding? kind id = r.binding? kind id) ∧
      { (r.bindSites file).2 with bindings := r.bindings } = r := by
  rw [bindSites_eq]
  refine ⟨length_resolved r file, ?_, ?_, foldl_bind_bindings r _ r.bindings⟩
  · intro site kind name d hholds huse hmeans hsame
    have hmem : (kind, d, site.id) ∈ file.sites.filterMap (resolved? (r.visible file)) :=
      mem_resolved.mpr ⟨site, name, hholds, rfl, huse, hmeans⟩
    dsimp only
    rw [binding?_foldl]
    cases hlast : (file.sites.filterMap (resolved? (r.visible file))).reverse.find?
        fun entry => (entry.1, entry.2.2) == (kind, site.id) with
    | none => exact absurd BEq.rfl (List.find?_eq_none.mp hlast _ (List.mem_reverse.mpr hmem))
    | some last =>
      obtain ⟨kind', d', id⟩ := last
      have hkey := List.find?_some hlast
      obtain ⟨rfl, rfl⟩ := Prod.mk.inj (eq_of_beq hkey)
      obtain ⟨other, name', hother, hid, huse', hmeans'⟩ :=
        mem_resolved.mp (List.mem_reverse.mp (List.mem_of_find?_eq_some hlast))
      exact congrArg some (hsame other name' d' hother hid huse' hmeans')
  · intro kind id hnone
    dsimp only
    rw [binding?_foldl, List.find?_eq_none.mpr ?_]
    · rfl
    · intro entry hentry hkey
      obtain ⟨kind', d', id'⟩ := entry
      obtain ⟨rfl, rfl⟩ := Prod.mk.inj (eq_of_beq hkey)
      obtain ⟨site, name, hholds, hid, huse, hmeans⟩ :=
        mem_resolved.mp (List.mem_reverse.mp hentry)
      exact hnone site name d' hholds hid huse hmeans

/-- Where nodes have identities of their own, sites of one identity are one site. -/
theorem site_eq_of_id {e e' : Expr} (hids : (file.items.map Item.id).Nodup)
    (h : file.Holds (.expr e)) (h' : file.Holds (.expr e')) (hid : e.id = e'.id) : e = e' :=
  Item.expr.inj (List.inj_on_of_nodup_map hids (SourceFile.holds_iff.mp h)
    (SourceFile.holds_iff.mp h') hid)

section Nested

def declaredFirst : Declaration := ⟨0, .function, "f", .function false, ⟨"m.kn"⟩, ⟨0, 0⟩⟩

def declaredLater : Declaration := ⟨1, .function, "g", .bound "f", ⟨"m.kn"⟩, ⟨0, 0⟩⟩

def nested : SourceFile :=
  ⟨2, ⟨"m.kn"⟩, [.expr ⟨3, ⟨0, 0⟩⟩ (.paren ⟨4, ⟨0, 0⟩⟩ (.invoke ⟨5, ⟨0, 0⟩⟩ "f" []))], ⟨0, 0⟩⟩

/-- Of two declarations that are known by one name, the site means the first. -/
theorem bindSites_nested :
    ((Registry.empty.declareAll [declaredFirst, declaredLater]).bindSites nested).2.binding?
      .function 5 = some declaredFirst := by
  have hmeans : (Registry.empty.declareAll [declaredFirst, declaredLater]).Means nested .function "f"
      declaredFirst := .own ⟨⟨rfl, rfl⟩, [], [declaredLater], rfl, nofun⟩
  have hholds : nested.Holds (.expr (.invoke ⟨5, ⟨0, 0⟩⟩ "f" [])) := by
    apply SourceFile.holds_iff.mpr
    exact List.mem_cons_of_mem _ (List.mem_cons_of_mem _ List.mem_cons_self)
  have hids : (nested.items.map Item.id).Nodup := by decide
  obtain ⟨-, hbound, -⟩ :=
    bindSites_means (Registry.empty.declareAll [declaredFirst, declaredLater]) nested
  refine hbound _ _ _ _ hholds rfl hmeans fun other name' d' hother hid huse hmeans' => ?_
  obtain rfl := site_eq_of_id hids hother hholds hid
  obtain rfl : "f" = name' := (Prod.mk.inj (Option.some.inj huse)).2
  exact hmeans'.eq hmeans

end Nested

end Registry

end MacroEngine
