import MacroEngine.Proofs.Order.Matched

/-!
# A registry with other numbers

The registry compares the numbers of nodes and does nothing else with them. So when the nodes of all
files get other numbers, no two of them the same, then what is entered, forgotten and bound is the
same up to these numbers.
-/

namespace MacroEngine

namespace Table

variable {α α' β β' : Type} [BEq α] [BEq α'] (f : α → α') (g : β → β')

def rename (t : Table α β) : Table α' β' := t.map (Prod.map f g)

omit [BEq α] [BEq α'] in
theorem filter_rename {p : α × β → Bool} {q : α' × β' → Bool}
    (h : ∀ entry, q (Prod.map f g entry) = p entry) (t : Table α β) :
    (t.rename f g).filter q = rename f g (t.filter p) := by
  rw [rename, List.filter_map]
  exact congrArg (List.map _) (List.filter_congr fun entry _ => h entry)

variable {f} (hf : ∀ k k', (f k == f k') = (k == k'))

include hf

theorem get?_rename (key : α) (t : Table α β) : get? (f key) (t.rename f g) = (get? key t).map g := by
  induction t with
  | nil => rfl
  | cons entry rest ih =>
    obtain ⟨k, v⟩ := entry
    change (if f k == f key then some (g v) else get? (f key) (rename f g rest)) =
      (if k == key then some v else get? key rest).map g
    rw [hf, ih]
    split <;> rfl

theorem insert_rename (key : α) (value : β) (t : Table α β) :
    insert (f key) (g value) (t.rename f g) = (insert key value t).rename f g := by
  induction t with
  | nil => rfl
  | cons entry rest ih =>
    obtain ⟨k, v⟩ := entry
    change (if f k == f key then (f k, g value) :: rename f g rest
      else (f k, g v) :: insert (f key) (g value) (rename f g rest)) = _
    rw [hf, ih, insert]
    split <;> rfl

theorem erase_rename (key : α) (t : Table α β) :
    erase (f key) (t.rename f g) = (erase key t).rename f g := by
  refine filter_rename f g (fun entry => ?_) t
  exact congrArg (! ·) (hf entry.1 key)

end Table

namespace Registry

open Table

variable (ρ : NodeId → NodeId)

def renumberSite (site : MacroKind × NodeId) : MacroKind × NodeId := (site.1, ρ site.2)

def renumber (r : Registry) : Registry where
  declarations := r.declarations.map (Declaration.renumber ρ)
  byId := Table.rename ρ (Declaration.renumber ρ) r.byId
  bindings := Table.rename (renumberSite ρ) (Declaration.renumber ρ) r.bindings
  derives := Table.rename id (Declaration.renumber ρ) r.derives
  byFile := Table.rename id (List.map (Declaration.renumber ρ)) r.byFile
  metaprogram := r.metaprogram

theorem inFile_renumber (r : Registry) (path : SourcePath) :
    (r.renumber ρ).inFile path = (r.inFile path).map (Declaration.renumber ρ) := by
  have hget := get?_rename (List.map (Declaration.renumber ρ)) (f := id) (fun _ _ => rfl) path r.byFile
  rw [inFile, inFile, renumber]
  refine (congrArg (Option.getD · []) hget).trans ?_
  cases Table.get? path r.byFile <;> rfl

theorem derive?_renumber (r : Registry) (name : String) :
    (r.renumber ρ).derive? name = (r.derive? name).map (Declaration.renumber ρ) :=
  get?_rename (Declaration.renumber ρ) (f := id) (fun _ _ => rfl) name r.derives

theorem addMetaprogramFile_renumber (r : Registry) (path : SourcePath) :
    (r.renumber ρ).addMetaprogramFile path =
      ((r.addMetaprogramFile path).1, (r.addMetaprogramFile path).2.renumber ρ) := by
  unfold addMetaprogramFile
  change (if r.metaprogram.any (· == path) then _ else _) = _
  split <;> rfl

theorem addFiles_renumber (r : Registry) (pending : List SourcePath) (added : Nat)
    (files : List SourceFile) :
    (r.renumber ρ).addFiles pending added (files.map (SourceFile.renumber ρ)) =
      ((r.addFiles pending added files).1.renumber ρ, (r.addFiles pending added files).2) := by
  induction files generalizing r pending added with
  | nil => rfl
  | cons file files ih =>
    have hpath : (file.renumber ρ).path = file.path := rfl
    rw [List.map_cons, addFiles, addFiles, hpath, addMetaprogramFile_renumber]
    obtain ⟨_ | _, r'⟩ := r.addMetaprogramFile file.path
    · exact ih r' pending added
    · exact ih r' (file.path :: pending) (added + 1)

theorem importedFiles_renumber (files : List SourceFile) (file : SourceFile) :
    importedFiles (files.map (SourceFile.renumber ρ)) (file.renumber ρ) =
      (importedFiles files file).map (SourceFile.renumber ρ) := by
  unfold importedFiles
  rw [SourceFile.relativeImports_renumber, List.map_flatMap]
  refine congrArg (List.flatMap · _) (funext fun (target, _) => ?_)
  dsimp only
  rw [List.filter_map]
  rfl

/-- Following imports has nothing to do with numbers. -/
theorem followImports_renumber (files : List SourceFile) (n : Nat) (pending : List SourcePath)
    (added : Nat) (r : Registry) :
    followImports (files.map (SourceFile.renumber ρ)) n pending added (r.renumber ρ) =
      ((followImports files n pending added r).1,
        (followImports files n pending added r).2.renumber ρ) := by
  induction n generalizing pending added r with
  | zero => cases pending <;> rfl
  | succ n ih =>
    cases pending with
    | nil => rfl
    | cons path pending =>
      have hfind : (files.map (SourceFile.renumber ρ)).find? (·.path == path) =
          (files.find? (·.path == path)).map (SourceFile.renumber ρ) := by
        rw [List.find?_map]
        rfl
      rw [followImports, followImports, hfind]
      cases files.find? (·.path == path) with
      | none => exact ih pending added r
      | some file =>
        simp only [Option.map_some, importedFiles_renumber, addFiles_renumber]
        exact ih _ _ _

theorem collectDependencies_renumber (r : Registry) (files : List SourceFile) :
    ((r.renumber ρ).collectDependencies (files.map (SourceFile.renumber ρ))).2 =
      (r.collectDependencies files).2.renumber ρ := by
  unfold collectDependencies
  rw [followImports_renumber, List.length_map]
  rfl

section Injective

variable {ρ} (hρ : Function.Injective ρ)

include hρ

theorem beq_renumber (i j : NodeId) : (ρ i == ρ j) = (i == j) := by
  rw [Bool.eq_iff_iff, beq_iff_eq, beq_iff_eq]
  exact hρ.eq_iff

theorem declaration?_renumber (r : Registry) (i : NodeId) :
    (r.renumber ρ).declaration? (ρ i) = (r.declaration? i).map (Declaration.renumber ρ) :=
  get?_rename _ (beq_renumber hρ) i r.byId

theorem beq_renumberSite (site site' : MacroKind × NodeId) :
    (renumberSite ρ site == renumberSite ρ site') = (site == site') := by
  obtain ⟨kind, i⟩ := site
  obtain ⟨kind', j⟩ := site'
  exact congrArg (kind == kind' && ·) (beq_renumber hρ i j)

theorem binding?_renumber (r : Registry) (kind : MacroKind) (i : NodeId) :
    (r.renumber ρ).binding? kind (ρ i) = (r.binding? kind i).map (Declaration.renumber ρ) :=
  get?_rename _ (beq_renumberSite hρ) (kind, i) r.bindings

theorem declare_renumber (r : Registry) (d : Declaration) :
    ((r.renumber ρ).declare (d.renumber ρ)).2 = (r.declare d).2.renumber ρ := by
  have hd := declaration?_renumber hρ r d.id
  cases hknown : r.declaration? d.id with
  | some known =>
    rw [hknown] at hd
    rw [declare_known hknown, declare_known hd]
  | none =>
    rw [hknown] at hd
    rw [declare_new hknown, declare_new hd, inFile_renumber]
    have hid : ∀ p q : SourcePath, (id p == id q) = (p == q) := fun _ _ => rfl
    have hname : ∀ p q : String, (id p == id q) = (p == q) := fun _ _ => rfl
    have hbyId := insert_rename (Declaration.renumber ρ) (beq_renumber hρ) d.id d r.byId
    have hbyFile := insert_rename (List.map (Declaration.renumber ρ)) hid d.file
      (r.inFile d.file ++ [d]) r.byFile
    have hderives := insert_rename (Declaration.renumber ρ) hname d.name d r.derives
    rw [List.map_append] at hbyFile
    simp only [renumber, List.map_append, List.map_cons, List.map_nil, mk.injEq, true_and]
    refine ⟨hbyId, ?_, hbyFile, rfl⟩
    change (if d.kind = .derive then _ else _) = _
    split
    · exact hderives
    · rfl

theorem declareAll_renumber (r : Registry) (ds : List Declaration) :
    (r.renumber ρ).declareAll (ds.map (Declaration.renumber ρ)) = (r.declareAll ds).renumber ρ := by
  induction ds generalizing r with
  | nil => rfl
  | cons d ds ih =>
    rw [List.map_cons, declareAll, List.foldl_cons, declare_renumber hρ]
    exact ih (r.declare d).2

theorem forgetFile_renumber (r : Registry) (path : SourcePath) :
    ((r.renumber ρ).forgetFile path).2 = (r.forgetFile path).2.renumber ρ := by
  have hget := get?_rename (List.map (Declaration.renumber ρ)) (f := id) (fun _ _ => rfl) path r.byFile
  cases hstale : Table.get? path r.byFile with
  | none =>
    rw [hstale] at hget
    rw [forgetFile_none hstale, forgetFile_none hget]
  | some stale =>
    rw [hstale] at hget
    have hgone : ∀ i, ((stale.map (Declaration.renumber ρ)).map (·.id)).contains (ρ i) =
        (stale.map (·.id)).contains i := by
      intro i
      rw [Bool.eq_iff_iff, List.contains_iff_mem, List.contains_iff_mem, List.map_map]
      change ρ i ∈ stale.map (ρ ∘ Declaration.id) ↔ _
      rw [← List.map_map, List.mem_map_of_injective hρ]
    have hkept : ∀ d : Declaration, (!((stale.map (Declaration.renumber ρ)).map (·.id)).contains
        (d.renumber ρ).id) = !(stale.map (·.id)).contains d.id := fun d => congrArg (! ·) (hgone d.id)
    rw [forgetFile_some hstale, forgetFile_some hget]
    simp only [renumber, mk.injEq, and_true]
    refine ⟨?_, ?_, ?_, ?_, ?_⟩
    · rw [List.filter_map]
      exact congrArg (List.map _) (List.filter_congr fun d _ => hkept d)
    · refine filter_rename _ _ (fun entry => ?_) r.byId
      exact congrArg (! ·) (hgone entry.1)
    · refine filter_rename _ _ (fun entry => ?_) r.bindings
      exact hkept entry.2
    · refine filter_rename _ _ (fun entry => ?_) r.derives
      exact hkept entry.2
    · exact erase_rename _ (fun _ _ => rfl) path r.byFile

/-- A file with other numbers is entered the same way, or fails with the same error. -/
theorem collect_renumber (r : Registry) (file : SourceFile) :
    (r.renumber ρ).collect (file.renumber ρ) = (r.collect file).map (renumber ρ) := by
  have herror : (file.renumber ρ).findings.findSome? (Finding.error? file.path) =
      file.findings.findSome? (Finding.error? file.path) := by
    rw [file.findings_renumber, List.findSome?_map]
    refine congrArg (List.findSome? · _) (funext fun f => ?_)
    cases f <;> rfl
  have hpath : (file.renumber ρ).path = file.path := rfl
  have hdeclared := file.declared_renumber ρ
  unfold SourceFile.declared at hdeclared
  rw [collect_eq, collect_eq, hpath, herror]
  cases file.findings.findSome? (Finding.error? file.path) with
  | some e => rfl
  | none =>
    dsimp only
    rw [hdeclared]
    change Except.ok (((r.renumber ρ).forgetFile file.path).2.declareAll _) = _
    rw [forgetFile_renumber hρ, declareAll_renumber hρ]
    rfl

omit hρ in
theorem visible_renumber (r : Registry) (file : SourceFile) :
    (r.renumber ρ).visible (file.renumber ρ) = (r.visible file).map (Declaration.renumber ρ) := by
  unfold visible
  rw [SourceFile.relativeImports_renumber, List.map_append, List.map_flatMap]
  refine congrArg₂ (· ++ ·) (inFile_renumber ρ r file.path)
    (congrArg (List.flatMap · _) (funext fun (target, names) => ?_))
  change List.filter _ (r.declarations.map (Declaration.renumber ρ)) = _
  rw [List.filter_map]
  rfl

theorem bind_renumber (r : Registry) (kind : MacroKind) (d : Declaration) (site : NodeId) :
    (r.renumber ρ).bind kind (d.renumber ρ) (ρ site) = (r.bind kind d site).renumber ρ := by
  have hinsert := insert_rename (Declaration.renumber ρ) (beq_renumberSite hρ) (kind, site) d r.bindings
  rw [bind, bind, renumber, renumber]
  exact congrArg (fun bindings => ({ r.renumber ρ with bindings } : Registry)) hinsert

theorem bindSites_renumber (r : Registry) (file : SourceFile) :
    ((r.renumber ρ).bindSites (file.renumber ρ)).2 = (r.bindSites file).2.renumber ρ := by
  rw [bindSites_eq, bindSites_eq, visible_renumber, SourceFile.resolved_renumber]
  generalize file.sites.filterMap (resolved? (r.visible file)) = found
  dsimp only
  induction found generalizing r with
  | nil => rfl
  | cons entry found ih =>
    rw [List.map_cons, List.foldl_cons, List.foldl_cons, bind_renumber hρ]
    exact ih (r.bind entry.1 entry.2.1 entry.2.2)

/-- A program with other numbers is bound the same way. -/
theorem bound_renumber (r : Registry) (files : List SourceFile) :
    (r.renumber ρ).bound (files.map (SourceFile.renumber ρ)) = (r.bound files).renumber ρ := by
  rw [bound, bound, collectDependencies_renumber]
  generalize (r.collectDependencies files).2 = r
  induction files generalizing r with
  | nil => rfl
  | cons file files ih =>
    rw [List.map_cons, List.foldl_cons, List.foldl_cons, bindSites_renumber hρ]
    exact ih (r.bindSites file).2

end Injective

end Registry

end MacroEngine
