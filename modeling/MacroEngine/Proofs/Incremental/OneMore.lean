import MacroEngine.Proofs.Order.Matched

/-!
# One more file

When a file is registered beside others, the sites that were bound before stay as they are, and its
own sites mean what is in view then. If the file needs nothing of later files, it makes no difference
to what is in view whether these are registered too.
-/

namespace MacroEngine

def deriveNames (ds : List Declaration) : List String :=
  (ds.filter fun d => d.kind = .derive).map Declaration.name

section DeriveNames

variable {ds more : List Declaration}

theorem deriveNames_append (ds more : List Declaration) :
    deriveNames (ds ++ more) = deriveNames ds ++ deriveNames more := by
  rw [deriveNames, List.filter_append, List.map_append]
  rfl

theorem deriveNames_renumber (ρ : NodeId → NodeId) (ds : List Declaration) :
    deriveNames (ds.map (Declaration.renumber ρ)) = deriveNames ds := by
  rw [deriveNames, List.filter_map, List.map_map]
  rfl

theorem mem_deriveNames {name : String} {d : Declaration} (hd : d ∈ ds)
    (hnamed : Ledger.isNamed name d = true) : name ∈ deriveNames ds := by
  simp only [Ledger.isNamed, Bool.and_eq_true, decide_eq_true_eq] at hnamed
  obtain ⟨hkind, rfl⟩ := hnamed
  exact List.mem_map_of_mem (List.mem_filter.mpr ⟨hd, decide_eq_true hkind⟩)

end DeriveNames

namespace Registry

variable {r r' : Registry} {ds : List Declaration} {file : SourceFile} {files : List SourceFile}

/-- Nothing is unbound when a file is entered that declared nothing before. -/
theorem Follows.bindings_collect (h : Follows r ⟨ds, ds⟩) (hcollect : r.collect file = .ok r')
    (hother : ∀ d ∈ ds, (d.file == file.path) = false) : r'.bindings = r.bindings := by
  obtain ⟨-, rfl⟩ := collect_eq_ok.mp hcollect
  rw [bindings_declareAll]
  cases hstale : Table.get? file.path r.byFile with
  | none => rw [forgetFile_none hstale]
  | some stale =>
    have hempty : stale = [] := by
      have hfile := h.consistent.byFile file.path
      rw [inFile, hstale, h.live] at hfile
      refine hfile.trans (List.filter_eq_nil_iff.mpr fun d hd => ?_)
      rw [hother d hd]
      exact Bool.false_ne_true
    rw [forgetFile_some hstale, hempty]
    exact List.filter_eq_self.mpr fun _ _ => rfl

theorem Follows.bound (h : Follows r ⟨ds, ds⟩) (files : List SourceFile) :
    Follows (r.bound files) ⟨ds, ds⟩ := by
  have hfollow : Follows (r.collectDependencies files).2 ⟨ds, ds⟩ := h.perform (.follow files)
  rw [Registry.bound]
  generalize (r.collectDependencies files).2 = r at hfollow
  clear h
  induction files generalizing r with
  | nil => exact hfollow
  | cons file files ih => exact ih _ (hfollow.perform (.bindSites file))

/-- Binding sites does not change what sites mean. -/
theorem entries_bound (r : Registry) (files more : List SourceFile) :
    (r.bound files).entries more = (r.collectDependencies files).2.entries more := by
  rw [bound, foldl_bindSites, entries, entries]
  congr 1
  funext file
  rw [visible_foldl_bind]

theorem binding?_bound_of_not_mem {kind : MacroKind} {i : NodeId}
    (hi : i ∉ (files.flatMap SourceFile.items).map Item.id) :
    (r.bound files).binding? kind i = r.binding? kind i := by
  have hentries : ∀ entry ∈ (r.collectDependencies files).2.entries files, entry.2.2 ≠ i :=
    fun entry hentry heq =>
      hi (heq ▸ (entries_sublist _ files).subset (List.mem_map_of_mem hentry))
  rw [bound, foldl_bindSites, binding?_foldl_of_not_mem hentries, binding?,
    bindings_collectDependencies, ← binding?]

theorem binding?_bound_eq_some_iff (hids : ((files.flatMap SourceFile.items).map Item.id).Nodup)
    {kind : MacroKind} {i : NodeId} (hunbound : r.binding? kind i = none) {d : Declaration} :
    (r.bound files).binding? kind i = some d ↔ (kind, d, i) ∈ (r.bound files).entries files := by
  rw [entries_bound]
  refine binding?_foldl_bindSites ?_ (List.Nodup.sublist (entries_sublist _ files) hids)
  rw [binding?, bindings_collectDependencies]
  exact hunbound

/-- In a registry that knew some declarations one more file has been registered. -/
structure Adds (r : Registry) (ds : List Declaration) (file : SourceFile) (r' : Registry) : Prop where
  follows : Follows r' ⟨ds ++ file.declared, ds ++ file.declared⟩
  old : ∀ kind i, i ∉ file.items.map Item.id → r'.binding? kind i = r.binding? kind i
  new : ∀ kind i, r.binding? kind i = none → ∀ d,
    r'.binding? kind i = some d ↔ (kind, d, i) ∈ r'.entries [file]

theorem Follows.adds (h : Follows r ⟨ds, ds⟩) (hcollect : r.collect file = .ok r')
    (hother : ∀ d ∈ ds, (d.file == file.path) = false)
    (hdistinct : ((ds ++ file.declared).map Declaration.id).Nodup)
    (hids : (file.items.map Item.id).Nodup) : r.Adds ds file (r'.bound [file]) := by
  have hsame : ∀ kind i, r'.binding? kind i = r.binding? kind i := fun kind i => by
    rw [binding?, h.bindings_collect hcollect hother, ← binding?]
  have hitems : [file].flatMap SourceFile.items = file.items := List.flatMap_singleton ..
  refine ⟨(h.collect hcollect hother hdistinct).bound [file], fun kind i hi => ?_,
    fun kind i hi d => ?_⟩
  · rw [binding?_bound_of_not_mem (hitems ▸ hi), hsame]
  · exact binding?_bound_eq_some_iff (hitems ▸ hids) ((hsame kind i).trans hi)

theorem Adds.mem_declared (h : r.Adds ds file r') {kind : MacroKind} {d : Declaration} {i : NodeId}
    (hentry : (kind, d, i) ∈ r'.entries [file]) : d ∈ ds ++ file.declared :=
  (h.follows.mem_entries hentry).2

end Registry

open Registry

/-- A registry that knows some declarations, and one that knows them with other numbers and later
ones too. -/
structure Ahead (π : Nat → Nat) (ds later : List Declaration) (r r' : Registry) : Prop where
  follows : Follows r ⟨ds, ds⟩
  follows' : Follows r' ⟨ds.map (Declaration.renumber π) ++ later,
    ds.map (Declaration.renumber π) ++ later⟩

namespace Ahead

variable {π : Nat → Nat} {ds later : List Declaration} {r r' : Registry} (h : Ahead π ds later r r')

include h

/-- A file that needs nothing of the later declarations has the same declarations in view. -/
theorem visible {file : SourceFile}
    (hown : ∀ d ∈ later, d.file.moduleKey ≠ file.path.moduleKey)
    (himports : ∀ d ∈ later, d.file.moduleKey ∉ file.relativeImports.map (·.1)) :
    r'.visible (file.renumber π) = (r.visible file).map (Declaration.renumber π) := by
  have hsome : ∀ p : Declaration → Bool, (∀ d, p (d.renumber π) = p d) →
      (∀ d ∈ later, p d = false) →
      (ds.map (Declaration.renumber π) ++ later).filter p =
        (ds.filter p).map (Declaration.renumber π) := by
    intro p hsame hlater
    have hnone : later.filter p = [] :=
      List.filter_eq_nil_iff.mpr fun d hd => Bool.eq_false_iff.mp (hlater d hd)
    rw [List.filter_append, hnone, List.append_nil, List.filter_map]
    exact congrArg (List.map _) (List.filter_congr fun d _ => hsame d)
  unfold Registry.visible
  rw [h.follows.consistent.byFile, h.follows'.consistent.byFile, h.follows.live, h.follows'.live,
    SourceFile.relativeImports_renumber, List.map_append, List.map_flatMap]
  congr 1
  · exact hsome _ (fun d => rfl) fun d hd =>
      Bool.eq_false_iff.mpr fun hsame => hown d hd (SourcePath.moduleKey_eq hsame)
  · refine List.flatMap_congr fun entry hentry => hsome _ (fun d => rfl) fun d hd => ?_
    refine Bool.and_eq_false_imp.mpr fun htarget => absurd ?_ (himports d hd)
    exact of_decide_eq_true htarget ▸ List.mem_map_of_mem hentry

theorem entries {file : SourceFile} (hown : ∀ d ∈ later, d.file.moduleKey ≠ file.path.moduleKey)
    (himports : ∀ d ∈ later, d.file.moduleKey ∉ file.relativeImports.map (·.1)) :
    r'.entries [file.renumber π] =
      (r.entries [file]).map fun entry => (entry.1, entry.2.1.renumber π, π entry.2.2) := by
  rw [Registry.entries, Registry.entries, List.flatMap_singleton, List.flatMap_singleton,
    h.visible hown himports, SourceFile.resolved_renumber]

/-- A site of such a file is bound alike, if in both registries it is bound to what it means. -/
theorem binding? {file : SourceFile} (hown : ∀ d ∈ later, d.file.moduleKey ≠ file.path.moduleKey)
    (himports : ∀ d ∈ later, d.file.moduleKey ∉ file.relativeImports.map (·.1)) {kind : MacroKind}
    {i : NodeId} (hmeant : ∀ d, r.binding? kind i = some d ↔ (kind, d, i) ∈ r.entries [file])
    (hmeant' : ∀ d, r'.binding? kind (π i) = some d ↔
      (kind, d, π i) ∈ r'.entries [file.renumber π])
    (honly : ∀ item ∈ file.items, π item.id = π i → item.id = i) :
    r'.binding? kind (π i) = (r.binding? kind i).map (Declaration.renumber π) := by
  ext d
  rw [hmeant', h.entries hown himports, List.mem_map, Option.map_eq_some_iff]
  simp only [hmeant]
  constructor
  · rintro ⟨⟨kind', e, j⟩, hentry, heq⟩
    obtain ⟨rfl, rfl, hj⟩ : kind' = kind ∧ e.renumber π = d ∧ π j = π i := by simpa using heq
    obtain ⟨item, hitem, rfl⟩ :=
      List.mem_map.mp ((entries_sublist r [file]).subset (List.mem_map_of_mem hentry))
    rw [List.flatMap_singleton] at hitem
    exact ⟨e, honly item hitem hj ▸ hentry, rfl⟩
  · rintro ⟨e, hentry, rfl⟩
    exact ⟨_, hentry, rfl⟩

/-- A name that no later derive has means the same. -/
theorem derive? (hnames : (deriveNames (ds.map (Declaration.renumber π) ++ later)).Nodup)
    {name : String} (hname : name ∉ deriveNames later) :
    r'.derive? name = (r.derive? name).map (Declaration.renumber π) := by
  have hfirst : (deriveNames ds).Nodup := by
    rw [deriveNames_append, deriveNames_renumber] at hnames
    exact (List.nodup_append.mp hnames).1
  ext d
  rw [h.follows'.derive?_eq_some_iff hnames, Option.map_eq_some_iff, List.mem_append]
  simp only [h.follows.derive?_eq_some_iff hfirst]
  constructor
  · rintro ⟨hd | hd, hnamed⟩
    · obtain ⟨e, he, rfl⟩ := List.mem_map.mp hd
      exact ⟨e, ⟨he, hnamed⟩, rfl⟩
    · exact absurd (mem_deriveNames hd hnamed) hname
  · rintro ⟨e, ⟨he, hnamed⟩, rfl⟩
    exact ⟨.inl (List.mem_map_of_mem he), hnamed⟩

end Ahead

end MacroEngine
