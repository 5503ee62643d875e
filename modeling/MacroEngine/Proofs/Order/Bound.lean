import MacroEngine.Proofs.Order.Declared

/-!
# What sites mean, in whatever order files are registered

A site means a declaration of its own file or of a module that its file imports. At most one file has
a given module, so the files come into view in the same order whatever order they are registered in.
Two registries of the same files with other numbers bind their sites alike.
-/

namespace MacroEngine

section Renumber

variable (ρ : NodeId → NodeId) (file : SourceFile)

@[simp] theorem SourceFile.relativeImports_renumber :
    (file.renumber ρ).relativeImports = file.relativeImports := by
  unfold relativeImports
  rw [SourceFile.renumber, List.filterMap_map]
  refine List.filterMap_congr fun s _ => ?_
  cases s with
  | binding _ _ _ init _ => cases init <;> rfl
  | ret _ value => cases value <;> rfl
  | ifElse _ _ _ alternative => cases alternative <;> rfl
  | _ => rfl

@[simp] theorem SourceFile.sites_renumber :
    (file.renumber ρ).sites = file.sites.map (Expr.renumber ρ) := by
  have hexprs : ∀ items : List Item, (items.map (Item.renumber ρ)).filterMap Item.expr? =
      (items.filterMap Item.expr?).map (Expr.renumber ρ) := by
    intro items
    rw [List.filterMap_map, List.map_filterMap]
    refine List.filterMap_congr fun i _ => ?_
    cases i <;> rfl
  rw [sites, file.items_renumber, hexprs, List.filter_map, sites]
  congr 1
  exact List.filter_congr fun e _ => congrArg Option.isSome (e.useSite?_renumber ρ)

theorem Registry.resolve?_renumber (scope : List Declaration) (e : Expr) :
    resolve? (scope.map (Declaration.renumber ρ)) (e.renumber ρ) =
      (resolve? scope e).map fun found => (found.1, found.2.renumber ρ) := by
  unfold resolve?
  rw [Expr.useSite?_renumber]
  cases e.useSite? with
  | none => rfl
  | some use =>
    obtain ⟨kind, name⟩ := use
    simp only [Option.bind_some, List.find?_map, Option.map_map]
    rfl

theorem SourceFile.resolved_renumber (scope : List Declaration) :
    (file.renumber ρ).sites.filterMap (Registry.resolved? (scope.map (Declaration.renumber ρ))) =
      (file.sites.filterMap (Registry.resolved? scope)).map fun entry =>
        (entry.1, entry.2.1.renumber ρ, ρ entry.2.2) := by
  rw [SourceFile.sites_renumber, List.filterMap_map, List.map_filterMap]
  refine List.filterMap_congr fun e _ => ?_
  simp only [Function.comp, Registry.resolved?, Registry.resolve?_renumber, Option.map_map,
    Expr.id_renumber]
  rfl

end Renumber

/-- A list of lists, at most one of which has an element, can be joined in any order. -/
theorem flatMap_eq_of_perm {α β : Type} {g : α → List β} {as bs : List α} (h : as.Perm bs)
    (hone : as.Pairwise fun a b => g a = [] ∨ g b = []) : as.flatMap g = bs.flatMap g := by
  induction h with
  | nil => rfl
  | cons a _ ih =>
    rw [List.flatMap_cons, List.flatMap_cons, ih (List.pairwise_cons.mp hone).2]
  | swap a b as =>
    have hab := (List.pairwise_cons.mp hone).1 a List.mem_cons_self
    simp only [List.flatMap_cons]
    rcases hab with hnil | hnil <;> simp [hnil]
  | trans h _ ih ih' =>
    exact (ih hone).trans (ih' (hone.perm h fun hor => hor.symm))

/-- Two lists of files that are the same with other numbers and in another order. -/
structure Reordered (π : Nat → Nat) (files files' : List SourceFile) : Prop where
  injective : Function.Injective π
  keys : (files.map (·.path.moduleKey)).Nodup
  perm : files'.Perm (files.map (SourceFile.renumber π))

namespace Reordered

open Registry

variable {π : Nat → Nat} {files files' : List SourceFile} (h : Reordered π files files')

include h

theorem keys' : (files'.map (·.path.moduleKey)).Nodup := by
  rw [(h.perm.map _).nodup_iff, List.map_map]
  exact h.keys

/-- What a module declares comes in the same order. -/
theorem filter_declared {target : List PathComponent} {p : Declaration → Bool}
    (hp : ∀ d, p d = true → d.file.moduleKey = target) (hsame : ∀ d, p (d.renumber π) = p d) :
    (files'.flatMap SourceFile.declared).filter p =
      ((files.flatMap SourceFile.declared).filter p).map (Declaration.renumber π) := by
  have hfile : ∀ file : SourceFile, (file.renumber π).declared.filter p =
      (file.declared.filter p).map (Declaration.renumber π) := by
    intro file
    rw [SourceFile.declared_renumber, List.filter_map, show p ∘ Declaration.renumber π = p from
      funext hsame]
  have hempty : ∀ file : SourceFile, file.path.moduleKey ≠ target → file.declared.filter p = [] := by
    intro file hkey
    refine List.filter_eq_nil_iff.mpr fun d hd haccepts => hkey ?_
    rw [← file.made.file d hd, hp d haccepts]
  have hone : (files.map (SourceFile.renumber π)).Pairwise fun a b =>
      a.declared.filter p = [] ∨ b.declared.filter p = [] := by
    refine List.pairwise_map.mpr ((List.pairwise_map.mp h.keys).imp fun {a b} hne => ?_)
    rw [hfile, hfile]
    by_cases hkey : a.path.moduleKey = target
    · exact .inr (by rw [hempty b fun hb => hne (hkey.trans hb.symm), List.map_nil])
    · exact .inl (by rw [hempty a hkey, List.map_nil])
  calc (files'.flatMap SourceFile.declared).filter p
      = files'.flatMap fun file => file.declared.filter p := List.filter_flatMap
    _ = (files.map (SourceFile.renumber π)).flatMap fun file => file.declared.filter p :=
        (flatMap_eq_of_perm h.perm.symm hone).symm
    _ = files.flatMap fun file => (file.declared.filter p).map (Declaration.renumber π) := by
        rw [List.flatMap_map]
        exact congrArg (List.flatMap · files) (funext hfile)
    _ = ((files.flatMap SourceFile.declared).filter p).map (Declaration.renumber π) := by
        rw [List.filter_flatMap, List.map_flatMap]

theorem mem_declared {d : Declaration} : d ∈ files'.flatMap SourceFile.declared ↔
    ∃ e ∈ files.flatMap SourceFile.declared, e.renumber π = d := by
  rw [(h.perm.flatMap_right SourceFile.declared).mem_iff, List.flatMap_map]
  simp only [List.mem_flatMap, SourceFile.declared_renumber, List.mem_map]
  constructor
  · rintro ⟨file, hfile, e, he, rfl⟩
    exact ⟨e, ⟨file, hfile, he⟩, rfl⟩
  · rintro ⟨e, ⟨file, hfile, he⟩, rfl⟩
    exact ⟨file, hfile, e, he, rfl⟩

variable {r r' : Registry}
  (hr : Follows r ⟨files.flatMap SourceFile.declared, files.flatMap SourceFile.declared⟩)
  (hr' : Follows r' ⟨files'.flatMap SourceFile.declared, files'.flatMap SourceFile.declared⟩)

include hr hr'

/-- A file has the same declarations in view. -/
theorem visible (file : SourceFile) :
    r'.visible (file.renumber π) = (r.visible file).map (Declaration.renumber π) := by
  unfold Registry.visible
  rw [hr.consistent.byFile, hr'.consistent.byFile, hr.live, hr'.live,
    SourceFile.relativeImports_renumber, List.map_append, List.map_flatMap]
  congr 1
  · exact h.filter_declared (fun d hd => SourcePath.moduleKey_eq hd) fun d => rfl
  · congr 1
    funext entry
    exact h.filter_declared (fun d hd => of_decide_eq_true (Bool.and_eq_true_iff.mp hd).1)
      fun d => rfl

/-- A derive name means the same. -/
theorem derive? (hnames : ((files.flatMap SourceFile.declared).filter
    fun d => d.kind = .derive).map Declaration.name |>.Nodup) (name : String) :
    r'.derive? name = (r.derive? name).map (Declaration.renumber π) := by
  have hnames' : (((files'.flatMap SourceFile.declared).filter
      fun d => d.kind = .derive).map Declaration.name).Nodup := by
    have hdeclared := h.perm.flatMap_right SourceFile.declared
    rw [List.flatMap_map, show (fun file => (SourceFile.renumber π file).declared) =
      fun file => file.declared.map (Declaration.renumber π) from
      funext (SourceFile.declared_renumber π), ← List.map_flatMap] at hdeclared
    have hsame := (hdeclared.filter fun d => d.kind = .derive).map Declaration.name
    rw [List.filter_map, List.map_map] at hsame
    exact hsame.nodup_iff.mpr hnames
  ext d
  rw [hr'.derive?_eq_some_iff hnames', Option.map_eq_some_iff]
  simp only [hr.derive?_eq_some_iff hnames, h.mem_declared]
  constructor
  · rintro ⟨⟨e, he, rfl⟩, hnamed⟩
    exact ⟨e, ⟨he, hnamed⟩, rfl⟩
  · rintro ⟨e, ⟨he, hnamed⟩, rfl⟩
    exact ⟨⟨e, he, rfl⟩, hnamed⟩

end Reordered

namespace Registry

def entries (r : Registry) (files : List SourceFile) : List (MacroKind × Declaration × NodeId) :=
  files.flatMap fun file => file.sites.filterMap (resolved? (r.visible file))

/-- Binding sites brings nothing into view. -/
theorem visible_foldl_bind (r : Registry) (found : List (MacroKind × Declaration × NodeId))
    (file : SourceFile) :
    (found.foldl (fun r (kind, d, site) => r.bind kind d site) r).visible file = r.visible file := by
  induction found generalizing r with
  | nil => rfl
  | cons entry found ih => exact ih (r.bind entry.1 entry.2.1 entry.2.2)

theorem foldl_bindSites (r : Registry) (files : List SourceFile) :
    files.foldl (fun r file => (r.bindSites file).2) r =
      (r.entries files).foldl (fun r (kind, d, site) => r.bind kind d site) r := by
  induction files generalizing r with
  | nil => rfl
  | cons file files ih =>
    rw [List.foldl_cons, ih, entries, entries, List.flatMap_cons, List.foldl_append, bindSites_eq]
    congr 1
    congr 1
    funext file
    rw [visible_foldl_bind]

theorem entries_sublist (r : Registry) (files : List SourceFile) :
    ((r.entries files).map (·.2.2)).Sublist ((files.flatMap SourceFile.items).map Item.id) := by
  unfold entries
  induction files with
  | nil => exact .slnil
  | cons file files ih =>
    rw [List.flatMap_cons, List.flatMap_cons, List.map_append, List.map_append]
    exact ((resolved_sublist _ _).trans (sites_sublist file)).append ih

theorem mem_of_binding?_foldl {r : Registry} {found : List (MacroKind × Declaration × NodeId)}
    {kind : MacroKind} {site : NodeId} {d : Declaration}
    (h : (found.foldl (fun r (kind, d, site) => r.bind kind d site) r).binding? kind site = some d) :
    (kind, d, site) ∈ found ∨ r.binding? kind site = some d := by
  induction found generalizing r with
  | nil => exact .inr h
  | cons entry found ih =>
    rcases ih h with hmem | hfirst
    · exact .inl (List.mem_cons_of_mem _ hmem)
    · rw [binding?_bind] at hfirst
      split at hfirst
      · rename_i hkey
        obtain ⟨rfl, rfl⟩ := Prod.mk.inj (eq_of_beq hkey)
        obtain rfl := Option.some.inj hfirst
        exact .inl List.mem_cons_self
      · exact .inr hfirst

theorem binding?_of_bindings_eq_nil {r : Registry} (h : r.bindings = []) (kind : MacroKind)
    (site : NodeId) : r.binding? kind site = none := by
  rw [binding?, h]
  rfl

/-- A site that was not bound before is bound to what it means. -/
theorem binding?_foldl_bindSites {r : Registry} {files : List SourceFile} {kind : MacroKind}
    {site : NodeId} (hunbound : r.binding? kind site = none)
    (hids : ((r.entries files).map (·.2.2)).Nodup) {d : Declaration} :
    (files.foldl (fun r file => (r.bindSites file).2) r).binding? kind site = some d ↔
      (kind, d, site) ∈ r.entries files := by
  rw [foldl_bindSites]
  constructor
  · intro h
    refine (mem_of_binding?_foldl h).resolve_right fun hold => ?_
    rw [hunbound] at hold
    cases hold
  · exact binding?_foldl_of_mem hids

/-- A site that is bound is a node of one of the files, and it is bound to one of their
declarations. -/
theorem Follows.mem_entries {r : Registry} {files : List SourceFile} {ds : List Declaration}
    (hr : Follows r ⟨ds, ds⟩) {kind : MacroKind} {site : NodeId} {d : Declaration}
    (h : (kind, d, site) ∈ r.entries files) :
    site ∈ (files.flatMap SourceFile.items).map Item.id ∧ d ∈ ds := by
  refine ⟨(r.entries_sublist files).subset (List.mem_map_of_mem h), ?_⟩
  obtain ⟨file, -, h⟩ := List.mem_flatMap.mp h
  obtain ⟨e, -, he⟩ := List.mem_filterMap.mp h
  obtain ⟨⟨kind', d'⟩, hresolve, heq⟩ := Option.map_eq_some_iff.mp he
  obtain ⟨-, rfl, -⟩ : kind' = kind ∧ d' = d ∧ e.id = site := by simpa using heq
  have hin := hr.consistent.mem_of_mem_visible (resolve?_eq_some hresolve).1
  rwa [hr.live] at hin

end Registry

namespace Reordered

open Registry

variable {π : Nat → Nat} {files files' : List SourceFile} (h : Reordered π files files')
  {r r' : Registry}
  (hr : Follows r ⟨files.flatMap SourceFile.declared, files.flatMap SourceFile.declared⟩)
  (hr' : Follows r' ⟨files'.flatMap SourceFile.declared, files'.flatMap SourceFile.declared⟩)

include h hr hr'

/-- Sites are bound alike. -/
theorem entries : (r'.entries files').Perm
    ((r.entries files).map fun entry => (entry.1, entry.2.1.renumber π, π entry.2.2)) := by
  refine (h.perm.flatMap_right _).trans (.of_eq ?_)
  unfold Registry.entries
  rw [List.flatMap_map, List.map_flatMap]
  congr 1
  funext file
  rw [h.visible hr hr', SourceFile.resolved_renumber]

theorem binding? (hunbound : r.bindings = []) (hunbound' : r'.bindings = [])
    (hids : ((files.flatMap SourceFile.items).map Item.id).Nodup) (kind : MacroKind) (site : NodeId) :
    (files'.foldl (fun r file => (r.bindSites file).2) r').binding? kind (π site) =
      ((files.foldl (fun r file => (r.bindSites file).2) r).binding? kind site).map
        (Declaration.renumber π) := by
  have hentries := h.entries hr hr'
  have hnodup := List.Nodup.sublist (r.entries_sublist files) hids
  have hnodup' : ((r'.entries files').map (·.2.2)).Nodup := by
    rw [(hentries.map (·.2.2)).nodup_iff, List.map_map]
    have himage := hnodup.map h.injective
    rwa [List.map_map] at himage
  ext d
  rw [binding?_foldl_bindSites (binding?_of_bindings_eq_nil hunbound' kind _) hnodup',
    Option.map_eq_some_iff, hentries.mem_iff, List.mem_map]
  simp only [binding?_foldl_bindSites (binding?_of_bindings_eq_nil hunbound kind site) hnodup]
  constructor
  · rintro ⟨⟨kind', e, site'⟩, hmem, heq⟩
    obtain ⟨rfl, rfl, hsite⟩ : kind' = kind ∧ e.renumber π = d ∧ π site' = π site := by
      simpa using heq
    obtain rfl : site' = site := h.injective hsite
    exact ⟨e, hmem, rfl⟩
  · rintro ⟨e, hmem, rfl⟩
    exact ⟨_, hmem, rfl⟩

end Reordered

end MacroEngine
