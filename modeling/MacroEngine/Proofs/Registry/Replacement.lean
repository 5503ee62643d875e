import MacroEngine.Proofs.Order.Declared
import MacroEngine.Proofs.Registry.Closure

/-!
# Replacing what a file declares

A file is forgotten, and then what it declares is entered. Then the registry holds what it held of
other files, and of this file what was entered and nothing else. The bindings of sites need not be of
the kind of their declaration for that, but have to lead to declarations that the registry holds.
-/

namespace MacroEngine

namespace Registry

open Ledger

variable {r r' : Registry} {path : SourcePath} {d : Declaration} {ds new : List Declaration}

/-- The tables describe one list of declarations, whatever the kinds as which sites are bound to
them. -/
structure Tidy (r : Registry) : Prop where
  tables : ({ r with bindings := [] } : Registry).Consistent
  bindings : ∀ entry ∈ r.bindings, entry.2 ∈ r.declarations

theorem Consistent.tidy (h : r.Consistent) : r.Tidy where
  tables := ⟨h.distinct, h.byId, h.byFile, fun _ hentry => absurd hentry List.not_mem_nil, h.derives,
    h.metaprogram⟩
  bindings entry hentry := (h.bindings entry hentry).1

theorem Tidy.bind (h : r.Tidy) (kind : MacroKind) (hd : d ∈ r.declarations) (site : NodeId) :
    (r.bind kind d site).Tidy where
  tables := h.tables
  bindings entry hentry := by
    rcases Table.mem_insert hentry with ⟨-, hvalue⟩ | hold
    · rw [hvalue]
      exact hd
    · exact h.bindings entry hold

section Forget

/-- What is forgotten apart from bindings does not depend on them. -/
theorem forgetFile_unbound (r : Registry) (path : SourcePath) :
    (({ r with bindings := [] } : Registry).forgetFile path).2 =
      { (r.forgetFile path).2 with bindings := [] } := by
  unfold forgetFile
  dsimp only
  cases Table.get? path r.byFile <;> rfl

theorem Tidy.declarations_forgetFile (h : r.Tidy) (path : SourcePath) :
    (r.forgetFile path).2.declarations = r.declarations.filter fun d => !(d.file == path) := by
  have hforget := h.tables.declarations_forgetFile path
  rwa [forgetFile_unbound] at hforget

theorem Tidy.derives_forgetFile (h : r.Tidy) (path : SourcePath) :
    (r.forgetFile path).2.derives = r.derives.filter fun entry => !(entry.2.file == path) := by
  have hforget := h.tables.derives_forgetFile path
  rwa [forgetFile_unbound] at hforget

theorem Tidy.bindings_forgetFile (h : r.Tidy) (path : SourcePath) :
    (r.forgetFile path).2.bindings = r.bindings.filter fun entry => !(entry.2.file == path) := by
  cases hstale : Table.get? path r.byFile with
  | none =>
    rw [forgetFile_none hstale]
    refine (List.filter_eq_self.mpr fun entry hentry => ?_).symm
    rw [h.tables.file_ne hstale (h.bindings entry hentry)]
    rfl
  | some stale =>
    rw [forgetFile_some hstale]
    exact List.filter_congr fun entry hentry => by
      rw [h.tables.gone_iff hstale (h.bindings entry hentry)]

theorem Tidy.forgetFile (h : r.Tidy) (path : SourcePath) : (r.forgetFile path).2.Tidy where
  tables := by
    have hforget := h.tables.forgetFile path
    rwa [forgetFile_unbound] at hforget
  bindings entry hentry := by
    rw [h.bindings_forgetFile] at hentry
    obtain ⟨hold, hfile⟩ := List.mem_filter.mp hentry
    rw [h.declarations_forgetFile]
    exact List.mem_filter.mpr ⟨h.bindings entry hold, hfile⟩

end Forget

section Declare

/-- A registry has gained declarations of a file, and nothing else has changed. -/
structure Gains (r r' : Registry) (path : SourcePath) (new : List Declaration) : Prop where
  declarations : r'.declarations = r.declarations ++ new
  inFile : ∀ p, r'.inFile p = if path == p then r.inFile p ++ new else r.inFile p
  bindings : r'.bindings = r.bindings
  derive? : ∀ name, r'.derive? name = ((named name new).getLast?).or (r.derive? name)
  compileTime : r'.metaprogramSet =
    r.metaprogramSet ∪ {components | new ≠ [] ∧ components = path.components}

theorem Gains.refl (r : Registry) (path : SourcePath) : Gains r r path [] where
  declarations := (List.append_nil _).symm
  inFile p := by split <;> simp
  bindings := rfl
  derive? _ := rfl
  compileTime := by simp

theorem Gains.trans {r'' : Registry} {new' : List Declaration} (h : Gains r r' path new)
    (h' : Gains r' r'' path new') : Gains r r'' path (new ++ new') where
  declarations := by rw [h'.declarations, h.declarations, List.append_assoc]
  inFile p := by
    rw [h'.inFile, h.inFile]
    split <;> simp
  bindings := h'.bindings.trans h.bindings
  derive? name := by
    rw [h'.derive?, h.derive?, named, named, named, List.filter_append, List.getLast?_append,
      Option.or_assoc]
  compileTime := by
    rw [h'.compileTime, h.compileTime, Set.union_assoc]
    congr 1
    ext components
    simp only [Set.mem_union, Set.mem_ofPred_eq, ne_eq, List.append_eq_nil_iff]
    tauto

theorem gains_declare (hnew : r.declaration? d.id = none) : Gains r (r.declare d).2 d.file [d] where
  declarations := by rw [declare_new hnew]
  inFile := inFile_declare hnew
  bindings := by rw [declare_new hnew]
  derive? name := by
    rw [derive?_declare hnew, named]
    cases hnamed : isNamed name d <;> simp [hnamed]
  compileTime := by
    have hset : (r.declare d).2.metaprogramSet = insert d.file.components r.metaprogramSet := by
      rw [← metaprogramSet_insertPath, declare_new hnew]
      rfl
    rw [hset, Set.insert_eq, Set.union_comm]
    simp

/-- Of declarations of a file, at nodes of their own, those are gained whose node has none yet. -/
theorem gains_declareAll (hfile : ∀ d ∈ ds, d.file = path) (hids : (ds.map Declaration.id).Nodup) :
    Gains r (r.declareAll ds) path (ds.filter fun d => (r.declaration? d.id).isNone) := by
  induction ds generalizing r with
  | nil => exact .refl r path
  | cons d ds ih =>
    obtain ⟨hother, hids⟩ := List.nodup_cons.mp hids
    have hrest := fun e he => hfile e (List.mem_cons_of_mem d he)
    have hstep : r.declareAll (d :: ds) = (r.declare d).2.declareAll ds := rfl
    rw [hstep]
    cases hd : r.declaration? d.id with
    | some known =>
      rw [declare_known hd, List.filter_cons_of_neg (by simp [hd])]
      exact ih hrest hids
    | none =>
      have hsame : ds.filter (fun e => ((r.declare d).2.declaration? e.id).isNone) =
          ds.filter fun e => (r.declaration? e.id).isNone := by
        refine List.filter_congr fun e he => ?_
        rw [declaration?_declare hd, if_neg]
        exact fun hid => hother (List.mem_map.mpr ⟨e, he, hid.symm⟩)
      rw [List.filter_cons_of_pos (by simp [hd]), ← hsame]
      have hone := gains_declare hd
      rw [hfile d List.mem_cons_self] at hone
      exact hone.trans (ih hrest hids)

theorem Tidy.declare (h : r.Tidy) (d : Declaration) : (r.declare d).2.Tidy := by
  have htables := h.tables.declare d
  cases hd : r.declaration? d.id with
  | some known =>
    rw [declare_known hd]
    exact h
  | none =>
    rw [declare_new (r := { r with bindings := [] }) hd] at htables
    rw [declare_new hd]
    exact ⟨htables, fun entry hentry => List.mem_append_left _ (h.bindings entry hentry)⟩

theorem Tidy.declareAll (h : r.Tidy) (ds : List Declaration) : (r.declareAll ds).Tidy := by
  induction ds generalizing r with
  | nil => exact h
  | cons d ds ih => exact ih (h.declare d)

end Declare

def taken (r : Registry) (path : SourcePath) (d : Declaration) : Bool :=
  r.declarations.any fun e => !(e.file == path) && e.id == d.id

/-- What a registry holds of a file has been replaced by `new`: none of what it held is left in any
table, and what it holds of other files is as it was. -/
structure Replaces (r r' : Registry) (path : SourcePath) (new : List Declaration) : Prop where
  declarations : r'.declarations = r.declarations.filter (fun d => !(d.file == path)) ++ new
  nodes : ∀ id d, r'.declaration? id = some d ↔ d ∈ r'.declarations ∧ d.id = id
  inFile : ∀ p, r'.inFile p = if path == p then new else r.inFile p
  bindings : r'.bindings = r.bindings.filter fun entry => !(entry.2.file == path)
  /-- A derive name means the last that is new, or what it meant, unless that was of the file. -/
  derive? : ∀ name, r'.derive? name = ((named name new).getLast?).or
    (Table.get? name (r.derives.filter fun entry => !(entry.2.file == path)))
  /-- The file stays among the compile-time files, or joins them. -/
  compileTime : r'.metaprogramSet =
    r.metaprogramSet ∪ {components | new ≠ [] ∧ components = path.components}

/-- Forgetting a file and entering declarations of it replaces what it declared by those of them
whose node no other file has. -/
theorem Tidy.replaces (h : r.Tidy) (hfile : ∀ d ∈ ds, d.file = path)
    (hids : (ds.map Declaration.id).Nodup) :
    Replaces r ((r.forgetFile path).2.declareAll ds) path (ds.filter fun d => !r.taken path d) := by
  have hforget := h.forgetFile path
  have hfree : ∀ d, ((r.forgetFile path).2.declaration? d.id).isNone = !r.taken path d := by
    intro d
    have hsome : ((r.forgetFile path).2.declaration? d.id).isSome = r.taken path d := by
      rw [Bool.eq_iff_iff, Option.isSome_iff_exists, taken, List.any_eq_true]
      refine exists_congr fun e => (hforget.tables.byId d.id e).trans ?_
      rw [h.declarations_forgetFile, List.mem_filter, Bool.and_eq_true, beq_iff_eq, and_assoc]
    rw [← hsome, Option.not_isSome]
  have hgains := gains_declareAll (r := (r.forgetFile path).2) hfile hids
  simp only [hfree] at hgains
  constructor
  case declarations => rw [hgains.declarations, h.declarations_forgetFile]
  case nodes => exact fun id d => (hforget.declareAll ds).tables.byId id d
  case inFile =>
    intro p
    rw [hgains.inFile, inFile_forgetFile, BEq.comm]
    cases p == path <;> rfl
  case bindings => rw [hgains.bindings, h.bindings_forgetFile]
  case derive? =>
    intro name
    rw [hgains.derive?, Registry.derive?, h.derives_forgetFile]
  case compileTime =>
    have hset : (r.forgetFile path).2.metaprogramSet = r.metaprogramSet := by
      rw [metaprogramSet, metaprogram_forgetFile]
      rfl
    rw [hgains.compileTime, hset]

section Reached

theorem Tidy.mem_of_mem_visible (h : r.Tidy) {file : SourceFile} (hd : d ∈ r.visible file) :
    d ∈ r.declarations := h.tables.mem_of_mem_visible hd

theorem Tidy.bindSites (h : r.Tidy) (file : SourceFile) : (r.bindSites file).2.Tidy := by
  have hfound : ∀ entry ∈ file.sites.filterMap (resolved? (r.visible file)),
      entry.2.1 ∈ r.declarations := by
    intro entry hentry
    obtain ⟨e, -, hresolved⟩ := List.mem_filterMap.mp hentry
    obtain ⟨_, hresolve, rfl⟩ := Option.map_eq_some_iff.mp hresolved
    exact h.mem_of_mem_visible (resolve?_eq_some hresolve).1
  rw [bindSites_eq]
  generalize file.sites.filterMap (resolved? (r.visible file)) = found at hfound
  induction found generalizing r with
  | nil => exact h
  | cons entry found ih =>
    have hbind := h.bind entry.1 (hfound entry List.mem_cons_self) entry.2.2
    exact ih hbind fun e he => hfound e (List.mem_cons_of_mem _ he)

theorem Tidy.collectDependencies (h : r.Tidy) (files : List SourceFile) :
    (r.collectDependencies files).2.Tidy := by
  apply collectDependencies_induction (P := Tidy) _ h
  intro r path h
  have htables := h.tables.addMetaprogramFile path
  unfold addMetaprogramFile at htables ⊢
  cases hknown : r.metaprogram.any (· == path) with
  | true => exact h
  | false =>
    simp only [hknown, Bool.false_eq_true, if_false] at htables ⊢
    exact ⟨htables, h.bindings⟩

/-- The registries that are reached by the operations, and by binding sites one by one to declarations
they hold, as whatever kind. -/
inductive Reached : Registry → Prop
  | new : Reached .empty
  | perform {r : Registry} (op : Operation) (h : Reached r) : Reached (r.perform op)
  | bind {r : Registry} (kind : MacroKind) {d : Declaration} (hd : d ∈ r.declarations) (site : NodeId)
    (h : Reached r) : Reached (r.bind kind d site)

theorem Reached.tidy (h : Reached r) : r.Tidy := by
  induction h with
  | new => exact Consistent.empty.tidy
  | bind kind hd site _ ih => exact ih.bind kind hd site
  | perform op _ ih =>
    cases op with
    | declare d => exact ih.declare d
    | forget path => exact ih.forgetFile path
    | reset => exact Consistent.empty.tidy
    | collect file =>
      rw [Registry.perform, collect_eq]
      split
      · exact ih
      · rename_i hcollect
        split at hcollect
        · cases hcollect
        · obtain rfl := Except.ok.inj hcollect
          exact (ih.forgetFile file.path).declareAll _
    | bindSites file => exact ih.bindSites file
    | follow files => exact ih.collectDependencies files

end Reached

end Registry

end MacroEngine
