import Mathlib.Data.List.Nodup
import MacroEngine.Binding

/-!
# The tables of a registry agree

A registry keeps the same declarations in several tables: in order, by node, by file, behind the
sites that are bound and behind the derive names. Every operation changes some of them, and
forgetting a file takes entries out of all. `Consistent` says how the tables hang together; it holds
of the empty registry and every operation keeps it, whatever files come in.
-/

namespace MacroEngine

namespace Registry

/-- The tables describe one list of declarations. -/
structure Consistent (r : Registry) : Prop where
  /-- No two declarations stand for one node. -/
  distinct : (r.declarations.map Declaration.id).Nodup
  /-- A node leads to the declaration that it makes. -/
  byId : ∀ id d, r.declaration? id = some d ↔ d ∈ r.declarations ∧ d.id = id
  /-- A file leads to what it declares, in order. -/
  byFile : ∀ path, r.inFile path = r.declarations.filter (·.file == path)
  /-- A site is bound to a declaration of its kind. -/
  bindings : ∀ entry ∈ r.bindings, entry.2 ∈ r.declarations ∧ entry.2.kind = entry.1.1
  /-- A derive name means a derive of that name. -/
  derives : ∀ entry ∈ r.derives,
    entry.2 ∈ r.declarations ∧ entry.2.kind = .derive ∧ entry.2.name = entry.1
  /-- A file that declares something matters at compile time. -/
  metaprogram : ∀ d ∈ r.declarations, r.metaprogram.any (· == d.file) = true

theorem Consistent.empty : Consistent .empty where
  distinct := .nil
  byId _ _ := ⟨nofun, fun h => absurd h.1 List.not_mem_nil⟩
  byFile _ := rfl
  bindings _ h := absurd h List.not_mem_nil
  derives _ h := absurd h List.not_mem_nil
  metaprogram _ h := absurd h List.not_mem_nil

section Declare

variable {r : Registry} {d : Declaration}

theorem declare_known {known : Declaration} (h : r.declaration? d.id = some known) :
    r.declare d = (known, r) := by
  rw [declare, h]

theorem declare_new (h : r.declaration? d.id = none) :
    r.declare d = (d, { r with
      declarations := r.declarations ++ [d]
      byId := Table.insert d.id d r.byId
      derives := if d.kind = .derive then Table.insert d.name d r.derives else r.derives
      byFile := Table.insert d.file (r.inFile d.file ++ [d]) r.byFile
      metaprogram := insertPath d.file r.metaprogram }) := by
  rw [declare, h]

theorem declaration?_declare (h : r.declaration? d.id = none) (id : NodeId) :
    (r.declare d).2.declaration? id = if d.id = id then some d else r.declaration? id := by
  rw [declare_new h, declaration?, Table.get?_insert]
  by_cases hid : d.id = id <;> simp [hid, declaration?]

theorem inFile_declare (h : r.declaration? d.id = none) (path : SourcePath) :
    (r.declare d).2.inFile path =
      if d.file == path then r.inFile path ++ [d] else r.inFile path := by
  rw [declare_new h, inFile, Table.get?_insert]
  by_cases hpath : d.file == path
  · simp [hpath, inFile, Table.get?_congr hpath r.byFile]
  · simp [hpath, inFile]

theorem mem_derives_declare (h : r.declaration? d.id = none) {entry : String × Declaration}
    (hentry : entry ∈ (r.declare d).2.derives) :
    entry = (d.name, d) ∧ d.kind = .derive ∨ entry ∈ r.derives := by
  rw [declare_new h] at hentry
  dsimp only at hentry
  split at hentry
  · rename_i hkind
    refine (Table.mem_insert hentry).imp_left fun ⟨hname, hvalue⟩ => ⟨?_, hkind⟩
    exact Prod.ext (eq_of_beq hname) hvalue
  · exact .inr hentry

theorem any_insertPath (path p : SourcePath) (paths : List SourcePath) :
    (insertPath path paths).any (· == p) = (path == p || paths.any (· == p)) := by
  induction paths with
  | nil => simp [insertPath]
  | cons q rest ih =>
    rw [insertPath]
    split
    · rename_i hq
      simp [BEq.congr_left hq]
    · split
      · rfl
      · simp only [List.any_cons, ih]
        cases q == p <;> simp

theorem mem_insertPath {path p : SourcePath} {paths : List SourcePath} (h : p ∈ insertPath path paths) :
    p = path ∨ p ∈ paths := by
  induction paths with
  | nil => exact .inl (List.mem_singleton.mp h)
  | cons q rest ih =>
    rw [insertPath] at h
    split at h
    · exact .inr h
    · split at h
      · exact List.mem_cons.mp h
      · rcases List.mem_cons.mp h with rfl | h
        · exact .inr List.mem_cons_self
        · exact (ih h).imp_right (List.mem_cons_of_mem _)

theorem Consistent.id_ne (h : r.Consistent) (hd : r.declaration? d.id = none) {e : Declaration}
    (he : e ∈ r.declarations) : e.id ≠ d.id := by
  intro heq
  have hsome := (h.byId d.id e).mpr ⟨he, heq⟩
  rw [hd] at hsome
  cases hsome

theorem Consistent.declare (h : r.Consistent) (d : Declaration) : (r.declare d).2.Consistent := by
  cases hd : r.declaration? d.id with
  | some known =>
    rw [declare_known hd]
    exact h
  | none =>
    have hdeclarations : (r.declare d).2.declarations = r.declarations ++ [d] := by
      rw [declare_new hd]
    have hold : ∀ e ∈ r.declarations, e ∈ (r.declare d).2.declarations := fun e he => by
      rw [hdeclarations]
      exact List.mem_append_left _ he
    have hself : d ∈ (r.declare d).2.declarations := by
      rw [hdeclarations]
      exact List.mem_append_right _ List.mem_cons_self
    constructor
    case distinct =>
      rw [hdeclarations, List.map_append]
      refine List.nodup_append.mpr ⟨h.distinct, by simp, fun x hx y hy => ?_⟩
      obtain ⟨e, he, rfl⟩ := List.mem_map.mp hx
      rw [List.mem_singleton.mp hy]
      exact h.id_ne hd he
    case byId =>
      intro id e
      rw [declaration?_declare hd, hdeclarations, List.mem_append, List.mem_singleton]
      by_cases hid : d.id = id
      · rw [if_pos hid, Option.some.injEq]
        constructor
        · rintro rfl
          exact ⟨.inr rfl, hid⟩
        · rintro ⟨he | rfl, heq⟩
          · exact absurd (heq.trans hid.symm) (h.id_ne hd he)
          · rfl
      · rw [if_neg hid, h.byId]
        constructor
        · exact fun ⟨he, heq⟩ => ⟨.inl he, heq⟩
        · rintro ⟨he | rfl, heq⟩
          · exact ⟨he, heq⟩
          · exact absurd heq hid
    case byFile =>
      intro path
      rw [inFile_declare hd, hdeclarations, List.filter_append, h.byFile]
      cases hpath : d.file == path <;> simp [hpath]
    case bindings =>
      rw [show (r.declare d).2.bindings = r.bindings by rw [declare_new hd]]
      exact fun entry hentry => ⟨hold _ (h.bindings entry hentry).1, (h.bindings entry hentry).2⟩
    case derives =>
      intro entry hentry
      rcases mem_derives_declare hd hentry with ⟨rfl, hkind⟩ | hin
      · exact ⟨hself, hkind, rfl⟩
      · exact ⟨hold _ (h.derives entry hin).1, (h.derives entry hin).2⟩
    case metaprogram =>
      rw [hdeclarations, declare_new hd]
      intro e he
      rw [any_insertPath]
      rcases List.mem_append.mp he with he | he
      · rw [h.metaprogram e he, Bool.or_true]
      · rw [List.mem_singleton.mp he, BEq.rfl, Bool.true_or]

theorem Consistent.declareAll (h : r.Consistent) (ds : List Declaration) :
    (r.declareAll ds).Consistent := by
  induction ds generalizing r with
  | nil => exact h
  | cons d ds ih => exact ih (h.declare d)

end Declare

section Forget

variable {r : Registry} {path : SourcePath} {stale : List Declaration}

theorem forgetFile_none (h : Table.get? path r.byFile = none) : r.forgetFile path = (0, r) := by
  rw [forgetFile, h]

theorem forgetFile_some (h : Table.get? path r.byFile = some stale) :
    r.forgetFile path = (stale.length, { r with
      declarations := r.declarations.filter fun d => !(stale.map Declaration.id).contains d.id
      byId := r.byId.filter fun entry => !(stale.map Declaration.id).contains entry.1
      bindings := r.bindings.filter fun entry => !(stale.map Declaration.id).contains entry.2.id
      derives := r.derives.filter fun entry => !(stale.map Declaration.id).contains entry.2.id
      byFile := Table.erase path r.byFile }) := by
  rw [forgetFile, h]

/-- The nodes that go are those of the declarations in the file. -/
theorem Consistent.gone_iff (h : r.Consistent) (hstale : Table.get? path r.byFile = some stale)
    {d : Declaration} (hd : d ∈ r.declarations) :
    (stale.map Declaration.id).contains d.id = (d.file == path) := by
  have hfile : stale = r.declarations.filter (·.file == path) := by
    rw [← h.byFile, inFile, hstale, Option.getD_some]
  rw [hfile, Bool.eq_iff_iff, List.contains_iff_mem]
  constructor
  · intro hgone
    obtain ⟨e, he, hid⟩ := List.mem_map.mp hgone
    obtain ⟨he, hfile⟩ := List.mem_filter.mp he
    obtain rfl : e = d := List.inj_on_of_nodup_map h.distinct he hd hid
    exact hfile
  · exact fun hfile => List.mem_map.mpr ⟨d, List.mem_filter.mpr ⟨hd, hfile⟩, rfl⟩

/-- A file without a list of declarations declares nothing. -/
theorem Consistent.file_ne (h : r.Consistent) (hnone : Table.get? path r.byFile = none)
    {d : Declaration} (hd : d ∈ r.declarations) : (d.file == path) = false := by
  have hempty : r.declarations.filter (·.file == path) = [] := by
    rw [← h.byFile, inFile, hnone, Option.getD_none]
  simpa using List.filter_eq_nil_iff.mp hempty d hd

/-- Forgetting a file leaves the declarations of the other files. -/
theorem Consistent.declarations_forgetFile (h : r.Consistent) (path : SourcePath) :
    (r.forgetFile path).2.declarations = r.declarations.filter fun d => !(d.file == path) := by
  cases hstale : Table.get? path r.byFile with
  | none =>
    rw [forgetFile_none hstale]
    refine (List.filter_eq_self.mpr fun d hd => ?_).symm
    rw [h.file_ne hstale hd]
    rfl
  | some stale =>
    rw [forgetFile_some hstale]
    exact List.filter_congr fun d hd => by rw [h.gone_iff hstale hd]

/-- Forgetting a file leaves the derive names that mean a declaration of another file. -/
theorem Consistent.derives_forgetFile (h : r.Consistent) (path : SourcePath) :
    (r.forgetFile path).2.derives = r.derives.filter fun entry => !(entry.2.file == path) := by
  cases hstale : Table.get? path r.byFile with
  | none =>
    rw [forgetFile_none hstale]
    refine (List.filter_eq_self.mpr fun entry hentry => ?_).symm
    rw [h.file_ne hstale (h.derives entry hentry).1]
    rfl
  | some stale =>
    rw [forgetFile_some hstale]
    exact List.filter_congr fun entry hentry => by
      rw [h.gone_iff hstale (h.derives entry hentry).1]

theorem inFile_forgetFile (r : Registry) (path p : SourcePath) :
    (r.forgetFile path).2.inFile p = if p == path then [] else r.inFile p := by
  cases hstale : Table.get? path r.byFile with
  | none =>
    rw [forgetFile_none hstale]
    split
    · rename_i hp
      rw [inFile, Table.get?_congr hp, hstale, Option.getD_none]
    · rfl
  | some stale =>
    rw [forgetFile_some hstale, inFile, Table.get?_erase]
    split <;> rfl

theorem Consistent.forgetFile (h : r.Consistent) (path : SourcePath) :
    (r.forgetFile path).2.Consistent := by
  have hdeclarations := h.declarations_forgetFile path
  cases hstale : Table.get? path r.byFile with
  | none =>
    rw [forgetFile_none hstale]
    exact h
  | some stale =>
    have hstay : ∀ d ∈ r.declarations, (!(stale.map Declaration.id).contains d.id) = true →
        d ∈ (r.forgetFile path).2.declarations := fun d hd hkept => by
      rw [forgetFile_some hstale]
      exact List.mem_filter.mpr ⟨hd, hkept⟩
    constructor
    case distinct =>
      rw [hdeclarations]
      exact h.distinct.sublist (List.filter_sublist.map _)
    case byId =>
      intro id d
      rw [forgetFile_some hstale, declaration?,
        Table.get?_filter_key (fun id => !(stale.map Declaration.id).contains id)
          fun k hk => by rw [eq_of_beq hk]]
      change (if _ then r.declaration? id else none) = some d ↔ _
      rw [List.mem_filter]
      constructor
      · intro hget
        split at hget
        · rename_i hkept
          obtain ⟨hd, rfl⟩ := (h.byId id d).mp hget
          exact ⟨⟨hd, hkept⟩, rfl⟩
        · cases hget
      · rintro ⟨⟨hd, hkept⟩, rfl⟩
        rw [if_pos hkept]
        exact (h.byId d.id d).mpr ⟨hd, rfl⟩
    case byFile =>
      intro p
      rw [inFile_forgetFile, hdeclarations, List.filter_filter, h.byFile]
      split
      · rename_i hp
        refine (List.filter_eq_nil_iff.mpr fun d _ => ?_).symm
        simp [← BEq.congr_right hp]
      · rename_i hp
        refine List.filter_congr fun d _ => ?_
        cases hd : d.file == p
        · rfl
        · rw [BEq.congr_left hd, Bool.eq_false_iff.mpr hp]
          rfl
    case bindings =>
      intro entry hentry
      rw [forgetFile_some hstale] at hentry
      obtain ⟨hin, hkept⟩ := List.mem_filter.mp hentry
      exact ⟨hstay _ (h.bindings entry hin).1 hkept, (h.bindings entry hin).2⟩
    case derives =>
      intro entry hentry
      rw [forgetFile_some hstale] at hentry
      obtain ⟨hin, hkept⟩ := List.mem_filter.mp hentry
      exact ⟨hstay _ (h.derives entry hin).1 hkept, (h.derives entry hin).2⟩
    case metaprogram =>
      intro d hd
      rw [hdeclarations] at hd
      rw [forgetFile_some hstale]
      exact h.metaprogram d (List.mem_filter.mp hd).1

end Forget

section Passes

variable {r : Registry}

theorem Consistent.collect (h : r.Consistent) {file : SourceFile} {r' : Registry}
    (hcollect : r.collect file = .ok r') : r'.Consistent := by
  rw [collect_eq] at hcollect
  split at hcollect
  · cases hcollect
  · obtain rfl := Except.ok.inj hcollect
    exact (h.forgetFile file.path).declareAll _

/-- What is in view in a file has been declared. -/
theorem Consistent.mem_of_mem_visible (h : r.Consistent) {file : SourceFile} {d : Declaration}
    (hd : d ∈ r.visible file) : d ∈ r.declarations := by
  rcases List.mem_append.mp hd with hd | hd
  · rw [h.byFile] at hd
    exact (List.mem_filter.mp hd).1
  · obtain ⟨_, _, hd⟩ := List.mem_flatMap.mp hd
    exact (List.mem_filter.mp hd).1

/-- A site means a declaration in view of the kind of the site. -/
theorem resolve?_eq_some {scope : List Declaration} {site : Expr} {kind : MacroKind}
    {d : Declaration} (h : resolve? scope site = some (kind, d)) : d ∈ scope ∧ d.kind = kind := by
  obtain ⟨⟨k, name⟩, -, hsome⟩ := Option.bind_eq_some_iff.mp h
  obtain ⟨e, hfind, heq⟩ := Option.map_eq_some_iff.mp hsome
  obtain ⟨rfl, rfl⟩ := Prod.mk.inj heq
  have haccepts := List.find?_some hfind
  simp only [Bool.and_eq_true, decide_eq_true_eq] at haccepts
  exact ⟨List.mem_of_find?_eq_some hfind, haccepts.1⟩

theorem Consistent.bind (h : r.Consistent) {kind : MacroKind} {d : Declaration}
    (hd : d ∈ r.declarations) (hkind : d.kind = kind) (site : NodeId) :
    (r.bind kind d site).Consistent where
  distinct := h.distinct
  byId := h.byId
  byFile := h.byFile
  bindings entry hentry := by
    rcases Table.mem_insert hentry with ⟨hkey, hvalue⟩ | hin
    · rw [hvalue, eq_of_beq hkey]
      exact ⟨hd, hkind⟩
    · exact h.bindings entry hin
  derives := h.derives
  metaprogram := h.metaprogram

theorem Consistent.bindSites (h : r.Consistent) (file : SourceFile) :
    (r.bindSites file).2.Consistent := by
  unfold Registry.bindSites
  dsimp only
  generalize hsites : file.sites.filterMap _ = found
  have hfound : ∀ entry ∈ found, entry.2.1 ∈ r.declarations ∧ entry.2.1.kind = entry.1 := by
    subst hsites
    intro entry hentry
    obtain ⟨e, -, he⟩ := List.mem_filterMap.mp hentry
    obtain ⟨⟨kind, d⟩, hresolve, rfl⟩ := Option.map_eq_some_iff.mp he
    obtain ⟨hvisible, hkind⟩ := resolve?_eq_some hresolve
    exact ⟨h.mem_of_mem_visible hvisible, hkind⟩
  clear hsites
  induction found generalizing r with
  | nil => exact h
  | cons entry found ih =>
    obtain ⟨hd, hkind⟩ := hfound entry List.mem_cons_self
    exact ih (h.bind hd hkind entry.2.2) fun e he => hfound e (List.mem_cons_of_mem _ he)

theorem Consistent.addMetaprogramFile (h : r.Consistent) (path : SourcePath) :
    (r.addMetaprogramFile path).2.Consistent := by
  unfold Registry.addMetaprogramFile
  split
  · exact h
  · refine ⟨h.distinct, h.byId, h.byFile, h.bindings, h.derives, fun d hd => ?_⟩
    rw [any_insertPath, h.metaprogram d hd, Bool.or_true]

theorem addFiles_induction {P : Registry → Prop}
    (hstep : ∀ r path, P r → P (r.addMetaprogramFile path).2) (h : P r) (pending : List SourcePath)
    (added : Nat) (files : List SourceFile) : P (r.addFiles pending added files).1 := by
  induction files generalizing r pending added with
  | nil => exact h
  | cons file files ih =>
    have hadd := hstep r file.path h
    rw [Registry.addFiles]
    split <;> rename_i heq <;> rw [heq] at hadd <;> exact ih hadd _ _

theorem followImports_induction {P : Registry → Prop}
    (hstep : ∀ r path, P r → P (r.addMetaprogramFile path).2) (h : P r) (files : List SourceFile)
    (n : Nat) (pending : List SourcePath) (added : Nat) :
    P (followImports files n pending added r).2 := by
  induction n generalizing pending added r with
  | zero => cases pending <;> exact h
  | succ n ih =>
    cases pending with
    | nil => exact h
    | cons path pending =>
      rw [Registry.followImports]
      split
      · exact ih h _ _
      · rename_i file _
        exact ih (addFiles_induction hstep h pending added (importedFiles files file)) _ _

/-- Following imports keeps what entering a compile-time file keeps. -/
theorem collectDependencies_induction {P : Registry → Prop}
    (hstep : ∀ r path, P r → P (r.addMetaprogramFile path).2) (h : P r) (files : List SourceFile) :
    P (r.collectDependencies files).2 :=
  followImports_induction hstep h files _ _ _

theorem Consistent.collectDependencies (h : r.Consistent) (files : List SourceFile) :
    (r.collectDependencies files).2.Consistent :=
  collectDependencies_induction (fun _ path h => h.addMetaprogramFile path) h files

end Passes

inductive Operation where
  | declare (d : Declaration)
  | forget (path : SourcePath)
  | reset
  | collect (file : SourceFile)
  | bindSites (file : SourceFile)
  /-- Enter the files that compile-time files among these import. -/
  | follow (files : List SourceFile)

/-- Carries out an operation. A file whose declarations cannot be entered changes nothing. -/
def perform (r : Registry) : Operation → Registry
  | .declare d => (r.declare d).2
  | .forget path => (r.forgetFile path).2
  | .reset => .empty
  | .collect file =>
    match r.collect file with
    | .error _ => r
    | .ok collected => collected
  | .bindSites file => (r.bindSites file).2
  | .follow files => (r.collectDependencies files).2

def after (ops : List Operation) : Registry := ops.foldl perform .empty

theorem Consistent.perform {r : Registry} (h : r.Consistent) (op : Operation) :
    (r.perform op).Consistent := by
  cases op with
  | declare d => exact h.declare d
  | forget path => exact h.forgetFile path
  | reset => exact .empty
  | collect file =>
    unfold Registry.perform
    dsimp only
    split
    · exact h
    · rename_i hcollect
      exact h.collect hcollect
  | bindSites file => exact h.bindSites file
  | follow files => exact h.collectDependencies files

theorem Consistent.foldl {r : Registry} (h : r.Consistent) (ops : List Operation) :
    (ops.foldl Registry.perform r).Consistent := by
  induction ops generalizing r with
  | nil => exact h
  | cons op ops ih => exact ih (h.perform op)

/-- Whatever is done to a registry, in whatever order and with whatever files, its tables describe
one list of declarations. -/
theorem consistent_after (ops : List Operation) : (after ops).Consistent :=
  Consistent.empty.foldl ops

end Registry

end MacroEngine
