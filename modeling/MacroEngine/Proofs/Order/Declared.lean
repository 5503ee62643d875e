import MacroEngine.Proofs.Order.Inputs
import MacroEngine.Proofs.Registry.Derives

/-!
# What the files of a program declare

When files with different modules are registered in a new session, the registry holds what each of
them declares, file after file, and a derive name means the only derive of that name. Every
declaration is a node of its file.
-/

namespace MacroEngine

def SourceFile.declared (file : SourceFile) : List Declaration :=
  file.findings.filterMap Finding.declaration?

@[simp] theorem SourceFile.declared_renumber (ρ : NodeId → NodeId) (file : SourceFile) :
    (file.renumber ρ).declared = file.declared.map (Declaration.renumber ρ) := by
  rw [declared, file.findings_renumber, List.filterMap_map, declared, List.map_filterMap]
  refine List.filterMap_congr fun f _ => ?_
  cases f <;> rfl

section Made

variable (path : SourcePath)

/-- Findings declare macros of a file, each at a node of its own. -/
structure Made (findings : List Finding) (items : List Item) : Prop where
  file : ∀ d ∈ findings.filterMap Finding.declaration?, d.file = path
  ids : ((findings.filterMap Finding.declaration?).map Declaration.id).Sublist (items.map Item.id)

variable {path} {fs fs' : List Finding} {items more : List Item}

theorem Made.of_none (h : fs.filterMap Finding.declaration? = []) : Made path fs items := by
  refine ⟨fun d hd => ?_, ?_⟩
  · rw [h] at hd
    cases hd
  · rw [h]
    exact List.nil_sublist _

theorem Made.append (h : Made path fs items) (h' : Made path fs' more) :
    Made path (fs ++ fs') (items ++ more) := by
  refine ⟨fun d hd => ?_, ?_⟩
  · rw [List.filterMap_append] at hd
    exact (List.mem_append.mp hd).elim (h.file d) (h'.file d)
  · rw [List.filterMap_append, List.map_append, List.map_append]
    exact h.ids.append h'.ids

/-- A node that declares nothing. -/
theorem Made.cons (h : Made path fs items) (i : Item) : Made path fs (i :: items) :=
  ⟨h.file, h.ids.cons i.id⟩

theorem Made.ofHead (stamp : Stamp) (shape : DeclarationShape) (name : Option String)
    (kind : Option MacroKind) {i : Item} (hi : i.id = stamp.id) :
    Made path (Finding.ofHead path stamp shape name kind) [i] := by
  cases kind with
  | none => exact .of_none rfl
  | some kind =>
    cases name with
    | none => exact .of_none rfl
    | some name =>
      refine ⟨fun d hd => ?_, ?_⟩
      · obtain rfl := List.mem_singleton.mp hd
        rfl
      · simp [Finding.ofHead, Finding.declaration?, hi]

variable (path)

mutual

theorem Expr.made : ∀ e : Expr, Made path (e.findings path) (e.items true)
  | .ident _ _ | .number _ _ | .str _ _ | .bool _ _ | .null _ | .this _ | .template _ _
  | .tagged _ _ _ => .of_none rfl
  | .array _ es => (Expr.madeAll es).cons _
  | .object _ ps => (Expr.madeProperties ps).cons _
  | .invoke _ _ as => (Expr.madeAll as).cons _
  | .paren _ e | .member _ e _ | .unary _ _ e | .await _ e | .arrowExpr _ _ _ e => e.made.cons _
  | .call _ c as => (c.made.append (Expr.madeAll as)).cons _
  | .binary _ _ a b | .assign _ a b => (a.made.append b.made).cons _
  | .arrow _ _ _ b => (bodyItems_true b ▸ b.made).cons _
  | .function s h b => by
    have hb := b.made
    rw [Expr.findings, Expr.items, bodyItems_true]
    split
    · exact .of_none rfl
    · exact hb.cons _

theorem Expr.madeAll : ∀ es : List Expr, Made path (Expr.findingsAll path es) (Expr.itemsAll true es)
  | [] => .of_none rfl
  | e :: es => e.made.append (Expr.madeAll es)

theorem Expr.madeProperties : ∀ ps : List (String × Expr),
    Made path (Expr.findingsProperties path ps) (Expr.itemsProperties true ps)
  | [] => .of_none rfl
  | (_, e) :: ps => e.made.append (Expr.madeProperties ps)

theorem Stmt.made : ∀ s : Stmt, Made path (s.findings path) (s.items true)
  | .importNames _ _ _ | .empty _ | .binding _ _ _ none _ | .ret _ none => .of_none rfl
  | .function s h b => by
    have hb := b.made
    rw [Stmt.findings, Stmt.items, bodyItems_true]
    exact (Made.ofHead s _ _ _ rfl).append hb
  | .classDecl _ _ ms => (Member.madeAll ms).cons _
  | .binding _ _ name (some e) _ => by
    have he := e.made
    cases e with
    | function s h b =>
      have hb := b.made
      rw [Stmt.findings, Stmt.items, Expr.items, bodyItems_true]
      exact ((Made.ofHead s _ _ _ rfl).append hb).cons _
    | _ => exact he.cons _
  | .expr _ e | .ret _ (some e) | .throwExpr _ e => e.made.cons _
  | .ifElse _ c t none => (c.made.append t.made).cons _
  | .ifElse _ c t (some e) => (c.made.append (t.made.append e.made)).cons _
  | .whileLoop _ e b | .forOf _ _ _ e b => (e.made.append b.made).cons _
  | .block _ b | .defer _ b => b.made.cons _
  | .tryFinally _ b f => (b.made.append f.made).cons _

theorem Stmt.madeAll : ∀ ss : List Stmt, Made path (Stmt.findingsAll path ss) (Stmt.itemsAll true ss)
  | [] => .of_none rfl
  | s :: ss => s.made.append (Stmt.madeAll ss)

theorem Member.madeAll : ∀ ms : List Member,
    Made path (Member.findingsAll path ms) (Member.itemsAll true ms)
  | [] => .of_none rfl
  | .field _ _ none :: ms => Member.madeAll ms
  | .field _ _ (some e) :: ms => e.made.append (Member.madeAll ms)
  | .method _ _ b :: ms => (bodyItems_true b ▸ b.made).append (Member.madeAll ms)

theorem Block.made : ∀ b : Block, Made path (b.findings path) (b.items true)
  | ⟨_, ss⟩ => Stmt.madeAll ss

end

end Made

theorem SourceFile.made (file : SourceFile) : Made file.path file.findings file.items :=
  Stmt.madeAll file.path file.statements

/-- The first pass meets no macro function expression that no variable is set to. -/
def SourceFile.Settled (file : SourceFile) : Prop :=
  file.findings.findSome? (Finding.error? file.path) = none

theorem SourceFile.Settled.renumber {file : SourceFile} (h : file.Settled) (ρ : NodeId → NodeId) :
    (file.renumber ρ).Settled := by
  have hsame : Finding.error? file.path ∘ Finding.renumber ρ = Finding.error? file.path := by
    funext f
    cases f <;> rfl
  rw [Settled, file.findings_renumber, List.findSome?_map]
  exact (congrArg (List.findSome? · file.findings) hsame).trans h

theorem SourcePath.moduleKey_eq {p q : SourcePath} (h : (p == q) = true) :
    p.moduleKey = q.moduleKey := congrArg keyOf (beq_iff.mp h)

namespace Ledger

theorem foldl_declare_new {ds new : List Declaration}
    (h : ((ds ++ new).map Declaration.id).Nodup) :
    new.foldl declare ⟨ds, ds⟩ = ⟨ds ++ new, ds ++ new⟩ := by
  induction new generalizing ds with
  | nil => simp
  | cons d new ih =>
    have hnew : ds.any (·.id == d.id) = false := by
      refine List.any_eq_false.mpr fun e he heq => ?_
      rw [List.map_append, List.map_cons] at h
      exact (List.nodup_append.mp h).2.2 e.id (List.mem_map_of_mem he) d.id List.mem_cons_self
        (eq_of_beq heq)
    have hstep : declare ⟨ds, ds⟩ d = ⟨ds ++ [d], ds ++ [d]⟩ := by
      rw [declare, hnew, if_neg Bool.false_ne_true]
    rw [List.foldl_cons, hstep, ih (by simpa using h)]
    simp

end Ledger

namespace Registry

open Ledger

/-- A registry in which declarations were entered once and nothing else was done. -/
structure Lists (r : Registry) (ds : List Declaration) : Prop where
  follows : Follows r ⟨ds, ds⟩
  unbound : r.bindings = []
  files : ∀ p ∈ r.metaprogram, ∃ d ∈ ds, d.file = p

theorem Lists.empty : Lists .empty [] := ⟨.empty, rfl, fun _ h => absurd h List.not_mem_nil⟩

variable {r r' : Registry} {ds : List Declaration} {file : SourceFile}

theorem metaprogram_forgetFile (r : Registry) (path : SourcePath) :
    (r.forgetFile path).2.metaprogram = r.metaprogram := by
  unfold forgetFile
  split <;> rfl

theorem mem_metaprogram_declareAll {p : SourcePath} (h : p ∈ (r.declareAll ds).metaprogram) :
    p ∈ r.metaprogram ∨ ∃ d ∈ ds, d.file = p := by
  induction ds generalizing r with
  | nil => exact .inl h
  | cons d ds ih =>
    have hrest : p ∈ ((r.declare d).2.declareAll ds).metaprogram := h
    rcases ih hrest with h | ⟨e, he, hfile⟩
    · unfold declare at h
      split at h
      · exact .inl h
      · rcases mem_insertPath h with rfl | h
        · exact .inr ⟨d, List.mem_cons_self, rfl⟩
        · exact .inl h
    · exact .inr ⟨e, List.mem_cons_of_mem _ he, hfile⟩

theorem collect_eq_ok : r.collect file = .ok r' ↔
    file.Settled ∧ r' = (r.forgetFile file.path).2.declareAll file.declared := by
  rw [collect_eq, SourceFile.Settled]
  cases file.findings.findSome? (Finding.error? file.path) with
  | some e => simp
  | none => simpa [SourceFile.declared] using eq_comm

/-- The declarations of a new file are entered after the others. -/
theorem Follows.collect (h : Follows r ⟨ds, ds⟩) (hcollect : r.collect file = .ok r')
    (hother : ∀ d ∈ ds, (d.file == file.path) = false)
    (hdistinct : ((ds ++ file.declared).map Declaration.id).Nodup) :
    Follows r' ⟨ds ++ file.declared, ds ++ file.declared⟩ := by
  obtain ⟨-, hr'⟩ := collect_eq_ok.mp hcollect
  have hforget : Ledger.forget ⟨ds, ds⟩ file.path = ⟨ds, ds⟩ := by
    have hall : ds.filter (fun d => !(d.file == file.path)) = ds :=
      List.filter_eq_self.mpr fun d hd => by rw [hother d hd]; rfl
    rw [Ledger.forget, hall]
  have hfollows := (h.forget file.path).declareAll file.declared
  rwa [hforget, foldl_declare_new hdistinct, ← hr'] at hfollows

theorem Lists.collect (h : r.Lists ds) (hcollect : r.collect file = .ok r')
    (hother : ∀ d ∈ ds, (d.file == file.path) = false)
    (hdistinct : ((ds ++ file.declared).map Declaration.id).Nodup) :
    r'.Lists (ds ++ file.declared) := by
  refine ⟨h.follows.collect hcollect hother hdistinct, ?_, fun p hp => ?_⟩
  · have hsub := bindings_collect hcollect
    rw [h.unbound] at hsub
    exact List.subset_nil.mp hsub
  · obtain ⟨-, rfl⟩ := collect_eq_ok.mp hcollect
    rcases mem_metaprogram_declareAll hp with hp | ⟨d, hd, hfile⟩
    · rw [metaprogram_forgetFile] at hp
      obtain ⟨d, hd, hfile⟩ := h.files p hp
      exact ⟨d, List.mem_append_left _ hd, hfile⟩
    · exact ⟨d, List.mem_append_right _ hd, hfile⟩

/-- A derive name means the only derive that is declared under it. -/
theorem Follows.derive?_eq_some_iff (h : Follows r ⟨ds, ds⟩)
    (hnames : ((ds.filter fun d => d.kind = .derive).map Declaration.name).Nodup) {name : String}
    {d : Declaration} : r.derive? name = some d ↔ d ∈ ds ∧ isNamed name d = true := by
  rw [h.means name d]
  constructor
  · exact fun ⟨hlast, hmem⟩ => ⟨hmem, isNamed_of_last hlast⟩
  · rintro ⟨hmem, hnamed⟩
    refine ⟨?_, hmem⟩
    cases hlast : (named name ds).getLast? with
    | none =>
      have hin : d ∈ named name ds := List.mem_filter.mpr ⟨hmem, hnamed⟩
      rw [List.getLast?_eq_none_iff.mp hlast] at hin
      cases hin
    | some e =>
      have he : e ∈ ds := (List.mem_filter.mp (List.mem_of_getLast? hlast)).1
      have hboth : ∀ {x}, x ∈ ds → isNamed name x = true →
          x ∈ ds.filter (fun d => d.kind = .derive) ∧ x.name = name := by
        intro x hx hname
        simp only [isNamed, Bool.and_eq_true, decide_eq_true_eq] at hname
        exact ⟨List.mem_filter.mpr ⟨hx, decide_eq_true hname.1⟩, hname.2⟩
      obtain ⟨hd, hdname⟩ := hboth hmem hnamed
      obtain ⟨he, hename⟩ := hboth he (isNamed_of_last hlast)
      exact congrArg some (List.inj_on_of_nodup_map hnames he hd (hename.trans hdname.symm))

end Registry

namespace Session

open Registry

variable {files : List SourceFile} {s s₁ : Session} {ds : List Declaration}

theorem settled_of_collectAll (h : (collectAll files).run.run s = (.ok (), s₁)) :
    ∀ file ∈ files, file.Settled := by
  induction files generalizing s with
  | nil => exact fun _ hfile => absurd hfile List.not_mem_nil
  | cons file files ih =>
    rw [run_collectAll_cons] at h
    cases hcollect : s.registry.collect file with
    | error e =>
      rw [hcollect] at h
      cases h
    | ok r =>
      rw [hcollect] at h
      exact List.forall_mem_cons.mpr ⟨(collect_eq_ok.mp hcollect).1, ih h⟩

/-- The declarations of files with different modules are entered one file after the other. -/
theorem run_collectAll (hsettled : ∀ file ∈ files, file.Settled)
    (hkeys : (files.map (·.path.moduleKey)).Nodup)
    (hother : ∀ file ∈ files, ∀ d ∈ ds, d.file.moduleKey ≠ file.path.moduleKey)
    (hdistinct : ((ds ++ files.flatMap SourceFile.declared).map Declaration.id).Nodup)
    (h : s.registry.Lists ds) :
    ∃ r : Registry, (collectAll files).run.run s = (.ok (), { s with registry := r }) ∧
      r.Lists (ds ++ files.flatMap SourceFile.declared) := by
  induction files generalizing s ds with
  | nil =>
    refine ⟨s.registry, rfl, ?_⟩
    rwa [List.flatMap_nil, List.append_nil]
  | cons file files ih =>
    obtain ⟨hfile, hsettled⟩ := List.forall_mem_cons.mp hsettled
    obtain ⟨hnew, hother⟩ := List.forall_mem_cons.mp hother
    obtain ⟨hkey, hkeys⟩ := List.nodup_cons.mp hkeys
    rw [List.flatMap_cons, ← List.append_assoc] at hdistinct
    have hcollect := collect_eq_ok (r := s.registry).mpr ⟨hfile, rfl⟩
    have hlists := h.collect hcollect
      (fun d hd => Bool.eq_false_iff.mpr fun hsame => hnew d hd (SourcePath.moduleKey_eq hsame))
      (List.Nodup.sublist ((List.sublist_append_left _ _).map _) hdistinct)
    generalize (s.registry.forgetFile file.path).2.declareAll file.declared = r at hcollect hlists
    have hother' : ∀ f ∈ files, ∀ d ∈ ds ++ file.declared, d.file.moduleKey ≠ f.path.moduleKey := by
      intro f hf d hd
      rcases List.mem_append.mp hd with hd | hd
      · exact hother f hf d hd
      · rw [file.made.file d hd]
        exact fun heq => hkey (List.mem_map.mpr ⟨f, hf, heq.symm⟩)
    obtain ⟨r', hrun, hr'⟩ := ih (s := { s with registry := r }) hsettled hkeys hother' hdistinct hlists
    refine ⟨r', ?_, ?_⟩
    · rw [run_collectAll_cons, hcollect]
      exact hrun
    · rwa [List.flatMap_cons, ← List.append_assoc]

end Session

namespace Parses

variable {n k : Nat} {inputs : List (SourcePath × String)} {files : List SourceFile}

theorem paths (h : Parses n inputs files k) : files.map (·.path) = inputs.map (·.1) := by
  induction h with
  | nil => rfl
  | cons head _ ih => rw [List.map_cons, List.map_cons, ih, (SourceFile.parse_numbered head).2]

theorem keys (h : Parses n inputs files k) :
    files.map (·.path.moduleKey) = inputs.map (·.1.moduleKey) := by
  have heq := congrArg (List.map SourcePath.moduleKey) h.paths
  rwa [List.map_map, List.map_map] at heq

theorem numbered (h : Parses n inputs files k) :
    Numbered n k (files.flatMap SourceFile.items) := by
  induction h with
  | nil => exact .nil (Nat.le_refl _)
  | cons head _ ih => exact (SourceFile.parse_numbered head).1.append ih

/-- The declarations of a program are nodes of it. -/
theorem declared_sublist (files : List SourceFile) :
    ((files.flatMap SourceFile.declared).map Declaration.id).Sublist
      ((files.flatMap SourceFile.items).map Item.id) := by
  induction files with
  | nil => exact .slnil
  | cons file files ih =>
    rw [List.flatMap_cons, List.flatMap_cons, List.map_append, List.map_append]
    exact file.made.ids.append ih

theorem nodup_declared (h : Parses n inputs files k) :
    ((files.flatMap SourceFile.declared).map Declaration.id).Nodup :=
  List.Nodup.sublist (declared_sublist files) h.numbered.nodup

theorem declared_lt (h : Parses n inputs files k) {d : Declaration}
    (hd : d ∈ files.flatMap SourceFile.declared) : d.id < k := by
  obtain ⟨i, hi, hid⟩ := List.mem_map.mp ((declared_sublist files).subset (List.mem_map_of_mem hd))
  exact hid ▸ (h.numbered.bounds i hi).2

end Parses

end MacroEngine
