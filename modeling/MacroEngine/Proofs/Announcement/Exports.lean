import MacroEngine.Proofs.Announcement.Beside
import MacroEngine.Proofs.Emission
import MacroEngine.Proofs.Registry.Collection
import MacroEngine.Proofs.RoundTrip.FixedPoint

/-!
# What a declaration file announces

A declaration file is parsed, and collecting it enters the exported macro functions of its module, in
their order, under their kinds, names and export names, with nothing in their bodies. A variable that is
set to a macro function declares a macro and can be exported too, but is left out: a declaration file
announces every exported macro of its module just if none of them is a variable.
-/

namespace MacroEngine

namespace Declaration

/-- What others can know of a macro: its kind, its name, and the export through which it is found. -/
def announcement (d : Declaration) : MacroKind × String × Option String :=
  (d.kind, d.name, d.exportName?)

def isStatement (d : Declaration) : Bool :=
  match d.shape with
  | .function _ => true
  | _ => false

end Declaration

/-- What the first pass meets at a statement that is exported, apart from what the statement holds. -/
def Stmt.exported (path : SourcePath) : Stmt → List Finding
  | .function s h _ =>
    if h.visibility = .internal then []
    else Finding.ofHead path s (.function (h.visibility = .default)) h.name h.macroKind
  | .binding _ _ name (some (.function s h _)) visibility =>
    if visibility = .internal then []
    else Finding.ofHead path s (.bound name) (h.name.or (some name)) h.macroKind
  | _ => []

def SourceFile.exported (file : SourceFile) : List Declaration :=
  (file.statements.flatMap (Stmt.exported file.path)).filterMap Finding.declaration?

theorem Stmt.exported_sublist (path : SourcePath) (s : Stmt) :
    (s.exported path).Sublist (s.findings path) := by
  unfold exported
  split
  · split
    · exact List.nil_sublist _
    · exact List.sublist_append_left _ _
  · split
    · exact List.nil_sublist _
    · exact List.sublist_append_left _ _
  · exact List.nil_sublist _

/-- The exported macros are among what the file declares, in the same order. -/
theorem SourceFile.exported_sublist (file : SourceFile) : file.exported.Sublist file.declared := by
  rw [exported, declared, findings, Stmt.findingsAll_eq_flatMap]
  refine List.Sublist.filterMap _ ?_
  induction file.statements with
  | nil => exact List.Sublist.refl _
  | cons s ss ih =>
    rw [List.flatMap_cons, List.flatMap_cons]
    exact (s.exported_sublist file.path).append ih

section Signatures

/-- An exported macro function with a name, such as the grammar reads it, and nothing in its body. -/
inductive Stmt.IsSignature : Stmt → Prop
  | mk (stamp : Stamp) (head : FunctionHead) (block : Stamp) {kind : MacroKind} {name : String}
    (hkind : head.macroKind = some kind) (hname : head.name = some name)
    (hexported : head.visibility ≠ .internal) (hregular : head.Regular) :
    IsSignature (.function stamp head ⟨block, []⟩)

variable {s s' : Stmt} {ss ss' : List Stmt}

theorem Stmt.exported_function {head : FunctionHead} {kind : MacroKind} {name : String}
    (hkind : head.macroKind = some kind) (hname : head.name = some name)
    (hexported : head.visibility ≠ .internal) (path : SourcePath) (stamp : Stamp) (body : Block) :
    (Stmt.function stamp head body).exported path = [.declares
      ⟨stamp.id, kind, name, .function (head.visibility = .default), path, stamp.span⟩] := by
  rw [exported, if_neg hexported, hkind, hname]
  rfl

/-- Everything that is met in a signature is exported. -/
theorem Stmt.IsSignature.findings_eq (h : s.IsSignature) (path : SourcePath) :
    s.findings path = s.exported path := by
  obtain ⟨stamp, head, block, -, -, hexported, -⟩ := h
  rw [findings, exported, if_neg hexported]
  exact List.append_nil _

/-- Only a function is recast to a function. -/
theorem Stmt.eq_function_of_recast {head : FunctionHead}
    (h : s.recast .core = .function default head ⟨default, []⟩) :
    ∃ stamp block, s = .function stamp head ⟨block, []⟩ := by
  cases s with
  | function stamp head' body =>
    obtain ⟨block, stmts⟩ := body
    rw [recast, Block.recast] at h
    obtain ⟨-, rfl, hblock⟩ := Stmt.function.inj h
    cases stmts with
    | nil => exact ⟨stamp, block, rfl⟩
    | cons s ss => cases (Block.mk.inj hblock).2
  | binding _ _ _ init _ => cases init <;> cases h
  | ret _ value => cases value <;> cases h
  | ifElse _ _ _ alternative => cases alternative <;> cases h
  | _ => cases h

/-- A statement like a signature is a signature, and announces the same. -/
theorem Stmt.IsSignature.of_recast (h : s.IsSignature) (hrecast : s'.recast .core = s.recast .core)
    (path path' : SourcePath) : s'.IsSignature ∧ ∃ d d', s.exported path = [.declares d] ∧
      s'.exported path' = [.declares d'] ∧ d'.announcement = d.announcement := by
  obtain ⟨stamp, head, block, hkind, hname, hexported, hregular⟩ := h
  obtain ⟨stamp', block', rfl⟩ := eq_function_of_recast hrecast
  exact ⟨.mk stamp' head block' hkind hname hexported hregular, _, _,
    exported_function hkind hname hexported path stamp _,
    exported_function hkind hname hexported path' stamp' _, rfl⟩

/-- Statements like signatures are signatures. What is met in them is announced by them. -/
theorem Stmt.announcements_of_recast (hss : ∀ s ∈ ss, s.IsSignature)
    (h : Stmt.recastAll .core ss' = Stmt.recastAll .core ss) (path path' : SourcePath) :
    (∀ s' ∈ ss', s'.IsSignature) ∧ ∃ ds ds' : List Declaration,
      ss.flatMap (Stmt.exported path) = ds.map .declares ∧
        ss'.flatMap (Stmt.exported path') = ds'.map .declares ∧
          ds'.map Declaration.announcement = ds.map Declaration.announcement := by
  induction ss generalizing ss' with
  | nil =>
    cases ss' with
    | nil => exact ⟨fun _ hs' => absurd hs' List.not_mem_nil, [], [], rfl, rfl, rfl⟩
    | cons s' ss' => cases h
  | cons s ss ih =>
    cases ss' with
    | nil => cases h
    | cons s' ss' =>
      obtain ⟨hfirst, hrest⟩ := List.cons.inj h
      obtain ⟨hs', d, d', hd, hd', hsame⟩ :=
        (hss s List.mem_cons_self).of_recast hfirst path path'
      obtain ⟨hss', ds, ds', hds, hds', hall⟩ := ih (fun s hs => hss s (List.mem_cons_of_mem _ hs)) hrest
      refine ⟨List.forall_mem_cons.mpr ⟨hs', hss'⟩, d :: ds, d' :: ds', ?_, ?_, ?_⟩
      · rw [List.flatMap_cons, hd, hds]
        rfl
      · rw [List.flatMap_cons, hd', hds']
        rfl
      · rw [List.map_cons, List.map_cons, hsame, hall]

/-- Function statements are told from variables by what they declare. -/
theorem Finding.filter_isStatement (path : SourcePath) (stamp : Stamp) (name : Option String)
    (kind : Option MacroKind) :
    (∀ isDefault, ((Finding.ofHead path stamp (.function isDefault) name kind).filterMap
      Finding.declaration?).filter Declaration.isStatement =
        (Finding.ofHead path stamp (.function isDefault) name kind).filterMap Finding.declaration?) ∧
      ∀ x, ((Finding.ofHead path stamp (.bound x) name kind).filterMap
        Finding.declaration?).filter Declaration.isStatement = [] := by
  cases kind <;> cases name <;> exact ⟨fun _ => rfl, fun _ => rfl⟩

/-- The signature of a statement exports what the statement does, unless that is a variable. -/
theorem Stmt.exported_signature? (path : SourcePath) (s : Stmt) :
    (s.signature?.toList.flatMap (Stmt.exported path)).filterMap Finding.declaration? =
      ((s.exported path).filterMap Finding.declaration?).filter Declaration.isStatement := by
  cases s with
  | function stamp head body =>
    by_cases hinternal : head.visibility = .internal
    · simp [signature?, exported, hinternal]
    · rw [exported, if_neg hinternal, (Finding.filter_isStatement _ _ _ _).1]
      cases hkind : head.macroKind <;>
        simp [signature?, exported, hinternal, hkind, Finding.ofHead]
  | binding _ _ x init visibility =>
    cases init with
    | none => rfl
    | some e =>
      cases e with
      | function stamp head body =>
        rw [exported]
        split
        · rfl
        · exact ((Finding.filter_isStatement _ _ _ _).2 x).symm
      | _ => rfl
  | _ => rfl

end Signatures

section Files

variable {file f : SourceFile} {path : SourcePath} {text : String} {n k : NodeId}

theorem SourceFile.signatures_withoutAuthoring (file : SourceFile) :
    file.withoutAuthoring.signatures.statements = file.statements.filterMap Stmt.signature? := by
  rw [signatures, withoutAuthoring, List.filterMap_filter]
  refine List.filterMap_congr fun s _ => ?_
  cases s with
  | importNames => exact ite_self _
  | _ => rfl

theorem Stmt.isSignature_of_regular {s s' : Stmt} (hs : s.Regular) (h : s.signature? = some s') :
    s'.IsSignature := by
  cases s with
  | function stamp head body =>
    rw [signature?, Option.ite_none_left_eq_some] at h
    obtain ⟨hexported, h⟩ := h
    obtain rfl := Option.some.inj h
    rw [Bool.or_eq_true, not_or, Option.isNone_iff_eq_none, decide_eq_true_iff] at hexported
    obtain ⟨kind, hkind⟩ := Option.ne_none_iff_exists'.mp hexported.1
    obtain ⟨name, hname⟩ := Option.ne_none_iff_exists'.mp hs.2
    exact .mk stamp head body.stamp hkind hname hexported.2 hs.1
  | _ => cases h

theorem SourceFile.isSignature_of_parse (h : (SourceFile.parse path text).run n = (.ok f, k)) :
    ∀ s ∈ f.withoutAuthoring.signatures.statements, s.IsSignature := by
  intro s hs
  rw [signatures_withoutAuthoring] at hs
  obtain ⟨s', hs', hsignature⟩ := List.mem_filterMap.mp hs
  have hmem : Item.stmt s' ∈ f.items := by
    rw [items, Stmt.itemsAll_eq_flatMap]
    exact List.mem_flatMap.mpr ⟨s', hs', s'.mem_items_self true⟩
  exact Stmt.isSignature_of_regular ((SourceFile.parse_numbered h).1.regular _ hmem) hsignature

/-- Signatures hold no nodes. -/
theorem SourceFile.isSignature_of_mem_items (h : ∀ s ∈ file.statements, s.IsSignature) {i : Item}
    (hi : i ∈ file.items) : ∃ s, i = .stmt s ∧ s.IsSignature := by
  rw [items, Stmt.itemsAll_eq_flatMap] at hi
  obtain ⟨s, hs, hi⟩ := List.mem_flatMap.mp hi
  have hsignature := h s hs
  refine ⟨s, ?_, hsignature⟩
  cases hsignature
  exact List.mem_singleton.mp hi

/-- Signatures can be read again once they are printed. -/
theorem SourceFile.wellFormed_of_isSignature (h : ∀ s ∈ file.statements, s.IsSignature) :
    file.WellFormed := by
  intro i hi
  obtain ⟨_, rfl, stamp, head, block, -, hname, -, hregular⟩ := isSignature_of_mem_items h hi
  refine ⟨⟨hregular, ?_⟩, trivial⟩
  rw [hname]
  exact Option.some_ne_none _

theorem Registry.collect_of_settled (r : Registry) (h : file.Settled) :
    r.collect file = .ok ((r.forgetFile file.path).2.declareAll file.declared) := by
  rw [SourceFile.Settled] at h
  rw [collect_eq, h]
  rfl

theorem Registry.settled_of_collect {r r' : Registry} (h : r.collect file = .ok r') :
    file.Settled := by
  rw [collect_eq] at h
  rw [SourceFile.Settled]
  cases hfirst : file.findings.findSome? (Finding.error? file.path) with
  | none => rfl
  | some e =>
    rw [hfirst] at h
    cases h

/-- Collecting a first file enters what it declares. -/
theorem Registry.declarations_of_collect
    (hparse : (SourceFile.parse path text).run n = (.ok file, k)) {r : Registry}
    (h : Registry.empty.collect file = .ok r) : r.declarations = file.declared := by
  obtain rfl := Except.ok.inj ((collect_of_settled _ (settled_of_collect h)).symm.trans h)
  obtain ⟨hnumbered, rfl⟩ := SourceFile.parse_numbered hparse
  have hgains := gains_declareAll (r := Registry.empty) file.made.file
    (hnumbered.nodup.sublist file.made.ids)
  have hnew : file.declared.filter (fun d => (Registry.empty.declaration? d.id).isNone) =
      file.declared := List.filter_eq_self.mpr fun _ _ => rfl
  exact hgains.declarations.trans hnew

/-- Collecting a file of signatures enters what they export. -/
theorem Registry.collect_signatures (hparse : (SourceFile.parse path text).run n = (.ok file, k))
    (h : ∀ s ∈ file.statements, s.IsSignature) {ds : List Declaration}
    (hds : file.statements.flatMap (Stmt.exported path) = ds.map .declares) :
    ∃ r, Registry.empty.collect file = .ok r ∧ r.declarations = ds := by
  obtain ⟨-, rfl⟩ := SourceFile.parse_numbered hparse
  have hfindings : file.findings = ds.map .declares := by
    rw [SourceFile.findings, Stmt.findingsAll_eq_flatMap, ← hds]
    exact List.flatMap_congr fun s hs => (h s hs).findings_eq file.path
  have hsettled : file.Settled := by
    rw [SourceFile.Settled, hfindings, List.findSome?_map]
    exact List.findSome?_eq_none_iff.mpr fun _ _ => rfl
  have hdeclared : file.declared = ds := by
    rw [SourceFile.declared, hfindings, List.filterMap_map]
    exact List.filterMap_some
  have hcollect := collect_of_settled Registry.empty hsettled
  exact ⟨_, hcollect, (declarations_of_collect hparse hcollect).trans hdeclared⟩

end Files

def Item.Bodiless : Item → Prop
  | .stmt (.function _ _ body) | .expr (.function _ _ body) => body.stmts = []
  | _ => True

/-- A text announces macros: wherever it stands, it is parsed, its functions have empty bodies, and
collecting it enters these macros, in this order. -/
def Announces (text : String) (announced : List (MacroKind × String × Option String)) : Prop :=
  ∀ (path : SourcePath) (n : NodeId), ∃ file k, (SourceFile.parse path text).run n = (.ok file, k) ∧
    (∀ i ∈ file.items, i.Bodiless) ∧ ∃ r, Registry.empty.collect file = .ok r ∧
      r.declarations.map Declaration.announcement = announced

section Announced

variable {earlier later : List SourceFile} {f : SourceFile} {path : SourcePath} {text : String}
  {n k : NodeId} {announced announced' : List (MacroKind × String × Option String)}

theorem Announces.unique (h : Announces text announced) (h' : Announces text announced') :
    announced = announced' := by
  obtain ⟨file, k, hparse, -, r, hcollect, hannounced⟩ := h default 0
  obtain ⟨file', k', hparse', -, r', hcollect', hannounced'⟩ := h' default 0
  obtain rfl := Except.ok.inj (congrArg Prod.fst (hparse.symm.trans hparse'))
  obtain rfl := Except.ok.inj (hcollect.symm.trans hcollect')
  exact hannounced.symm.trans hannounced'

/-- The signatures of a file export what its function statements do. -/
theorem SourceFile.exported_signatures (file : SourceFile) :
    (file.withoutAuthoring.signatures.statements.flatMap (Stmt.exported file.path)).filterMap
      Finding.declaration? = file.exported.filter Declaration.isStatement := by
  rw [signatures_withoutAuthoring, exported, List.filterMap_eq_flatMap_toList Stmt.signature?,
    List.flatMap_assoc, List.filterMap_flatMap, List.filterMap_flatMap, List.filter_flatMap]
  exact List.flatMap_congr fun s _ => s.exported_signature? file.path

/-- A declaration file announces the exported function statements of its module. -/
theorem SourceFile.announces_declarationText
    (h : (SourceFile.parse path text).run n = (.ok f, k)) : Announces f.declarationText
      ((f.exported.filter Declaration.isStatement).map Declaration.announcement) := by
  intro path' n'
  have hsignatures := SourceFile.isSignature_of_parse h
  obtain ⟨file, k', hparse, hrecast⟩ := f.withoutAuthoring.signatures.parse_print
    (SourceFile.wellFormed_of_isSignature hsignatures) path' n'
  have hparse : (SourceFile.parse path' f.declarationText).run n' = (.ok file, k') := by
    unfold StateT.run
    exact hparse
  obtain ⟨hsignatures', ds, ds', hds, hds', hsame⟩ :=
    Stmt.announcements_of_recast hsignatures hrecast f.path path'
  have hstatements : f.exported.filter Declaration.isStatement = ds := by
    rw [← f.exported_signatures, hds, List.filterMap_map]
    exact List.filterMap_some
  obtain ⟨r, hcollect, hdeclarations⟩ := Registry.collect_signatures hparse hsignatures' hds'
  refine ⟨file, k', hparse, fun i hi => ?_, r, hcollect, ?_⟩
  · obtain ⟨_, rfl, ⟨⟩⟩ := SourceFile.isSignature_of_mem_items hsignatures' hi
    rfl
  · rw [hdeclarations, hsame, hstatements]

/-- The declaration file of a module stays where it is entered, if no module stands there. -/
theorem Emitter.get?_declarationPath (hlater : ∀ g ∈ later, ¬(g.path == f.path))
    (hpaths : ∀ g ∈ earlier ++ f :: later, ¬(g.path == f.path.declarationPath)) (strict : Bool) :
    Table.get? f.path.declarationPath
      (printing (earlier ++ f :: later) ⟨true, strict⟩).files = some f.declarationText := by
  have hf := hpaths f (List.mem_append_right _ List.mem_cons_self)
  have hself : f.declaresAt ⟨true, strict⟩ f.path.declarationPath := BEq.rfl
  have hothers : later.filter (·.declaresAt ⟨true, strict⟩ f.path.declarationPath) = [] := by
    refine List.filter_eq_nil_iff.mpr fun g hg hshared => hlater g hg ?_
    have hg' := hpaths g (List.mem_append_right _ (List.mem_cons_of_mem _ hg))
    have hshared : g.path.declarationPath == f.path.declarationPath := hshared
    exact SourcePath.beq_of_declarationPath (fun h => hg' (BEq.trans h hshared)) hf hshared
  rw [files_printing, Emitted.get?_insertFiles, lastText?_flatMap_writes hpaths, List.filter_append,
    List.filter_cons_of_pos hself, hothers, List.getLast?_concat]
  rfl

/-- With declaration files on, the declaration file of a parsed file announces its exported macro
functions, if the path is that of no module. It announces all its exported macros just if none of them
is a variable. The exported macros are among those that collecting the file enters, in this order. -/
theorem Emitter.declarations_announced (hparse : (SourceFile.parse path text).run n = (.ok f, k))
    (hlater : ∀ g ∈ later, ¬(g.path == f.path))
    (hpaths : ∀ g ∈ earlier ++ f :: later, ¬(g.path == f.path.declarationPath)) (strict : Bool) :
    ∃ d, Table.get? f.path.declarationPath
        (printing (earlier ++ f :: later) ⟨true, strict⟩).files = some d ∧
      Announces d ((f.exported.filter Declaration.isStatement).map Declaration.announcement) ∧
      (Announces d (f.exported.map Declaration.announcement) ↔
        ∀ e ∈ f.exported, e.isStatement = true) ∧
      ∀ r, Registry.empty.collect f = .ok r → f.exported.Sublist r.declarations := by
  have hannounces := SourceFile.announces_declarationText hparse
  refine ⟨_, get?_declarationPath hlater hpaths strict, hannounces, ⟨fun hall => ?_, fun hall => ?_⟩,
    fun r hr => ?_⟩
  · have hlength := congrArg List.length (hall.unique hannounces)
    rw [List.length_map, List.length_map] at hlength
    exact List.length_filter_eq_length_iff.mp hlength.symm
  · rwa [List.filter_eq_self.mpr hall] at hannounces
  · rw [Registry.declarations_of_collect hparse hr]
    exact f.exported_sublist

end Announced

section Exports

/-- Two macros that are exported, and a variable that is not. -/
def exportingBoth : String := "export macro function one() \x7b go(); \x7d " ++
  "export default macro derive function Two() \x7b\x7d const three = macro function() \x7b\x7d;"

theorem declarations_announced_both : ∃ f k,
    (SourceFile.parse ⟨"n.kn"⟩ exportingBoth).run 0 = (.ok f, k) ∧
      (∀ g ∈ [plainFile], ¬(g.path == f.path)) ∧
      (∀ g ∈ [] ++ f :: [plainFile], ¬(g.path == f.path.declarationPath)) ∧
      ∃ d, Table.get? f.path.declarationPath
          (Emitter.printing ([] ++ f :: [plainFile]) ⟨true, false⟩).files = some d ∧
        Announces d [(.function, "one", some "one"), (.derive, "Two", some "default")] := by
  have heval : (match (SourceFile.parse ⟨"n.kn"⟩ exportingBoth).run 0 with
    | (.ok f, _) => decide ((∀ g ∈ [plainFile], ¬(g.path == f.path)) ∧
        (∀ g ∈ [] ++ f :: [plainFile], ¬(g.path == f.path.declarationPath)) ∧
        (∀ e ∈ f.exported, e.isStatement = true) ∧ f.exported.map Declaration.announcement =
          [(.function, "one", some "one"), (.derive, "Two", some "default")])
    | (.error _, _) => false) = true := by decide +kernel
  generalize hparse : (SourceFile.parse ⟨"n.kn"⟩ exportingBoth).run 0 = out at heval
  obtain ⟨_ | f, k⟩ := out
  · cases heval
  · obtain ⟨hlater, hpaths, hall, hexported⟩ := of_decide_eq_true heval
    obtain ⟨d, hd, -, hannounces, -⟩ := Emitter.declarations_announced hparse hlater hpaths false
    refine ⟨f, k, rfl, hlater, hpaths, d, hd, ?_⟩
    rw [← hexported]
    exact hannounces.mpr hall

/-- A variable that is exported and set to a macro function. -/
def exportingVariable : String := "export const q = macro function() \x7b\x7d;"

/-- It is not announced, so it is not true that every exported macro is. -/
theorem not_declarations_announced : ¬∀ (earlier : List SourceFile) (f : SourceFile)
    (later : List SourceFile) (path : SourcePath) (text : String) (n k : NodeId),
      (SourceFile.parse path text).run n = (.ok f, k) →
      (∃ r, Registry.empty.collect f = .ok r) →
      (∃ f' k', (SourceFile.parse path f.print).run k = (.ok f', k')) →
      (∀ g ∈ earlier ++ later, ¬(g.path == f.path)) →
      (∀ g ∈ earlier ++ f :: later, ¬(g.path == f.path.declarationPath)) → ∀ strict : Bool,
        ∃ d, Table.get? f.path.declarationPath
            (Emitter.printing (earlier ++ f :: later) ⟨true, strict⟩).files = some d ∧
          Announces d (f.exported.map Declaration.announcement) := by
  intro hall
  have heval : (match (SourceFile.parse ⟨"macros.kn"⟩ exportingVariable).run 0 with
    | (.ok f, k) => (f.findings.findSome? (Finding.error? f.path)).isNone &&
        (match (SourceFile.parse ⟨"macros.kn"⟩ f.print).run k with
          | (.ok _, _) => true
          | (.error _, _) => false) &&
        decide (¬(f.path == f.path.declarationPath)) &&
        f.exported.map Declaration.announcement == [(.function, "q", some "q")] &&
        (f.exported.filter Declaration.isStatement).isEmpty
    | (.error _, _) => false) = true := by decide +kernel
  generalize hparse : (SourceFile.parse ⟨"macros.kn"⟩ exportingVariable).run 0 = out at heval
  obtain ⟨_ | f, k⟩ := out
  · cases heval
  · simp only [Bool.and_eq_true, decide_eq_true_eq, beq_iff_eq, List.isEmpty_iff] at heval
    obtain ⟨⟨⟨⟨hsettled, hagain⟩, hbeside⟩, hexported⟩, hstatements⟩ := heval
    have hcollect := Registry.collect_of_settled .empty (Option.isNone_iff_eq_none.mp hsettled)
    have hreparsed : ∃ f' k', (SourceFile.parse ⟨"macros.kn"⟩ f.print).run k = (.ok f', k') := by
      generalize (SourceFile.parse ⟨"macros.kn"⟩ f.print).run k = again at hagain ⊢
      obtain ⟨_ | f', k'⟩ := again
      · cases hagain
      · exact ⟨f', k', rfl⟩
    have hpaths : ∀ g ∈ [] ++ [f], ¬(g.path == f.path.declarationPath) := by
      intro g hg
      obtain rfl := List.mem_singleton.mp hg
      exact hbeside
    have hnone : ∀ g ∈ ([] : List SourceFile), ¬(g.path == f.path) := fun _ hg => nomatch hg
    obtain ⟨d, hd, hannounces⟩ := hall [] f [] _ _ 0 k hparse ⟨_, hcollect⟩ hreparsed hnone hpaths false
    have hstands := Emitter.get?_declarationPath hnone hpaths false
    obtain rfl : f.declarationText = d := Option.some.inj (hstands.symm.trans hd)
    have hsame := hannounces.unique (SourceFile.announces_declarationText hparse)
    rw [hexported, hstatements] at hsame
    cases hsame

end Exports

end MacroEngine
