import MacroEngine.Proofs.Expansion.Spots
import MacroEngine.Proofs.Registry.Replacement

/-!
# Entering the declarations of a file

A macro function is a statement, or an expression that a variable statement sets its variable to. An
expression that is a macro function anywhere else is astray. The first pass stops at the first macro
function astray and does not look into it; up to there it meets the macro functions in the order of the
text. So a file with none astray has all its macro functions entered, in place of what was entered for
its path, and a file with one astray leaves the registry as it was.
-/

namespace MacroEngine

def Item.isMacro : Item → Bool
  | .stmt (.function _ h _) | .expr (.function _ h _) => h.macroKind.isSome
  | _ => false

def Item.boundName? : Item → Option String
  | .stmt (.binding _ _ name _ _) => some name
  | _ => none

namespace Spot

def boundName? (p : Spot) : Option String := p.holder?.bind Item.boundName?

/-- A macro function expression that stands anywhere but where a variable statement sets its variable to
it. -/
def IsStray (p : Spot) : Prop :=
  ∃ s h b, p.node = .expr (.function s h b) ∧ h.macroKind.isSome = true ∧
    ∀ stamp kind x v, p.holder? ≠ some (.stmt (.binding stamp kind x (some (.function s h b)) v))

/-- The name and the span of a macro function that is astray. -/
def stray? (p : Spot) : Option (Option String × Span) :=
  match p.node, p.boundName? with
  | .expr (.function s h _), none => if h.macroKind.isSome then some (h.name, s.span) else none
  | _, _ => none

def declaration? (path : SourcePath) (p : Spot) : Option Declaration :=
  match p.node with
  | .stmt (.function s h _) =>
    h.macroKind.bind fun kind => h.name.map fun name =>
      ⟨s.id, kind, name, .function (h.visibility = .default), path, s.span⟩
  | .expr (.function s h _) =>
    h.macroKind.bind fun kind => p.boundName?.map fun holder =>
      ⟨s.id, kind, h.name.getD holder, .bound holder, path, s.span⟩
  | _ => none

def findings (path : SourcePath) (p : Spot) : List Finding :=
  (p.declaration? path).toList.map .declares ++
    p.stray?.toList.map fun (name, span) => .unbound name span

end Spot

/-- Findings that agree up to the first macro function that is astray. -/
inductive Finding.Agree : List Finding → List Finding → Prop
  | nil : Agree [] []
  | declares {d : Declaration} {fs gs : List Finding} (h : Agree fs gs) :
    Agree (.declares d :: fs) (.declares d :: gs)
  | unbound {name : Option String} {span : Span} (fs gs : List Finding) :
    Agree (.unbound name span :: fs) (.unbound name span :: gs)

namespace Finding.Agree

variable {fs fs' gs gs' : List Finding} {path : SourcePath}

theorem refl (fs : List Finding) : Agree fs fs := by
  induction fs with
  | nil => exact .nil
  | cons f fs ih =>
    cases f with
    | declares d => exact .declares ih
    | unbound name span => exact .unbound fs fs

theorem trans {hs : List Finding} (h : Agree fs gs) (h' : Agree gs hs) : Agree fs hs := by
  induction h generalizing hs with
  | nil => exact h'
  | declares _ ih =>
    cases h' with
    | declares h' => exact .declares (ih h')
  | unbound fs gs =>
    cases h' with
    | unbound gs hs => exact .unbound fs hs

theorem append (h : Agree fs gs) (h' : Agree fs' gs') : Agree (fs ++ fs') (gs ++ gs') := by
  induction h with
  | nil => exact h'
  | declares _ ih => exact .declares ih
  | unbound fs gs => exact .unbound _ _

theorem flatMap {α : Type} {f g : α → List Finding} {as : List α}
    (h : ∀ a ∈ as, Agree (f a) (g a)) : Agree (as.flatMap f) (as.flatMap g) := by
  induction as with
  | nil => exact .nil
  | cons a as ih =>
    rw [List.flatMap_cons, List.flatMap_cons]
    exact (h a List.mem_cons_self).append (ih fun b hb => h b (List.mem_cons_of_mem _ hb))

/-- The first error is the same. -/
theorem findSome?_error? (h : Agree fs gs) :
    fs.findSome? (Finding.error? path) = gs.findSome? (Finding.error? path) := by
  induction h with
  | nil => rfl
  | declares _ ih => exact ih
  | unbound fs gs => rfl

/-- Without an error, the findings are the same. -/
theorem eq (h : Agree fs gs) (hnone : gs.findSome? (Finding.error? path) = none) : fs = gs := by
  induction h with
  | nil => rfl
  | declares _ ih => exact congrArg _ (ih hnone)
  | unbound fs gs => cases hnone

end Finding.Agree

section Findings

variable (path : SourcePath)

/-- The findings in a node, when a variable is set to it, or none is. -/
def Item.findings : Option String → Item → List Finding
  | _, .stmt s => s.findings path
  | some x, .expr (.function s h b) =>
    Finding.ofHead path s (.bound x) (h.name.or (some x)) h.macroKind ++ b.findings path
  | _, .expr e => e.findings path

theorem Expr.findingsAll_eq_flatMap (es : List Expr) :
    Expr.findingsAll path es = es.flatMap (Expr.findings path) := by
  induction es with
  | nil => rfl
  | cons e es ih => rw [Expr.findingsAll, ih, List.flatMap_cons]

theorem Expr.findingsProperties_eq_flatMap (ps : List (String × Expr)) :
    Expr.findingsProperties path ps = ps.flatMap fun p => p.2.findings path := by
  induction ps with
  | nil => rfl
  | cons p ps ih => rw [Expr.findingsProperties, ih, List.flatMap_cons]

theorem Stmt.findingsAll_eq_flatMap (ss : List Stmt) :
    Stmt.findingsAll path ss = ss.flatMap (Stmt.findings path) := by
  induction ss with
  | nil => rfl
  | cons s ss ih => rw [Stmt.findingsAll, ih, List.flatMap_cons]

theorem Block.findings_eq (b : Block) :
    b.findings path = b.stmts.flatMap (Stmt.findings path) := by
  cases b
  exact Stmt.findingsAll_eq_flatMap path _

@[simp] theorem Item.findings_stmt (name? : Option String) (s : Stmt) :
    Item.findings path name? (.stmt s) = s.findings path := by
  cases name? <;> rfl

@[simp] theorem Item.findings_none (e : Expr) :
    Item.findings path none (.expr e) = e.findings path := by
  cases e <;> rfl

theorem Finding.ofHead_eq (stamp : Stamp) (shape : DeclarationShape) (name : Option String)
    (kind : Option MacroKind) : Finding.ofHead path stamp shape name kind =
      ((kind.bind fun kind => name.map fun name =>
        (⟨stamp.id, kind, name, shape, path, stamp.span⟩ : Declaration)).toList).map .declares := by
  cases kind <;> cases name <;> rfl

theorem Member.findingsAll_eq (ms : List Member) : Member.findingsAll path ms =
    ((ms.flatMap Member.parts).flatMap Part.nodes).flatMap (Item.findings path none) := by
  induction ms with
  | nil => rfl
  | cons m ms ih =>
    rw [List.flatMap_cons, List.flatMap_append, List.flatMap_append, ← ih]
    obtain ⟨_, _, _ | _⟩ | ⟨_, _, _⟩ := m <;>
      simp [findingsAll, parts, Part.nodes, Block.findings_eq, List.flatMap_map]

/-- The findings in a statement are its own and those in the nodes it holds. -/
theorem Stmt.findings_eq (holder? : Option Item) (s : Stmt) :
    s.findings path = (⟨holder?, .stmt s⟩ : Spot).findings path ++
      (Item.stmt s).children.flatMap (Item.findings path (Item.stmt s).boundName?) := by
  cases s with
  | binding _ _ name init _ =>
    rcases init with _ | e
    · rfl
    · cases e <;> simp [findings, Spot.findings, Spot.declaration?, Spot.stray?, Item.children,
        Item.parts, parts, Part.nodes, Item.boundName?, Item.findings]
  | ret _ value =>
    cases value <;> simp [findings, Spot.findings, Spot.declaration?, Spot.stray?, Item.children,
      Item.parts, parts, Part.nodes, Item.boundName?]
  | ifElse _ _ _ alternative =>
    cases alternative <;> simp [findings, Spot.findings, Spot.declaration?, Spot.stray?,
      Item.children, Item.parts, parts, Part.nodes, Item.boundName?, Block.findings_eq,
      List.flatMap_map]
  | classDecl _ _ ms => exact Member.findingsAll_eq path ms
  | function s h b =>
    simp [findings, Spot.findings, Spot.declaration?, Spot.stray?, Finding.ofHead_eq, Item.children,
      Item.parts, parts, Part.nodes, Block.findings_eq, List.flatMap_map]
  | _ =>
    simp [findings, Spot.findings, Spot.declaration?, Spot.stray?, Item.children,
      Item.parts, parts, Part.nodes, Block.findings_eq, List.flatMap_map, Item.boundName?]

/-- The findings in an expression are its own and those in the nodes it holds, except that none are
met in a macro function astray. -/
theorem Expr.findings_agree (holder? : Option Item) (e : Expr) :
    Finding.Agree (Item.findings path (holder?.bind Item.boundName?) (.expr e))
      ((⟨holder?, .expr e⟩ : Spot).findings path ++
        (Item.expr e).children.flatMap (Item.findings path none)) := by
  have hof : ∀ {fs gs : List Finding}, fs = gs → Finding.Agree fs gs := fun h => h ▸ .refl _
  cases e with
  | function s h b =>
    cases hname : holder?.bind Item.boundName? with
    | some x =>
      apply hof
      cases hhead : h.name <;> simp [Item.findings, Spot.findings, Spot.declaration?, Spot.stray?,
        Spot.boundName?, hname, hhead, Finding.ofHead_eq, Item.children, Item.parts, parts, Part.nodes,
        Block.findings_eq, List.flatMap_map]
    | none =>
      cases hkind : h.macroKind with
      | some kind =>
        simp only [Item.findings, findings, Spot.findings, Spot.declaration?, Spot.stray?,
          Spot.boundName?, hname, hkind, Option.isSome_some, if_true]
        exact .unbound [] _
      | none =>
        apply hof
        simp [findings, Spot.findings, Spot.declaration?, Spot.stray?, Spot.boundName?, hname, hkind,
          Item.children, Item.parts, parts, Part.nodes, Block.findings_eq, List.flatMap_map]
  | _ =>
    apply hof
    cases holder?.bind Item.boundName? <;> simp [Item.findings, findings, Spot.findings,
      Spot.declaration?, Spot.stray?, Item.children, Item.parts, parts, Part.nodes,
      Block.findings_eq, List.flatMap_map, List.flatMap_assoc, findingsAll_eq_flatMap,
      findingsProperties_eq_flatMap]

/-- The first pass meets what is found at the spots of a node, up to the first macro function
astray. -/
theorem Item.findings_agree (holder? : Option Item) (i : Item) :
    Finding.Agree (i.findings path (holder?.bind Item.boundName?))
      ((i.spots holder?).flatMap (Spot.findings path)) := by
  induction i using Item.induction generalizing holder? with
  | h i ih =>
    have hchildren : Finding.Agree (i.children.flatMap (Item.findings path i.boundName?))
        ((i.children.flatMap (Item.spots (some i))).flatMap (Spot.findings path)) := by
      rw [List.flatMap_assoc]
      exact Finding.Agree.flatMap fun j hj => ih j hj (some i)
    have hself : Finding.Agree (i.findings path (holder?.bind Item.boundName?))
        ((⟨holder?, i⟩ : Spot).findings path ++
          i.children.flatMap (Item.findings path i.boundName?)) := by
      cases i with
      | stmt s =>
        rw [Item.findings_stmt, s.findings_eq path holder?]
        exact .refl _
      | expr e => exact e.findings_agree path holder?
    rw [Item.spots_eq, List.flatMap_cons]
    exact hself.trans ((Finding.Agree.refl _).append hchildren)

theorem SourceFile.findings_agree (file : SourceFile) :
    Finding.Agree file.findings (file.spots.flatMap (Spot.findings file.path)) := by
  rw [findings, Stmt.findingsAll_eq_flatMap, spots, List.flatMap_assoc]
  refine Finding.Agree.flatMap fun s _ => ?_
  have hagree := Item.findings_agree file.path none (.stmt s)
  rwa [Item.findings_stmt] at hagree

end Findings

section Files

variable {file : SourceFile} {path : SourcePath}

/-- Only its initializer is held by a variable statement. -/
theorem Spot.boundName?_eq_some {p : Spot} (hp : p ∈ file.spots) {x : String}
    (h : p.boundName? = some x) : ∃ stamp kind e v,
      p.holder? = some (.stmt (.binding stamp kind x (some e) v)) ∧ p.node = .expr e := by
  obtain ⟨i, hi, hname⟩ := Option.bind_eq_some_iff.mp h
  have hin := SourceFile.mem_children_of_mem_spots hp hi
  cases i with
  | expr e => cases hname
  | stmt s =>
    cases s with
    | binding stamp kind name init v =>
      obtain rfl := Option.some.inj hname
      cases init with
      | none => cases hin
      | some e => exact ⟨stamp, kind, e, v, hi, List.mem_singleton.mp hin⟩
    | _ => cases hname

/-- What is told of a macro function astray is its name and its span. -/
theorem Spot.stray?_eq_some {p : Spot} (hp : p ∈ file.spots) {found : Option String × Span} :
    p.stray? = some found ↔ p.IsStray ∧
      ∃ s h b, p.node = .expr (.function s h b) ∧ found = (h.name, s.span) := by
  constructor
  · intro hfound
    unfold stray? at hfound
    split at hfound
    · rename_i s h b hnode hname
      obtain ⟨hmarked, hfound⟩ := Option.ite_none_right_eq_some.mp hfound
      refine ⟨⟨s, h, b, hnode, hmarked, fun stamp kind x v hholder => ?_⟩, s, h, b, hnode,
        (Option.some.inj hfound).symm⟩
      rw [boundName?, hholder] at hname
      cases hname
    · cases hfound
  · rintro ⟨⟨s, h, b, hnode, hmarked, hholder⟩, s', h', b', hnode', rfl⟩
    obtain ⟨rfl, rfl, rfl⟩ := Expr.function.inj (Item.expr.inj (hnode.symm.trans hnode'))
    have hname : p.boundName? = none := by
      refine Option.eq_none_iff_forall_ne_some.mpr fun x hx => ?_
      obtain ⟨stamp, kind, e, v, hbinding, he⟩ := boundName?_eq_some hp hx
      obtain rfl := Item.expr.inj (hnode.symm.trans he)
      exact hholder stamp kind x v hbinding
    simp only [stray?, hnode, hname, hmarked, if_true]

theorem Spot.isSome_stray?_iff {p : Spot} (hp : p ∈ file.spots) :
    p.stray?.isSome = true ↔ p.IsStray := by
  rw [Option.isSome_iff_exists]
  constructor
  · rintro ⟨found, hfound⟩
    exact ((stray?_eq_some hp).mp hfound).1
  · intro hstray
    have ⟨s, h, b, hnode, _⟩ := hstray
    exact ⟨(h.name, s.span), (stray?_eq_some hp).mpr ⟨hstray, s, h, b, hnode, rfl⟩⟩

/-- The first that is told of is the first macro function astray. -/
theorem SourceFile.isFirst_of_findSome? {found : Option String × Span}
    (h : file.spots.findSome? Spot.stray? = some found) :
    ∃ p s head b, IsFirst Spot.IsStray file.spots p ∧ p.node = .expr (.function s head b) ∧
      found = (head.name, s.span) := by
  obtain ⟨earlier, p, later, hspots, hfound, hearlier⟩ := List.findSome?_eq_some_iff.mp h
  have hmem : ∀ q ∈ earlier ++ p :: later, q ∈ file.spots := fun q hq => hspots ▸ hq
  obtain ⟨hstray, s, head, b, hnode, heq⟩ := (Spot.stray?_eq_some (hmem p (by simp))).mp hfound
  refine ⟨p, s, head, b, ⟨hstray, earlier, later, hspots, fun q hq hqstray => ?_⟩, hnode, heq⟩
  have hsome := (Spot.isSome_stray?_iff (hmem q (List.mem_append_left _ hq))).mpr hqstray
  rw [hearlier q hq] at hsome
  cases hsome

theorem Spot.filterMap_error? (path : SourcePath) (p : Spot) :
    (p.findings path).filterMap (Finding.error? path) =
      (p.stray?.map fun found => Error.unboundMacro path found.1 found.2).toList := by
  rw [findings, List.filterMap_append]
  cases p.declaration? path <;> cases p.stray? <;> rfl

theorem Spot.filterMap_declaration? (path : SourcePath) (p : Spot) :
    (p.findings path).filterMap Finding.declaration? = (p.declaration? path).toList := by
  rw [findings, List.filterMap_append]
  cases p.declaration? path <;> cases p.stray? <;> rfl

/-- The first pass fails at the first macro function astray. -/
theorem SourceFile.findSome?_error? (file : SourceFile) :
    file.findings.findSome? (Finding.error? file.path) =
      (file.spots.findSome? Spot.stray?).map fun found =>
        .unboundMacro file.path found.1 found.2 := by
  rw [file.findings_agree.findSome?_error?, ← List.head?_filterMap, List.filterMap_flatMap,
    List.map_findSome?, ← List.head?_filterMap, List.filterMap_eq_flatMap_toList]
  simp only [Spot.filterMap_error?, Function.comp_apply]

/-- If it does not fail, it meets what the spots of the file declare. -/
theorem SourceFile.Settled.declared_eq (h : file.Settled) :
    file.declared = file.spots.filterMap (Spot.declaration? file.path) := by
  have hfirst : file.findings.findSome? (Finding.error? file.path) = none := h
  rw [declared, file.findings_agree.eq (file.findings_agree.findSome?_error?.symm.trans hfirst),
    List.filterMap_flatMap, List.filterMap_eq_flatMap_toList]
  simp only [Spot.filterMap_declaration?]

/-- Every macro function statement has a name. -/
def SourceFile.Named (file : SourceFile) : Prop :=
  ∀ s h b, Item.stmt (.function s h b) ∈ file.items → h.name ≠ none

/-- A macro function declares something, unless it is astray. -/
theorem Spot.isSome_declaration? {p : Spot} (hstray : p.stray? = none)
    (hnamed : ∀ s h b, p.node = .stmt (.function s h b) → h.name ≠ none) :
    (p.declaration? path).isSome = p.node.isMacro := by
  obtain ⟨holder?, i⟩ := p
  cases i with
  | stmt s =>
    cases s with
    | function s h b =>
      obtain ⟨name, hname⟩ := Option.ne_none_iff_exists'.mp (hnamed s h b rfl)
      cases hkind : h.macroKind <;> simp [declaration?, Item.isMacro, hname, hkind]
    | _ => rfl
  | expr e =>
    cases e with
    | function s h b =>
      cases hkind : h.macroKind with
      | none => simp [declaration?, Item.isMacro, hkind]
      | some kind =>
        cases hname : (⟨holder?, .expr (.function s h b)⟩ : Spot).boundName? with
        | none => simp [stray?, hname, hkind] at hstray
        | some x => simp [declaration?, Item.isMacro, hname, hkind]
    | _ => rfl

/-- As many declarations are met as there are macro functions in the file. -/
theorem SourceFile.length_declared (hsettled : file.Settled) (hnamed : file.Named) :
    file.declared.length = file.items.countP Item.isMacro := by
  have hstray : ∀ p ∈ file.spots, p.stray? = none := by
    have hnone := file.findSome?_error?.symm.trans hsettled
    exact List.findSome?_eq_none_iff.mp (Option.map_eq_none_iff.mp hnone)
  rw [hsettled.declared_eq, List.length_filterMap_eq_countP, ← file.map_node_spots, List.countP_map]
  refine List.countP_congr fun p hp => ?_
  rw [Function.comp_apply, Spot.isSome_declaration? (hstray p hp)]
  intro s h b hnode
  apply hnamed s h b
  rw [← file.map_node_spots, ← hnode]
  exact List.mem_map_of_mem hp

theorem SourceFile.named_of_parse {text : String} {n k : NodeId}
    (h : (SourceFile.parse path text).run n = (.ok file, k)) : file.Named :=
  fun _ _ _ hmem => ((SourceFile.parse_numbered h).1.regular _ hmem).2

end Files

namespace Registry

variable {r : Registry} {file : SourceFile} {path : SourcePath} {text : String} {n k : NodeId}

/-- Nodes have identities of their own across files: none of another file is one of this file. -/
theorem not_taken (hapart : ∀ d ∈ r.declarations, (d.file == path) = false →
    ∀ i ∈ file.items, i.id ≠ d.id) :
    ∀ d ∈ file.declared, r.taken path d = false := by
  intro d hd
  have hid : d.id ∈ file.items.map Item.id := file.made.ids.subset (List.mem_map_of_mem hd)
  obtain ⟨i, hi, hid⟩ := List.mem_map.mp hid
  refine List.any_eq_false.mpr fun e he htaken => ?_
  simp only [Bool.and_eq_true, Bool.not_eq_true', beq_iff_eq] at htaken
  exact hapart e he htaken.1 i hi (hid.trans htaken.2.symm)

/-- Entering the declarations of a parsed file fails just if a macro function expression stands
anywhere but where a variable statement sets its variable to it; the error tells the first of them in
the text, and nothing has changed. Otherwise the answer is how many macro functions there are in the
file, at whatever depth, and what the registry holds of the path has been replaced by what they
declare, in the order of the text. A node that another file has declared would be left out; there is
none where nodes have identities of their own. The registries that calls lead to are tidy. -/
theorem collectDeclarations_replaces (hr : r.Tidy)
    (hparse : (SourceFile.parse path text).run n = (.ok file, k)) :
    ((∃ e, (r.collectDeclarations file).1 = .error e) ↔ ∃ p ∈ file.spots, p.IsStray) ∧
      (∀ e, (r.collectDeclarations file).1 = .error e →
        (r.collectDeclarations file).2 = r ∧ ∃ p s head b, IsFirst Spot.IsStray file.spots p ∧
          p.node = .expr (.function s head b) ∧ e = .unboundMacro path head.name s.span) ∧
      ∀ m, (r.collectDeclarations file).1 = .ok m →
        m = file.items.countP Item.isMacro ∧
          r.Replaces (r.collectDeclarations file).2 path
            ((file.spots.filterMap (Spot.declaration? path)).filter fun d => !r.taken path d) ∧
          ((∀ d ∈ r.declarations, (d.file == path) = false → ∀ i ∈ file.items, i.id ≠ d.id) →
            (file.spots.filterMap (Spot.declaration? path)).filter (fun d => !r.taken path d) =
              file.spots.filterMap (Spot.declaration? path)) := by
  obtain ⟨hnumbered, rfl⟩ := SourceFile.parse_numbered hparse
  have hfirst := file.findSome?_error?
  have hastray : (file.spots.findSome? Spot.stray?).isSome = true ↔ ∃ p ∈ file.spots, p.IsStray :=
    List.findSome?_isSome_iff.trans
      (exists_congr fun p => and_congr_right fun hp => Spot.isSome_stray?_iff hp)
  rw [← hastray, collectDeclarations, hfirst]
  cases hstray : file.spots.findSome? Spot.stray? with
  | some found =>
    refine ⟨⟨fun _ => rfl, fun _ => ⟨_, rfl⟩⟩, fun e he => ⟨rfl, ?_⟩, fun m hm => ?_⟩
    · obtain ⟨p, s, head, b, hp, hnode, rfl⟩ := SourceFile.isFirst_of_findSome? hstray
      exact ⟨p, s, head, b, hp, hnode, (Except.error.inj he).symm⟩
    · cases hm
  | none =>
    have hsettled : file.Settled := by rw [SourceFile.Settled, hfirst, hstray]; rfl
    have hids := hnumbered.nodup.sublist file.made.ids
    refine ⟨⟨?_, ?_⟩, fun e he => ?_, fun m hm => ?_⟩
    · intro herror
      obtain ⟨e, he⟩ := herror
      cases he
    · intro hsome
      cases hsome
    · cases he
    rw [← hsettled.declared_eq]
    refine ⟨?_, hr.replaces file.made.file hids, fun hapart => List.filter_eq_self.mpr fun d hd => ?_⟩
    · rw [← SourceFile.length_declared hsettled (SourceFile.named_of_parse hparse)]
      exact (Except.ok.inj hm).symm
    · rw [not_taken hapart d hd]
      rfl

section Recompiled

/-- A macro function that sets a variable to another one. -/
def macroInMacro : String := "macro function a() \x7b const b = macro derive function() \x7b\x7d; \x7d"

def earlier : Registry := Registry.empty.declareAll
  [⟨100, .function, "old", .function false, ⟨"main.kn"⟩, ⟨0, 0⟩⟩,
    ⟨101, .function, "other", .function false, ⟨"other.kn"⟩, ⟨0, 0⟩⟩]

/-- The two macro functions of the text take the place of the earlier one. -/
theorem collectDeclarations_macroInMacro : ∃ file k,
    (SourceFile.parse ⟨"main.kn"⟩ macroInMacro).run 0 = (.ok file, k) ∧
      file.items.countP Item.isMacro = 2 ∧
        earlier.Replaces (earlier.collectDeclarations file).2 ⟨"main.kn"⟩
          ((file.spots.filterMap (Spot.declaration? ⟨"main.kn"⟩)).filter
            fun d => !earlier.taken ⟨"main.kn"⟩ d) := by
  have hcount : (match (SourceFile.parse ⟨"main.kn"⟩ macroInMacro).run 0 with
    | (.ok file, _) => (earlier.collectDeclarations file).1.toOption == some 2
    | (.error _, _) => false) = true := by decide +kernel
  generalize hparse : (SourceFile.parse ⟨"main.kn"⟩ macroInMacro).run 0 = out at hcount
  obtain ⟨_ | file, k⟩ := out
  · cases hcount
  · have hreached : Reached earlier := .perform (.declare _) (.perform (.declare _) .new)
    have htidy := hreached.tidy
    dsimp only at hcount
    have hok : (earlier.collectDeclarations file).1 = .ok 2 := by
      cases hout : (earlier.collectDeclarations file).1 with
      | error e =>
        rw [hout] at hcount
        cases hcount
      | ok m =>
        rw [hout] at hcount
        exact congrArg Except.ok (Option.some.inj (eq_of_beq hcount))
    obtain ⟨-, -, hreplaces⟩ := collectDeclarations_replaces htidy hparse
    obtain ⟨htwo, hreplaces, -⟩ := hreplaces 2 hok
    exact ⟨file, k, rfl, htwo.symm, hreplaces⟩

end Recompiled

end Registry

end MacroEngine
