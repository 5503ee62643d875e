import Mathlib.Data.List.TakeWhile
import MacroEngine.Proofs.Order.Bound

/-!
# What a relative import reaches

An import names a module by its place: `./s` in a file of some directory names a file `s.e` of the
same directory. Both sides are compared by their keys, and to find the key the extension is taken off
the last name on both sides. So a stem with a dot inside loses a part when it stands in an import and
keeps it when it stands in front of an extension. The import reaches the file exactly if the stem has
no such dot.
-/

namespace MacroEngine

namespace SourcePath

/-- The name of a file without its extension: one segment, and no dot segment. -/
structure IsStem (s : String) : Prop where
  nonempty : s ≠ ""
  unbroken : '/' ∉ s.toList
  ne_current : s ≠ "."
  ne_parent : s ≠ ".."

/-- An extension, without the dot in front of it. -/
structure IsExtension (e : String) : Prop where
  nonempty : e ≠ ""
  undotted : '.' ∉ e.toList
  unbroken : '/' ∉ e.toList

/-- No character but the first one is a dot. -/
def Undotted (s : String) : Prop := '.' ∉ s.toList.tail

instance (s : String) : Decidable (Undotted s) := inferInstanceAs (Decidable (¬ _))

section Names

variable {s e : String}

theorem splitName_fst (name : String) : (splitName name).1 =
    match name.toList.reverse.dropWhile (· ≠ '.') with
    | [] => name
    | [_] => name
    | _ :: stem => String.ofList stem.reverse := by
  unfold splitName
  dsimp only
  rcases name.toList.reverse.dropWhile (· ≠ '.') with - | ⟨c, - | ⟨c', stem⟩⟩ <;> rfl

theorem dropWhile_eq_nil_of_not_mem {cs : List Char} (h : '.' ∉ cs) :
    cs.reverse.dropWhile (· ≠ '.') = [] := by
  refine List.dropWhile_eq_nil_iff.mpr fun x hx => decide_eq_true fun heq => ?_
  exact h (heq ▸ List.mem_reverse.mp hx)

/-- A name without dots inside has no extension to lose. -/
theorem splitName_of_undotted (h : Undotted s) : (splitName s).1 = s := by
  rw [splitName_fst]
  cases hs : s.toList with
  | nil => rfl
  | cons c t =>
    have ht : '.' ∉ t := by
      rw [Undotted, hs] at h
      exact h
    rw [List.reverse_cons, List.dropWhile_append, dropWhile_eq_nil_of_not_mem ht]
    by_cases hc : c = '.' <;> simp [List.dropWhile, hc]

/-- A name with a dot inside loses the part behind its last dot. -/
theorem splitName_of_dotted (h : ¬ Undotted s) : (splitName s).1 ≠ s := by
  rw [splitName_fst]
  rw [Undotted, not_not] at h
  cases hs : s.toList with
  | nil =>
    rw [hs] at h
    cases h
  | cons c t =>
    rw [hs] at h
    have hstop : t.reverse.dropWhile (· ≠ '.') ≠ [] := fun hnil =>
      of_decide_eq_true (List.dropWhile_eq_nil_iff.mp hnil '.' (List.mem_reverse.mpr h)) rfl
    obtain ⟨x, rest, hrest⟩ := List.exists_cons_of_ne_nil hstop
    have hlength := (List.dropWhile_sublist (l := t.reverse) (· ≠ '.')).length_le
    rw [hrest, List.length_cons, List.length_reverse] at hlength
    have hkept : (t.reverse ++ [c]).dropWhile (· ≠ '.') = x :: (rest ++ [c]) := by
      rw [List.dropWhile_append, hrest]
      rfl
    rw [List.reverse_cons, hkept]
    -- What is kept is shorter than the name.
    intro heq
    have hshort : (rest ++ [c]).length = s.toList.length := by
      cases rest <;> simpa using congrArg (fun name : String => name.toList.length) heq
    simp [hs] at hshort
    omega

/-- What stands in front of an extension is kept. -/
theorem splitName_extended (hs : s ≠ "") (he : IsExtension e) : (splitName (s ++ "." ++ e)).1 = s := by
  have hlist : (s ++ "." ++ e).toList.reverse = e.toList.reverse ++ '.' :: s.toList.reverse := by
    simp
  have hne : s.toList.reverse ≠ [] := by simpa using hs
  obtain ⟨c, rest, hrest⟩ := List.exists_cons_of_ne_nil hne
  have hkept : (s ++ "." ++ e).toList.reverse.dropWhile (· ≠ '.') = '.' :: s.toList.reverse := by
    rw [hlist, List.dropWhile_append, dropWhile_eq_nil_of_not_mem he.undotted]
    rfl
  rw [splitName_fst, hkept, hrest]
  dsimp only
  rw [← hrest, List.reverse_reverse, String.ofList_toList]

end Names

section Keys

/-- The kept components of the key of a directory, the last one first. -/
def keptOf (dir : List PathComponent) : List PathComponent :=
  (dir.filter (· ≠ .current)).foldl keyStep []

theorem keyOf_concat (dir : List PathComponent) (name : String) :
    keyOf (dir ++ [.normal name]) = (keyStep (keptOf dir) (.ofSegment (splitName name).1)).reverse := by
  simp [keyOf, keptOf, stripExtension, List.filter_append]

variable {s e : String} (hs : IsStem s)

include hs

theorem ofSegment_stem : PathComponent.ofSegment s = .normal s := by
  simp [PathComponent.ofSegment, hs.ne_current, hs.ne_parent]

theorem componentsOf_relative : componentsOf ("./" ++ s).toList = [.current, .normal s] := by
  have hlist : ("./" ++ s).toList = '.' :: '/' :: s.toList := by simp
  have hsplit : Text.splitAt '/' ('.' :: '/' :: s.toList) = [['.'], s.toList] := by
    rw [Text.splitAt, if_neg (by decide), Text.splitAt, if_pos rfl, Text.splitAt_of_not_mem hs.unbroken]
  rw [hlist, componentsOf, hsplit]
  simp [hs.nonempty, hs.ne_current, ofSegment_stem hs]

/-- The key of an import of a file beside. -/
theorem importKey_relative (path : SourcePath) : path.importKey ("./" ++ s) =
    (keyStep (keptOf path.directory) (.ofSegment (splitName s).1)).reverse := by
  rw [importKey, componentsOf_relative hs]
  have hkept : keptOf (path.directory ++ [.current]) = keptOf path.directory := by
    simp [keptOf, List.filter_append]
  rw [← hkept, ← keyOf_concat, List.append_assoc, List.singleton_append]

theorem moduleKey_beside (he : IsExtension e) {path file : SourcePath}
    (hfile : file.components = path.directory ++ [.normal (s ++ "." ++ e)]) :
    file.moduleKey = (keyStep (keptOf path.directory) (.normal s)).reverse := by
  rw [moduleKey, hfile, keyOf_concat, splitName_extended hs.nonempty he, ofSegment_stem hs]

omit hs in
/-- Only its own name leads to a place in a directory. -/
theorem keyStep_eq_iff (kept : List PathComponent) (c : PathComponent) (name : String) :
    keyStep kept c = keyStep kept (.normal name) ↔ c = .normal name := by
  constructor
  · intro h
    have hlength := congrArg List.length h
    cases c with
    | root => simp [keyStep] at h
    | current => simp [keyStep] at hlength
    | parent =>
      rcases kept with - | ⟨c | c, rest⟩ <;> simp [keyStep] at h hlength
      all_goals omega
    | normal other => simpa [keyStep] using h
  · rintro rfl
    rfl

/-- An import of a file beside names that file exactly if the stem has no dot inside. -/
theorem importKey_eq_moduleKey_iff (he : IsExtension e) {path file : SourcePath}
    (hfile : file.components = path.directory ++ [.normal (s ++ "." ++ e)]) :
    path.importKey ("./" ++ s) = file.moduleKey ↔ Undotted s := by
  rw [importKey_relative hs, moduleKey_beside hs he hfile, List.reverse_inj, keyStep_eq_iff]
  constructor
  · intro h
    by_contra hdotted
    have hsegment : (splitName s).1 = s := by
      unfold PathComponent.ofSegment at h
      split at h
      · cases h
      · split at h
        · cases h
        · exact PathComponent.normal.inj h
    exact splitName_of_dotted hdotted hsegment
  · intro h
    rw [splitName_of_undotted h, ofSegment_stem hs]

end Keys

end SourcePath

/-- Two declarations of one kind that are known by the same name. -/
def Declaration.Namesake (d d' : Declaration) : Prop := d.kind = d'.kind ∧ d.localName = d'.localName

namespace Registry

/-- What a statement of the file at `path` brings into view, if it is an import. -/
def suppliedBy (r : Registry) (path : SourcePath) : Stmt → List Declaration
  | .importNames _ names specifier =>
    if isRelative specifier then
      r.declarations.filter fun d =>
        d.file.moduleKey = path.importKey specifier && names.contains d.localName
    else []
  | _ => []

theorem visible_eq (r : Registry) (file : SourceFile) : r.visible file =
    r.inFile file.path ++ file.statements.flatMap (r.suppliedBy file.path) := by
  unfold visible SourceFile.relativeImports
  congr 1
  induction file.statements with
  | nil => rfl
  | cons s ss ih =>
    rw [List.flatMap_cons, ← ih]
    cases s with
    | importNames stamp names specifier =>
      by_cases hrelative : isRelative specifier <;> simp [suppliedBy, hrelative]
    | binding _ _ _ init _ => cases init <;> rfl
    | ret _ value => cases value <;> rfl
    | ifElse _ _ _ alternative => cases alternative <;> rfl
    | _ => rfl

/-- The file imports a macro that another file of its directory declares, by the stem `s` of a file
that is called `s.e`. Nothing that comes first supplies a macro of that kind and name: the importing
file does not declare one itself, and neither does an earlier import bring one into view. No other
file is registered under the same path up to its extension. -/
structure ImportsFrom (r : Registry) (file : SourceFile) (s e : String) (d : Declaration) : Prop where
  stem : SourcePath.IsStem s
  extension : SourcePath.IsExtension e
  registered : d ∈ r.declarations
  beside : d.file.components = file.path.directory ++ [.normal (s ++ "." ++ e)]
  own : ∀ d' ∈ r.inFile file.path, ¬ d'.Namesake d
  imported : ∃ before stamp names after,
    file.statements = before ++ .importNames stamp names ("./" ++ s) :: after ∧ d.localName ∈ names ∧
      ∀ stmt ∈ before, ∀ d' ∈ r.suppliedBy file.path stmt, ¬ d'.Namesake d
  alone : ∀ d' ∈ r.declarations, d'.file.moduleKey = d.file.moduleKey → (d'.file == d.file) = true

/-- The site is bound to a macro of that kind and name in the file that declares `d`. -/
def Reaches (r : Registry) (site : Expr) (d : Declaration) : Prop :=
  ∃ d', r.binding? d.kind site.id = some d' ∧ (d'.file == d.file) = true ∧ d'.Namesake d

section Imports

variable {r : Registry} {file : SourceFile} {s e : String} {d d' : Declaration} {site : Expr}

/-- What an import by a stem supplies is what the module that it names declares. -/
theorem mem_suppliedBy_relative {stamp : Stamp} {names : List String} :
    d' ∈ r.suppliedBy file.path (.importNames stamp names ("./" ++ s)) ↔
      d' ∈ r.declarations ∧ d'.file.moduleKey = file.path.importKey ("./" ++ s) ∧
        d'.localName ∈ names := by
  have hrelative : isRelative ("./" ++ s) = true := by
    rw [isRelative, String.startsWith_string_iff]
    simp
  simp [suppliedBy, hrelative]

/-- A site means the first of the declarations in view that are namesakes of the one it names. -/
theorem resolve?_of_use {scope : List Declaration}
    (huse : site.useSite? = some (d.kind, d.localName)) :
    resolve? scope site = (scope.find? fun d' => d'.kind = d.kind && d'.localName = d.localName).map
      fun d' => (d.kind, d') := by
  rw [resolve?, huse]
  rfl

/-- Where no namesake stands in front, the import decides what the site means. -/
theorem ImportsFrom.resolve? (h : r.ImportsFrom file s e d) (hs : SourcePath.Undotted s)
    (huse : site.useSite? = some (d.kind, d.localName)) :
    ∃ d', Registry.resolve? (r.visible file) site = some (d.kind, d') ∧
      (d'.file == d.file) = true ∧ d'.Namesake d := by
  obtain ⟨before, stamp, names, after, hstatements, hname, hbefore⟩ := h.imported
  have hkey := (SourcePath.importKey_eq_moduleKey_iff h.stem h.extension h.beside).mpr hs
  have hnone : ∀ ds : List Declaration, (∀ d' ∈ ds, ¬ d'.Namesake d) →
      (ds.find? fun d' => d'.kind = d.kind && d'.localName = d.localName) = none := by
    refine fun ds hds => List.find?_eq_none.mpr fun d' hd' haccepts => hds d' hd' ?_
    simpa [Declaration.Namesake] using haccepts
  have hearlier := hnone (before.flatMap (r.suppliedBy file.path)) fun d' hd' => by
    obtain ⟨stmt, hstmt, hd'⟩ := List.mem_flatMap.mp hd'
    exact hbefore stmt hstmt d' hd'
  have hsupplied : d ∈ r.suppliedBy file.path (.importNames stamp names ("./" ++ s)) :=
    mem_suppliedBy_relative.mpr ⟨h.registered, hkey.symm, hname⟩
  rw [resolve?_of_use huse, visible_eq, hstatements, List.flatMap_append, List.flatMap_cons,
    List.find?_append, List.find?_append, List.find?_append, hnone _ h.own, hearlier, Option.none_or,
    Option.none_or]
  cases hfind : (r.suppliedBy file.path (.importNames stamp names ("./" ++ s))).find?
      fun d' => d'.kind = d.kind && d'.localName = d.localName with
  | none => exact absurd (List.find?_eq_none.mp hfind d hsupplied) (by simp)
  | some d' =>
    obtain ⟨hd', hmodule, -⟩ := mem_suppliedBy_relative.mp (List.mem_of_find?_eq_some hfind)
    have haccepts := List.find?_some hfind
    simp only [Bool.and_eq_true, decide_eq_true_eq] at haccepts
    exact ⟨d', rfl, h.alone d' hd' (hmodule.trans hkey), haccepts⟩

/-- A site that was not bound before is bound to what it means. -/
theorem resolve?_of_binding? (hids : (file.items.map Item.id).Nodup) (hsite : site ∈ file.sites)
    {kind : MacroKind} (hunbound : r.binding? kind site.id = none)
    (h : (r.bindSites file).2.binding? kind site.id = some d') :
    Registry.resolve? (r.visible file) site = some (kind, d') := by
  rw [bindSites_eq] at h
  rcases mem_of_binding?_foldl h with hmem | hold
  · obtain ⟨site', hsite', hresolved⟩ := List.mem_filterMap.mp hmem
    obtain rfl : site' = site :=
      List.inj_on_of_nodup_map (nodup_sites hids) hsite' hsite (resolved?_id hresolved).symm
    obtain ⟨⟨kind', d''⟩, hresolve, heq⟩ := Option.map_eq_some_iff.mp hresolved
    obtain ⟨rfl, rfl⟩ : kind' = kind ∧ d'' = d' := by simpa using heq
    exact hresolve
  · rw [hunbound] at hold
    cases hold

/-- A site reaches the file beside that its import names, if the stem of the file has no dot inside.
If it has one, the import does not bring the file into view: then a site that was not bound before
reaches the file only if another import of the file does. -/
theorem ImportsFrom.reaches (h : r.ImportsFrom file s e d)
    (hids : (file.items.map Item.id).Nodup) (hsite : site ∈ file.sites)
    (huse : site.useSite? = some (d.kind, d.localName)) :
    (SourcePath.Undotted s → (r.bindSites file).2.Reaches site d) ∧
      (¬ SourcePath.Undotted s → r.binding? d.kind site.id = none →
        (r.bindSites file).2.Reaches site d → ∃ stmt ∈ file.statements,
          (∀ stamp names, stmt ≠ .importNames stamp names ("./" ++ s)) ∧
            ∃ d' ∈ r.suppliedBy file.path stmt, (d'.file == d.file) = true ∧ d'.Namesake d) := by
  constructor
  · intro hs
    obtain ⟨d', hresolve, hfile, hsame⟩ := h.resolve? hs huse
    refine ⟨d', ?_, hfile, hsame⟩
    rw [bindSites_eq]
    refine binding?_foldl_of_mem (nodup_resolved (nodup_sites hids))
      (List.mem_filterMap.mpr ⟨site, hsite, ?_⟩)
    rw [resolved?, hresolve]
    rfl
  · rintro hs hunbound ⟨d', hbinding, hfile, hsame⟩
    have hresolve := resolve?_of_binding? hids hsite hunbound hbinding
    have hvisible := (resolve?_eq_some hresolve).1
    rw [visible_eq] at hvisible
    rcases List.mem_append.mp hvisible with hown | himported
    · exact absurd hsame (h.own d' hown)
    · obtain ⟨stmt, hstmt, hd'⟩ := List.mem_flatMap.mp himported
      refine ⟨stmt, hstmt, fun stamp names heq => hs ?_, d', hd', hfile, hsame⟩
      subst heq
      have hmodule := (mem_suppliedBy_relative.mp hd').2.1
      rw [SourcePath.moduleKey_eq hfile] at hmodule
      exact (SourcePath.importKey_eq_moduleKey_iff h.stem h.extension h.beside).mp hmodule.symm

end Imports

section Twice

def twiceIn (s : String) : Declaration :=
  ⟨0, .function, "twice", .function false, ⟨"lib/" ++ s ++ ".kn"⟩, default⟩

def twiceSite : Expr := .invoke ⟨2, default⟩ "twice" []

/-- The file `lib/main.kn`, which imports `twice` from `./s` and uses it. -/
def twiceFrom (s : String) : SourceFile :=
  ⟨4, ⟨"lib/main.kn"⟩, [.importNames ⟨1, default⟩ ["twice"] ("./" ++ s), .expr ⟨3, default⟩ twiceSite],
    default⟩

def knowsTwice (s : String) : Registry := after [.declare (twiceIn s)]

theorem importsFrom_twice {s : String} (hs : SourcePath.IsStem s)
    (hbeside : (twiceIn s).file.components = [.normal "lib", .normal (s ++ "." ++ "kn")])
    (hown : ((twiceIn s).file == ⟨"lib/main.kn"⟩) = false) :
    (knowsTwice s).ImportsFrom (twiceFrom s) s "kn" (twiceIn s) where
  stem := hs
  extension := by constructor <;> decide +kernel
  registered := List.mem_singleton_self _
  beside := by
    have hdirectory : (twiceFrom s).path.directory = [.normal "lib"] := by
      change SourcePath.directory ⟨"lib/main.kn"⟩ = _
      decide +kernel
    rw [hdirectory]
    exact hbeside
  own d' hd' := by
    have hnone : (knowsTwice s).inFile (twiceFrom s).path = [] := by
      change (Table.get? ⟨"lib/main.kn"⟩ [((twiceIn s).file, [twiceIn s])]).getD [] = []
      rw [Table.get?, hown]
      rfl
    rw [hnone] at hd'
    cases hd'
  imported := ⟨[], _, _, _, rfl, List.mem_singleton_self _, fun _ h => absurd h List.not_mem_nil⟩
  alone d' hd' _ := by
    obtain rfl := List.mem_singleton.mp hd'
    exact BEq.rfl

theorem reaches_macros :
    (knowsTwice "macros").ImportsFrom (twiceFrom "macros") "macros" "kn" (twiceIn "macros") ∧
      ((twiceFrom "macros").items.map Item.id).Nodup ∧ twiceSite ∈ (twiceFrom "macros").sites ∧
      twiceSite.useSite? = some (.function, "twice") ∧ SourcePath.Undotted "macros" ∧
      ((knowsTwice "macros").bindSites (twiceFrom "macros")).2.Reaches twiceSite
        (twiceIn "macros") := by
  have h : (knowsTwice "macros").ImportsFrom (twiceFrom "macros") "macros" "kn" (twiceIn "macros") :=
    importsFrom_twice (by constructor <;> decide +kernel) (by decide +kernel) (by decide +kernel)
  have hids : ((twiceFrom "macros").items.map Item.id).Nodup := by decide +kernel
  have hs : SourcePath.Undotted "macros" := by decide +kernel
  exact ⟨h, hids, List.mem_cons_self, rfl, hs, (h.reaches hids List.mem_cons_self rfl).1 hs⟩

/-- An import does not reach every file that it names: `./macros.v2` does not reach
`macros.v2.kn`. -/
theorem not_importsFrom_reaches : ¬ ∀ (r : Registry) (file : SourceFile) (s e : String)
    (d : Declaration) (site : Expr), r.ImportsFrom file s e d → (file.items.map Item.id).Nodup →
      site ∈ file.sites → site.useSite? = some (d.kind, d.localName) →
      (r.bindSites file).2.Reaches site d := by
  intro hreaches
  have h : (knowsTwice "macros.v2").ImportsFrom (twiceFrom "macros.v2") "macros.v2" "kn"
      (twiceIn "macros.v2") :=
    importsFrom_twice (by constructor <;> decide +kernel) (by decide +kernel) (by decide +kernel)
  have hids : ((twiceFrom "macros.v2").items.map Item.id).Nodup := by decide +kernel
  obtain ⟨d', hbinding, -, -⟩ := hreaches _ _ _ _ _ _ h hids List.mem_cons_self rfl
  have hnone : (((knowsTwice "macros.v2").bindSites (twiceFrom "macros.v2")).2.binding? .function
    2).isNone = true := by decide +kernel
  change Registry.binding? _ .function 2 = some d' at hbinding
  rw [hbinding] at hnone
  cases hnone

end Twice

end Registry

end MacroEngine
