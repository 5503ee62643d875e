import MacroEngine.Proofs.Order.Matched

/-!
# Compiling files in another order

A program is a set of files. Compiling them in another order gives other numbers to the nodes, enters
the declarations in another order, and loads modules and hooks in another order. If modules and derive
names are declared once and hooks do not look at numbers, every file still compiles to the same text
with the same report, and the same files matter at compile time.
-/

namespace MacroEngine

open Registry

namespace Session

section Steps

variable {α β : Type} {s s' : Session}

theorem run_mapM_cons_eq_ok {f : α → Step β} {a : α} {as : List α} {out : List β} :
    ((a :: as).mapM f).run.run s = (.ok out, s') ↔
      ∃ b s₁ bs, (f a).run.run s = (.ok b, s₁) ∧ (as.mapM f).run.run s₁ = (.ok bs, s') ∧
        out = b :: bs := by
  rw [List.mapM_cons, run_bind_eq_ok]
  constructor
  · rintro ⟨b, s₁, hb, hrest⟩
    obtain ⟨bs, s₂, hbs, hpure⟩ := run_bind_eq_ok.mp hrest
    obtain ⟨hout, rfl⟩ := Prod.mk.inj hpure
    exact ⟨b, s₁, bs, hb, hbs, (Except.ok.inj hout).symm⟩
  · rintro ⟨b, s₁, bs, hb, hbs, rfl⟩
    exact ⟨b, s₁, hb, run_bind_eq_ok.mpr ⟨bs, s', hbs, rfl⟩⟩

/-- Texts are parsed one after the other. -/
theorem run_parses {inputs : List (SourcePath × String)} {files : List SourceFile} :
    (inputs.mapM fun (path, text) => parse path text).run.run s = (.ok files, s') ↔
      ∃ k, Parses s.shop.nextId inputs files k ∧ s' = s.withNext k := by
  induction inputs generalizing s files with
  | nil =>
    constructor
    · intro h
      obtain ⟨hfiles, rfl⟩ := Prod.mk.inj h
      obtain rfl := Except.ok.inj hfiles
      exact ⟨_, .nil _, rfl⟩
    · rintro ⟨k, hparses, rfl⟩
      cases hparses
      rfl
  | cons input inputs ih =>
    obtain ⟨path, text⟩ := input
    rw [run_mapM_cons_eq_ok]
    dsimp only
    simp only [ih]
    constructor
    · rintro ⟨file, s₁, more, hfile, ⟨k, hmore, rfl⟩, rfl⟩
      obtain ⟨m, hread, rfl⟩ := run_parse_eq_ok.mp hfile
      exact ⟨k, .cons hread hmore, rfl⟩
    · rintro ⟨k, hparses, rfl⟩
      cases hparses with
      | @cons _ m _ _ _ file _ more head tail =>
        exact ⟨file, _, more, run_parse_eq_ok.mpr ⟨m, head, rfl⟩, ⟨k, tail, rfl⟩, rfl⟩

/-- Steps that keep what they need are run one after the other, whatever each of them answers. -/
theorem forall₂_of_run_mapM {f : α → Step β} {P : Session → Prop} {as : List α} {bs : List β}
    (hkeeps : ∀ a ∈ as, ∀ s, P s → P ((f a).run.run s).2) (hs : P s)
    (h : (as.mapM f).run.run s = (.ok bs, s')) :
    P s' ∧ List.Forall₂ (fun a b => a ∈ as ∧ ∃ s, P s ∧ ((f a).run.run s).1 = .ok b) as bs := by
  suffices hall : ∀ more ⊆ as, ∀ s bs, P s → (more.mapM f).run.run s = (.ok bs, s') →
      P s' ∧ List.Forall₂ (fun a b => a ∈ as ∧ ∃ s, P s ∧ ((f a).run.run s).1 = .ok b) more bs from
    hall as (List.Subset.refl _) s bs hs h
  intro more hmore
  induction more with
  | nil =>
    intro s bs hs h
    obtain ⟨hbs, rfl⟩ := Prod.mk.inj h
    obtain rfl := Except.ok.inj hbs
    exact ⟨hs, .nil⟩
  | cons a more ih =>
    intro s bs hs h
    obtain ⟨b, s₁, bs, hb, hrest, rfl⟩ := run_mapM_cons_eq_ok.mp h
    have hmem := hmore List.mem_cons_self
    have hs₁ := hkeeps a hmem s hs
    rw [hb] at hs₁
    obtain ⟨hs', hbs⟩ := ih (List.Subset.trans (List.subset_cons_self _ _) hmore) s₁ bs hs₁ hrest
    exact ⟨hs', .cons ⟨hmem, s, hs, by rw [hb]⟩ hbs⟩

theorem run_mapM_of_forall₂ {f : α → Step β} {P : Session → Prop} {as : List α} {bs : List β}
    (h : List.Forall₂ (fun a b => ∀ s, P s → ((f a).run.run s).1 = .ok b ∧ P ((f a).run.run s).2)
      as bs) (hs : P s) : ∃ s', (as.mapM f).run.run s = (.ok bs, s') ∧ P s' := by
  induction h generalizing s with
  | nil => exact ⟨s, rfl, hs⟩
  | cons hab _ ih =>
    obtain ⟨hb, hs₁⟩ := hab s hs
    obtain ⟨s', hrest, hs'⟩ := ih hs₁
    exact ⟨s', run_mapM_cons_eq_ok.mpr ⟨_, _, _, Prod.ext hb rfl, hrest, rfl⟩, hs'⟩

end Steps

section Program

variable {s s' : Session} {inputs : List (SourcePath × String)} {files : List SourceFile}

theorem run_register_eq_ok : (register files).run.run s = (.ok (), s') ↔
    ∃ s₁, (collectAll files).run.run s = (.ok (), s₁) ∧
      s' = { s₁ with registry := s₁.registry.bound files } := by
  rw [run_register]
  generalize (collectAll files).run.run s = out
  obtain ⟨e | -, s₁⟩ := out
  · exact ⟨(nomatch ·), fun ⟨_, h, _⟩ => nomatch h⟩
  · constructor
    · intro h
      exact ⟨s₁, rfl, (Prod.mk.inj h).2.symm⟩
    · rintro ⟨_, heq, rfl⟩
      cases heq
      rfl

/-- Files with different modules are registered in a session that knows no macros. -/
theorem run_register_new {n k : Nat} (hparses : Parses n inputs files k)
    (hkeys : (files.map (·.path.moduleKey)).Nodup) (hsettled : ∀ file ∈ files, file.Settled)
    (hs : s.registry = .empty) : ∃ r : Registry, r.Lists (files.flatMap SourceFile.declared) ∧
      (register files).run.run s = (.ok (), { s with registry := r.bound files }) := by
  have hother : ∀ file ∈ files, ∀ d ∈ ([] : List Declaration),
      d.file.moduleKey ≠ file.path.moduleKey := fun _ _ _ h => absurd h List.not_mem_nil
  obtain ⟨r, hrun, hr⟩ := run_collectAll hsettled hkeys hother (by simpa using hparses.nodup_declared)
    (hs ▸ Lists.empty)
  exact ⟨r, hr, run_register_eq_ok.mpr ⟨_, hrun, rfl⟩⟩

end Program

def declaredBy (inputs : List (SourcePath × String)) : List Declaration :=
  inputs.flatMap fun (path, text) =>
    match ((SourceFile.parse path text).run 0).1 with
    | .ok file => file.declared
    | .error _ => []

end Session

namespace Parses

variable {n k : Nat} {inputs : List (SourcePath × String)} {files : List SourceFile}

/-- In a program texts declare the same, up to numbers. -/
theorem declaredBy_eq (h : Parses n inputs files k) :
    (Session.declaredBy inputs).map (Declaration.renumber fun _ => 0) =
      (files.flatMap SourceFile.declared).map (Declaration.renumber fun _ => 0) := by
  induction h with
  | nil => rfl
  | @cons n m k path text file inputs files head _ ih =>
    have hcarries : Grammar.Carries (· - n) n m 0 := fun i _ => by simp
    have halone := SourceFile.parse_renumber head hcarries
    rw [Session.declaredBy, List.flatMap_cons, ← Session.declaredBy, List.flatMap_cons,
      List.map_append, List.map_append, ih]
    dsimp only
    rw [halone]
    dsimp only
    rw [SourceFile.declared_renumber, List.map_map]
    rfl

theorem derive_names_eq (h : Parses n inputs files k) :
    ((Session.declaredBy inputs).filter fun d => d.kind = .derive).map Declaration.name =
      ((files.flatMap SourceFile.declared).filter fun d => d.kind = .derive).map
        Declaration.name := by
  have hsame := congrArg
    (fun ds : List Declaration => (ds.filter fun d => d.kind = .derive).map Declaration.name)
    h.declaredBy_eq
  simp only [List.filter_map, List.map_map] at hsame
  exact hsame

/-- The bodies of a program are those of its texts. -/
theorem forall_body (h : Parses n inputs files k) {table : ModuleTable} {P : MacroBody → Prop}
    (hbodies : ∀ d ∈ Session.declaredBy inputs, ∀ body, table.bodyOf d = .ok body → P body) :
    ∀ d ∈ files.flatMap SourceFile.declared, ∀ body, table.bodyOf d = .ok body → P body := by
  intro d hd body hbody
  have hmem := List.mem_map_of_mem (f := Declaration.renumber fun _ => 0) hd
  rw [← h.declaredBy_eq] at hmem
  obtain ⟨e, he, heq⟩ := List.mem_map.mp hmem
  refine hbodies e he body (Eq.trans ?_ hbody)
  rw [← table.bodyOf_renumber (fun _ => 0) e, heq, table.bodyOf_renumber]

/-- Every file of a program was parsed with its own numbers. -/
theorem exists_parse (h : Parses n inputs files k) {file : SourceFile} (hfile : file ∈ files) :
    ∃ path text a b, (SourceFile.parse path text).run a = (.ok file, b) ∧ b ≤ k := by
  induction h with
  | nil => cases hfile
  | cons head tail ih =>
    rcases List.mem_cons.mp hfile with rfl | hfile
    · exact ⟨_, _, _, _, head, tail.le⟩
    · exact ih hfile

end Parses

/-- Registered in two orders, a program means the same up to the numbers. -/
theorem Reordered.matched {π : Nat → Nat} {files files' : List SourceFile}
    (h : Reordered π files files') {bound : Nat} {inputs : List (SourcePath × String)}
    (hπ : Shuffles π 0 bound) (hparses : Parses 0 inputs files bound) {r r' : Registry}
    (hr : r.Lists (files.flatMap SourceFile.declared))
    (hr' : r'.Lists (files'.flatMap SourceFile.declared))
    (hnames : ((files.flatMap SourceFile.declared).filter
      fun d => d.kind = .derive).map Declaration.name |>.Nodup) {s s' : Session}
    (hs : s.registry = r.bound files) (hs' : s'.registry = r'.bound files')
    (hconfig : s'.config = s.config) (hoperators : s'.operators = s.operators) :
    Matched π bound (files.flatMap SourceFile.declared) s s' := by
  have hfollows := hr.follows_collectDependencies files
  have hfollows' := hr'.follows_collectDependencies files'
  have hunbound := hr.bindings_collectDependencies files
  have hids := hparses.numbered.nodup
  have hbinding : ∀ kind i, s'.registry.binding? kind (π i) =
      (s.registry.binding? kind i).map (Declaration.renumber π) := fun kind i => by
    rw [hs, hs']
    exact h.binding? hfollows hfollows' hunbound (hr'.bindings_collectDependencies files') hids kind i
  have hbound : ∀ kind i d, s.registry.binding? kind i = some d →
      i < bound ∧ d ∈ files.flatMap SourceFile.declared := fun kind i d hd => by
    rw [hs] at hd
    have hentry := (binding?_foldl_bindSites (binding?_of_bindings_eq_nil hunbound kind i)
      (List.Nodup.sublist (entries_sublist _ files) hids)).mp hd
    obtain ⟨hi, hdeclared⟩ := hfollows.mem_entries hentry
    obtain ⟨item, hitem, rfl⟩ := List.mem_map.mp hi
    exact ⟨(hparses.numbered.bounds item hitem).2, hdeclared⟩
  refine ⟨fun i j _ _ hij => hπ.injective hij, fun i hi => (hπ.lt_iff i).mpr hi,
    hparses.nodup_declared, fun d => hparses.declared_lt, hconfig, hoperators,
    fun kind i _ => hbinding kind i, hbound, fun kind i hi => ?_, fun name _ => ?_,
    fun name d hd => ?_⟩
  · rw [← hπ.fixes i (.inr hi), hbinding, Option.map_eq_none_iff]
    exact Option.eq_none_iff_forall_ne_some.mpr fun d hd =>
      Nat.not_lt.mpr hi (hbound kind i d hd).1
  · rw [hs, hs', derive?_bound, derive?_bound]
    exact h.derive? hfollows hfollows' hnames name
  · rw [hs, derive?_bound] at hd
    exact ((hfollows.derive?_eq_some_iff hnames).mp hd).1

/-- A file of a program compiles to the same in both orders. -/
theorem Matched.compile {π : Nat → Nat} {bound : Nat} {ds : List Declaration} {s₀ s₀' : Session}
    (h : Matched π bound ds s₀ s₀') {table : ModuleTable}
    (hblind : ∀ d ∈ ds, ∀ body, table.bodyOf d = .ok body → body.Blind)
    {path : SourcePath} {text : String} {a b : Nat} {file : SourceFile}
    (hparse : (SourceFile.parse path text).run a = (.ok file, b)) (hb : b ≤ bound) {s s' : Session}
    (hs : s.Ready s₀ table ds) (hnext : bound ≤ s.shop.nextId)
    (hs' : s'.Ready s₀' table (ds.map (Declaration.renumber π))) (hnext' : bound ≤ s'.shop.nextId) :
    ((Session.compileRegistered file).run.run s).1 =
        ((Session.compileRegistered (file.renumber π)).run.run s').1 ∧
      (((Session.compileRegistered file).run.run s).2.Ready s₀ table ds ∧
        bound ≤ ((Session.compileRegistered file).run.run s).2.shop.nextId) ∧
      ((Session.compileRegistered (file.renumber π)).run.run s').2.Ready s₀' table
        (ds.map (Declaration.renumber π)) ∧
        bound ≤ ((Session.compileRegistered (file.renumber π)).run.run s').2.shop.nextId := by
  obtain ⟨hanswer, hready, hready', used, hused, hused'⟩ := Paired.compile h hblind
    (fun _ _ body _ => body.keeps_of_forall fun _ => trivial) hparse hb
    (fun stmt _ => Node.within_of_forall (fun _ => trivial) (.stmt stmt)) hs hnext hs' hnext'
  exact ⟨hanswer, ⟨hready, (Nat.le_add_right_of_le hnext).trans_eq hused.symm⟩, hready',
    (Nat.le_add_right_of_le hnext').trans_eq hused'.symm⟩

/-- The files of a program compile to the same in both orders. -/
theorem Matched.compileAll {π : Nat → Nat} {n bound : Nat} {ds : List Declaration}
    {s₀ s₀' s : Session} (h : Matched π bound ds s₀ s₀') {table : ModuleTable}
    (hblind : ∀ d ∈ ds, ∀ body, table.bodyOf d = .ok body → body.Blind)
    {inputs : List (SourcePath × String)} {files files' : List SourceFile}
    (hparses : Parses n inputs files bound) (hperm : files'.Perm (files.map (SourceFile.renumber π)))
    (hs₀ : s₀.Ready s₀ table ds ∧ bound ≤ s₀.shop.nextId)
    (hs₀' : s₀'.Ready s₀' table (ds.map (Declaration.renumber π)) ∧ bound ≤ s₀'.shop.nextId)
    {out : List CompiledFile}
    (hrun : (files.mapM Session.compileRegistered).run.run s₀ = (.ok out, s)) :
    s.registry = s₀.registry ∧ ∃ out' s',
      (files'.mapM Session.compileRegistered).run.run s₀' = (.ok out', s') ∧ out'.Perm out ∧
        s'.registry = s₀'.registry := by
  obtain ⟨hs, hall⟩ := Session.forall₂_of_run_mapM
    (P := fun s => s.Ready s₀ table ds ∧ bound ≤ s.shop.nextId)
    (fun file hfile s hs => by
      obtain ⟨path, text, a, b, hparse, hb⟩ := hparses.exists_parse hfile
      exact (h.compile hblind hparse hb hs.1 hs.2 hs₀'.1 hs₀'.2).2.1)
    hs₀ hrun
  have hall' : List.Forall₂ (fun file compiled => ∀ s' : Session,
      s'.Ready s₀' table (ds.map (Declaration.renumber π)) ∧ bound ≤ s'.shop.nextId →
        ((Session.compileRegistered file).run.run s').1 = .ok compiled ∧
          ((Session.compileRegistered file).run.run s').2.Ready s₀' table
            (ds.map (Declaration.renumber π)) ∧
          bound ≤ ((Session.compileRegistered file).run.run s').2.shop.nextId)
      (files.map (SourceFile.renumber π)) out := by
    refine List.forall₂_map_left_iff.mpr (hall.imp fun file compiled hcompiled s' hs' => ?_)
    obtain ⟨hfile, s, hs, hanswer⟩ := hcompiled
    obtain ⟨path, text, a, b, hparse, hb⟩ := hparses.exists_parse hfile
    have hsame := h.compile hblind hparse hb hs.1 hs.2 hs'.1 hs'.2
    exact ⟨hsame.1.symm.trans hanswer, hsame.2.2⟩
  obtain ⟨out', hout', hperm'⟩ := List.perm_comp_forall₂ hperm hall'
  obtain ⟨s', hrun', hs'⟩ := Session.run_mapM_of_forall₂ hout' hs₀'
  exact ⟨hs.1.registry, out', s', hrun', hperm', hs'.1.registry⟩

namespace Session

section AnyOrder

variable {config : Config} {table : ModuleTable} {session s : Session}
  {inputs inputs' : List (SourcePath × String)} {out : List CompiledFile}

/-- The order of the files makes no difference to a program whose modules are different, which
declares no derive name twice, and whose hooks do not look at the identities of nodes. If it compiles
in one order in a new session, then it compiles in every order. Each path gets the same text and the
same report, and the same files matter at compile time. -/
theorem compileFiles_perm (hnew : Session.new config table = .ok session)
    (hperm : inputs.Perm inputs') (hkeys : (inputs.map (·.1.moduleKey)).Nodup)
    (hderives : (((declaredBy inputs).filter fun d => d.kind = .derive).map Declaration.name).Nodup)
    (hblind : ∀ d ∈ declaredBy inputs, ∀ body, table.bodyOf d = .ok body → body.Blind)
    (h : (compileFiles inputs).run.run session = (.ok out, s)) :
    ∃ out' s', (compileFiles inputs').run.run session = (.ok out', s') ∧ out'.Perm out ∧
      ∀ path, path ∈ s'.registry.metaprogram ↔ path ∈ s.registry.metaprogram := by
  obtain ⟨hnext, hregistry, hhooks⟩ := of_new hnew
  -- The files of both orders, and the permutation of their numbers.
  obtain ⟨files, s₁, hparse, h⟩ := run_bind_eq_ok.mp h
  obtain ⟨T, hparses, rfl⟩ := run_parses.mp hparse
  obtain ⟨⟨⟩, s₂, hregister, hcompile⟩ := run_bind_eq_ok.mp h
  rw [hnext] at hparses
  obtain ⟨π, files', hπ, hparses', hsame⟩ := hparses.perm hperm
  have hfileKeys : (files.map (·.path.moduleKey)).Nodup := hparses.keys ▸ hkeys
  have hreordered : Reordered π files files' := ⟨hπ.injective, hfileKeys, hsame⟩
  -- Both orders are registered, and the sessions match then.
  obtain ⟨_, hcollect, -⟩ := run_register_eq_ok.mp hregister
  have hsettled := settled_of_collectAll hcollect
  have hsettled' : ∀ file ∈ files', file.Settled := fun file hfile => by
    obtain ⟨f, hf, rfl⟩ := hreordered.mem_iff.mp hfile
    exact (hsettled f hf).renumber π
  have hempty : (session.withNext T).registry = .empty := hregistry
  obtain ⟨r, hr, hrun⟩ := run_register_new hparses hfileKeys hsettled hempty
  obtain ⟨r', hr', hrun'⟩ := run_register_new hparses' hreordered.keys' hsettled' hempty
  obtain ⟨-, rfl⟩ := Prod.mk.inj (hregister.symm.trans hrun)
  have hderives' := hparses.derive_names_eq ▸ hderives
  have hmatched : Matched π T (files.flatMap SourceFile.declared)
      { session.withNext T with registry := r.bound files }
      { session.withNext T with registry := r'.bound files' } :=
    hreordered.matched hπ hparses hr hr' hderives' rfl rfl rfl rfl
  have hready : ∀ (registry : Registry) (ds : List Declaration),
      ({ session.withNext T with registry } : Session).Ready { session.withNext T with registry }
        table ds ∧ T ≤ (session.withNext T).shop.nextId := fun registry ds =>
    ⟨⟨rfl, rfl, rfl, hhooks ▸ .new table ds⟩, Nat.le_refl T⟩
  -- So the files compile to the same, and the compile-time files are those of the registries.
  obtain ⟨hs, out', s', hcompile', hout, hs'⟩ := hmatched.compileAll (hparses.forall_body hblind)
    hparses hsame (hready _ _) (hready _ _) hcompile
  refine ⟨out', s', ?_, hout, fun path => ?_⟩
  · refine run_bind_eq_ok.mpr ⟨files', _, run_parses.mpr ⟨T, ?_, rfl⟩, ?_⟩
    · rwa [hnext]
    · exact run_bind_eq_ok.mpr ⟨(), _, hrun', hcompile'⟩
  · rw [hs, hs']
    dsimp only
    rw [metaprogram_bound, metaprogram_bound]
    exact hreordered.mem_metaprogram hr hr'

end AnyOrder

section Twice

/-- `twice!(e)` becomes `e * 2`. -/
def twice : TransformHook := fun view =>
  match view.node.args? with
  | some (arg :: _) => do
    let product ← Work.build do Fresh.binary .mul arg (← Fresh.number "2")
    return [.replace (.expr product)]
  | _ => return []

def twiceBody : MacroBody := fun _ => do
  Work.say "twice"
  return ⟨[twice], []⟩

def twiceTable : ModuleTable := ⟨[], some ⟨[("twice", twiceBody)], []⟩⟩

theorem args?_renumber (ρ : NodeId → NodeId) (node : Node) :
    (node.renumber ρ).args? = node.args?.map (List.map (Expr.renumber ρ)) := by
  cases node with
  | expr e => cases e <;> simp [Node.renumber, Expr.renumber, Node.args?]
  | stmt s => rfl
  | void span => rfl

theorem twice_alike : twice.Alike twice := by
  intro ρ view w w' h
  have hargs := args?_renumber ρ view.node
  unfold twice
  rw [show (view.renumber ρ).node.args? = _ from hargs]
  cases view.node.args? with
  | none => exact ⟨.nil, 0, rfl, rfl⟩
  | some args =>
    cases args with
    | nil => exact ⟨.nil, 0, rfl, rfl⟩
    | cons arg rest =>
      refine ⟨.cons ?_ .nil, 2, rfl, rfl⟩
      have hproduct : (Expr.binary ⟨w.nextId + 1, ⟨0, 0⟩⟩ .mul arg
          (.number ⟨w.nextId, ⟨0, 0⟩⟩ "2")).renumber ρ =
          .binary ⟨w'.nextId + 1, ⟨0, 0⟩⟩ .mul (arg.renumber ρ) (.number ⟨w'.nextId, ⟨0, 0⟩⟩ "2") := by
        have hfirst : ρ w.nextId = w'.nextId := h 0
        have hsecond : ρ (w.nextId + 1) = w'.nextId + 1 := h 1
        simp only [Expr.renumber, Stamp.renumber, hfirst, hsecond]
      change Edit.Corresponds ρ (.replace (.expr _)) (.replace (.expr (.binary ⟨w'.nextId + 1, ⟨0, 0⟩⟩
        .mul (arg.renumber ρ) (.number ⟨w'.nextId, ⟨0, 0⟩⟩ "2"))))
      rw [← hproduct]
      exact .replace (.expr _)

theorem blind_of_bodyOf {d : Declaration} {body : MacroBody} (h : twiceTable.bodyOf d = .ok body) :
    body.Blind := by
  obtain ⟨name, -, hfound⟩ := ModuleTable.lookup_of_bodyOf h
  have hbody : body = twiceBody := by
    rw [List.lookup_cons] at hfound
    split at hfound
    · exact (Option.some.inj hfound).symm
    · cases hfound
  rw [hbody]
  exact fun ρ d w w' => ⟨.cons twice_alike .nil, rfl⟩

/-- A file with a macro, one that imports it and one that does not. -/
def twiceInputs : List (SourcePath × String) :=
  [(⟨"lib/main.kn"⟩, "import \x7b twice \x7d from \"./macros\";\nconst x = twice!(3);"),
    (⟨"lib/other.kn"⟩, "const y = twice!(3);"),
    (⟨"lib/macros.kn"⟩, "export macro function twice() \x7b\x7d")]

def twiceSession : Session where
  config := .standard
  shop := ⟨0, 0, []⟩
  registry := .empty
  hooks := .new twiceTable
  operators := .empty
  warnings := []

theorem exists_compileFiles_twice : ∃ out s,
    (compileFiles twiceInputs).run.run twiceSession = (.ok out, s) ∧
      out.map CompiledFile.text = ["import \x7b twice \x7d from \"./macros\";\nconst x = 3 * 2;\n",
        "const y = twice!(3);\n", "export macro function twice() \x7b\x7d\n"] := by
  have hcompiled : (match (compileFiles twiceInputs).run.run twiceSession with
    | (.ok out, _) => out.map CompiledFile.text ==
      ["import \x7b twice \x7d from \"./macros\";\nconst x = 3 * 2;\n", "const y = twice!(3);\n",
        "export macro function twice() \x7b\x7d\n"]
    | (.error _, _) => false) = true := by decide +kernel
  generalize (compileFiles twiceInputs).run.run twiceSession = compiled at hcompiled
  obtain ⟨_ | out, s⟩ := compiled
  · cases hcompiled
  · exact ⟨out, s, rfl, eq_of_beq hcompiled⟩

theorem compileFiles_perm_twice : Session.new .standard twiceTable = .ok twiceSession ∧
    twiceInputs.Perm twiceInputs.reverse ∧ (twiceInputs.map (·.1.moduleKey)).Nodup ∧
    (((declaredBy twiceInputs).filter fun d => d.kind = .derive).map Declaration.name).Nodup ∧
    (∀ d ∈ declaredBy twiceInputs, ∀ body, twiceTable.bodyOf d = .ok body → body.Blind) ∧
    ∃ out s out' s', (compileFiles twiceInputs).run.run twiceSession = (.ok out, s) ∧
      out.map CompiledFile.text = ["import \x7b twice \x7d from \"./macros\";\nconst x = 3 * 2;\n",
        "const y = twice!(3);\n", "export macro function twice() \x7b\x7d\n"] ∧
      (compileFiles twiceInputs.reverse).run.run twiceSession = (.ok out', s') ∧ out'.Perm out ∧
      ∀ path, path ∈ s'.registry.metaprogram ↔ path ∈ s.registry.metaprogram := by
  have hnew : Session.new .standard twiceTable = .ok twiceSession := rfl
  have hperm := (List.reverse_perm twiceInputs).symm
  have hkeys : (twiceInputs.map (·.1.moduleKey)).Nodup := by decide +kernel
  have hderives : (((declaredBy twiceInputs).filter fun d => d.kind = .derive).map
    Declaration.name).Nodup := by decide +kernel
  have hblind : ∀ d ∈ declaredBy twiceInputs, ∀ body, twiceTable.bodyOf d = .ok body → body.Blind :=
    fun _ _ _ hbody => blind_of_bodyOf hbody
  obtain ⟨out, s, hrun, htexts⟩ := exists_compileFiles_twice
  obtain ⟨out', s', hrun', hout, hmetaprogram⟩ :=
    compileFiles_perm hnew hperm hkeys hderives hblind hrun
  exact ⟨hnew, hperm, hkeys, hderives, hblind, out, s, out', s', hrun, htexts, hrun', hout,
    hmetaprogram⟩

end Twice

end Session

end MacroEngine
