import MacroEngine.Proofs.Incremental.Alongside

/-!
# A program as a whole and file by file

A program can be compiled as a whole, or one text after the other in one session. If no file needs
anything of a later one, and no hook puts a class with a derive of a later file into a tree, then both
ways give the same texts.
-/

namespace MacroEngine

open Registry

namespace Session

def filesOf (inputs : List (SourcePath × String)) : List SourceFile :=
  inputs.filterMap fun (path, text) => ((SourceFile.parse path text).run 0).1.toOption

/-- The files of some texts import none of the later ones, and list no derive name that one of these
declares. -/
structure Precede (inputs later : List (SourcePath × String)) : Prop where
  imports : ∀ file ∈ filesOf inputs, ∀ other ∈ later,
    other.1.moduleKey ∉ file.relativeImports.map (·.1)
  lists : ∀ file ∈ filesOf inputs, ∀ s ∈ file.statements,
    s.Within (· ∉ deriveNames (declaredBy later))

instance (inputs later : List (SourcePath × String)) : Decidable (Precede inputs later) :=
  decidable_of_iff
    ((∀ file ∈ filesOf inputs, ∀ other ∈ later,
        other.1.moduleKey ∉ file.relativeImports.map (·.1)) ∧
      ∀ file ∈ filesOf inputs, ∀ s ∈ file.statements,
        s.Within (· ∉ deriveNames (declaredBy later)))
    ⟨fun h => ⟨h.1, h.2⟩, fun h => ⟨h.imports, h.lists⟩⟩

end Session

open Session

namespace Parses

variable {n k : Nat} {inputs : List (SourcePath × String)} {files done rest : List SourceFile}

theorem split (h : Parses n inputs (done ++ rest) k) :
    ∃ m before after, inputs = before ++ after ∧ Parses n before done m ∧ Parses m after rest k := by
  induction done generalizing n inputs with
  | nil => exact ⟨n, [], inputs, rfl, .nil n, h⟩
  | cons file done ih =>
    cases h with
    | cons head tail =>
      obtain ⟨m, before, after, rfl, hbefore, hafter⟩ := ih tail
      exact ⟨m, _, after, rfl, .cons head hbefore, hafter⟩

/-- A file of a program is one of its texts taken by itself, up to numbers. -/
theorem exists_renumber_mem_filesOf (h : Parses n inputs files k) {file : SourceFile}
    (hfile : file ∈ files) : ∃ ρ, file.renumber ρ ∈ filesOf inputs := by
  induction h with
  | nil => cases hfile
  | @cons n m k path text first inputs files head _ ih =>
    rcases List.mem_cons.mp hfile with rfl | hfile
    · obtain ⟨ρ, halone, -⟩ := SourceFile.exists_parse_at head 0
      refine ⟨ρ, List.mem_filterMap.mpr ⟨(path, text), List.mem_cons_self, ?_⟩⟩
      dsimp only
      rw [halone]
      rfl
    · obtain ⟨ρ, hmem⟩ := ih hfile
      obtain ⟨input, hinput, hparse⟩ := List.mem_filterMap.mp hmem
      exact ⟨ρ, List.mem_filterMap.mpr ⟨input, List.mem_cons_of_mem _ hinput, hparse⟩⟩

theorem deriveNames_eq (h : Parses n inputs files k) :
    deriveNames (declaredBy inputs) = deriveNames (files.flatMap SourceFile.declared) :=
  h.derive_names_eq

end Parses

section Hypotheses

variable {table : ModuleTable} {inputs : List (SourcePath × String)}
  (hprecede : ∀ k ≤ inputs.length, Precede (inputs.take k) (inputs.drop k))
  (hkeeps : ∀ k ≤ inputs.length, ∀ d ∈ declaredBy (inputs.take k), ∀ body,
    table.bodyOf d = .ok body → body.Keeps (· ∉ deriveNames (declaredBy (inputs.drop k))))

include hprecede hkeeps

/-- What is asked of texts holds of the files of the program. -/
theorem Parses.behind {n top : Nat} {done rest : List SourceFile}
    (h : Parses n inputs (done ++ rest) top) : Behind table done rest := by
  obtain ⟨m, before, after, rfl, hbefore, hafter⟩ := h.split
  have hcut : before.length ≤ (before ++ after).length := by simp
  have hprecede := hprecede before.length hcut
  have hkeeps := hkeeps before.length hcut
  rw [List.take_left, List.drop_left] at hprecede hkeeps
  rw [hafter.deriveNames_eq] at hkeeps
  refine ⟨fun file hfile other hother => ?_, fun file hfile s hs => ?_, hbefore.forall_body hkeeps⟩
  · obtain ⟨ρ, hmem⟩ := hbefore.exists_renumber_mem_filesOf hfile
    have hpath := List.mem_map_of_mem (f := SourceFile.path) hother
    rw [hafter.paths] at hpath
    obtain ⟨input, hinput, hpath⟩ := List.mem_map.mp hpath
    have hnot := hprecede.imports _ hmem input hinput
    rwa [SourceFile.relativeImports_renumber, hpath] at hnot
  · obtain ⟨ρ, hmem⟩ := hbefore.exists_renumber_mem_filesOf hfile
    have hwithin := hprecede.lists _ hmem (s.renumber ρ) (List.mem_map_of_mem hs)
    rwa [s.within_renumber, hafter.deriveNames_eq] at hwithin

end Hypotheses

namespace Session

variable {config : Config} {table : ModuleTable} {session s : Session}
  {inputs : List (SourcePath × String)} {out : List CompiledFile}

/-- Before the first file, nothing has been compiled beside a program that is registered as a
whole. -/
theorem alongside_start {files : List SourceFile} {top : Nat} {s' : Session}
    (hnew : Session.new config table = .ok session) (hparses : Parses 0 inputs files top)
    (hwhole : Whole s' table files) (hconfig : s'.config = session.config)
    (hoperators : s'.operators = session.operators) (hnext : s'.shop.nextId = top)
    (hhooks : s'.hooks = .new table)
    (hmeant : ∀ kind i d, s'.registry.binding? kind i = some d ↔
      (kind, d, i) ∈ s'.registry.entries files) :
    Alongside s' table 0 top [] files id [] session s' := by
  obtain ⟨hsession, hregistry, hcache⟩ := of_new hnew
  have hnone : ∀ i, ¬ i < session.shop.nextId := fun i => hsession ▸ Nat.not_lt_zero i
  have hunbound : ∀ kind i d, session.registry.binding? kind i ≠ some d := fun kind i d hd => by
    rw [hregistry] at hd
    cases hd
  have hfollows : Follows session.registry ⟨[], []⟩ := hregistry ▸ .empty
  have hahead : Ahead id [] (files.flatMap SourceFile.declared) session.registry s'.registry :=
    ⟨hfollows, hwhole.follows⟩
  have hpaired : Paired id session.shop.nextId s'.shop.nextId
      (· ∉ deriveNames (files.flatMap SourceFile.declared)) [] session s' :=
    { injective := fun i _ hi => absurd hi (hnone i)
      lt := fun i hi => absurd hi (hnone i)
      distinct := .nil
      below := fun _ hd => absurd hd List.not_mem_nil
      config := hconfig
      operators := hoperators
      binding := fun _ i hi => absurd hi (hnone i)
      bound := fun kind i d hd => absurd hd (hunbound kind i d)
      unbound := fun kind i hi => Option.eq_none_iff_forall_ne_some.mpr fun d hd =>
        Nat.not_lt.mpr hi
          (hnext ▸ (bounds_of_mem_entries hparses.numbered ((hmeant kind i d).mp hd)).2)
      derive := fun name => hahead.derive? hwhole.derives
      derived := fun name d hd => ((hfollows.means name d).mp hd).2 }
  exact ⟨hpaired, fun i hi => absurd hi (hnone i), hnext.ge, hfollows, hcache ▸ .new table _, rfl,
    fun kind i d _ _ => hmeant kind i d, ⟨rfl, rfl, rfl, hhooks ▸ .new table _⟩⟩

/-- File by file, a program compiles to the texts that it compiles to as a whole. It is enough that
its modules are different, that no derive name is declared twice, that its hooks do not look at the
identities of nodes, that no file imports a later one or lists a derive name of a later one, and that
no hook puts a class that lists a derive name of a later file in place of what it is shown. -/
theorem compileSources_of_compileFiles (hnew : Session.new config table = .ok session)
    (hkeys : (inputs.map (·.1.moduleKey)).Nodup) (hderives : (deriveNames (declaredBy inputs)).Nodup)
    (hprecede : ∀ k ≤ inputs.length, Precede (inputs.take k) (inputs.drop k))
    (hkeeps : ∀ k ≤ inputs.length, ∀ d ∈ declaredBy (inputs.take k), ∀ body,
      table.bodyOf d = .ok body → body.Keeps (· ∉ deriveNames (declaredBy (inputs.drop k))))
    (hblind : ∀ d ∈ declaredBy inputs, ∀ body, table.bodyOf d = .ok body → body.Blind)
    (h : (compileFiles inputs).run.run session = (.ok out, s)) :
    ∃ s', (inputs.mapM fun (path, text) => compileSource path text).run.run session =
      (.ok (out.map CompiledFile.text), s') := by
  obtain ⟨hnext, hregistry, hhooks⟩ := of_new hnew
  -- The program is parsed and registered as a whole.
  obtain ⟨files, s₁, hparse, h⟩ := run_bind_eq_ok.mp h
  obtain ⟨top, hparses, rfl⟩ := run_parses.mp hparse
  obtain ⟨⟨⟩, s₂, hregister, hcompile⟩ := run_bind_eq_ok.mp h
  rw [hnext] at hparses
  have hfileKeys : (files.map (·.path.moduleKey)).Nodup := hparses.keys ▸ hkeys
  obtain ⟨_, hcollect, -⟩ := run_register_eq_ok.mp hregister
  have hsettled := settled_of_collectAll hcollect
  obtain ⟨r, hr, hrun⟩ := run_register_new hparses hfileKeys hsettled
    (show (session.withNext top).registry = .empty from hregistry)
  obtain ⟨-, rfl⟩ := Prod.mk.inj (hregister.symm.trans hrun)
  have hwhole : Whole { session.withNext top with registry := r.bound files } table files :=
    ⟨hr.follows.bound files, hfileKeys, hparses.deriveNames_eq ▸ hderives, hsettled,
      hparses.forall_body hblind, fun done rest hfiles => (hfiles ▸ hparses).behind hprecede hkeeps⟩
  -- Beside it the files are compiled one by one.
  have hstart := alongside_start hnew hparses hwhole rfl rfl rfl hhooks fun kind i d =>
    binding?_bound_eq_some_iff hparses.numbered.nodup (binding?_of_bindings_eq_nil hr.unbound kind i)
  exact hstart.run hwhole rfl hparses hcompile

section Nested

/-- A class gets a method that declares a class with the derive `Drop`. -/
def nest : TransformHook := fun view =>
  match view.node with
  | .stmt (.classDecl stamp head members) => do
    let make ← Work.build do
      let inner ← Fresh.classDecl ⟨"Inner", ["Drop"], .internal⟩ []
      Fresh.method "make" [] (← Fresh.block [inner])
    return [.replace (.stmt (.classDecl stamp head (members ++ [make])))]
  | _ => return []

def drop : TransformHook := fun _ => return [.remove]

def nestedExports : List (String × MacroBody) :=
  [("Drop", fun _ => return ⟨[drop], []⟩), ("Nest", fun _ => return ⟨[nest], []⟩)]

def nestedTable : ModuleTable := ⟨[], some ⟨nestedExports, []⟩⟩

def nestedSession : Session := { twiceSession with hooks := .new nestedTable }

/-- A file with a derive that puts in a class for the derive of the other file. -/
def nestedInputs : List (SourcePath × String) :=
  [(⟨"a.kn"⟩, "macro derive function Nest() \x7b\x7d\nclass A derives Nest \x7b\x7d"),
    (⟨"b.kn"⟩, "macro derive function Drop() \x7b\x7d")]

def nestedTexts : List String :=
  ["macro derive function Drop() \x7b\x7d\n",
    "macro derive function Nest() \x7b\x7d\nclass A derives Nest \x7b\n    make() \x7b\x7d\n\x7d\n"]

theorem nest_alike : nest.Alike nest := by
  rintro ρ ⟨node, d, path, statements⟩ w w' h
  cases node with
  | expr e => exact ⟨.nil, 0, rfl, rfl⟩
  | void span => exact ⟨.nil, 0, rfl, rfl⟩
  | stmt s =>
    cases s with
    | classDecl stamp head members =>
      refine ⟨.cons ?_ .nil, 3, rfl, rfl⟩
      have hfirst : ρ w.nextId = w'.nextId := h 0
      have hsecond : ρ (w.nextId + 1) = w'.nextId + 1 := h 1
      have hthird : ρ (w.nextId + 2) = w'.nextId + 2 := h 2
      let inner (n : Nat) : Stmt := .classDecl ⟨n, ⟨0, 0⟩⟩ ⟨"Inner", ["Drop"], .internal⟩ []
      let make (n : Nat) : Member :=
        .method ⟨n + 2, ⟨0, 0⟩⟩ ⟨"make", [], false⟩ ⟨⟨n + 1, ⟨0, 0⟩⟩, [inner n]⟩
      have hcls : (Stmt.classDecl stamp head (members ++ [make w.nextId])).renumber ρ =
          .classDecl (stamp.renumber ρ) head
            (members.map (Member.renumber ρ) ++ [make w'.nextId]) := by
        simp [make, inner, Stmt.renumber, Member.renumber, Block.renumber, Stamp.renumber, hfirst,
          hsecond, hthird]
      change Edit.Corresponds ρ
        (.replace (.stmt (.classDecl stamp head (members ++ [make w.nextId]))))
        (.replace (.stmt (.classDecl (stamp.renumber ρ) head
          (Member.renumberAll ρ members ++ [make w'.nextId]))))
      rw [Member.renumberAll_eq_map, ← hcls]
      exact .replace (.stmt _)
    | binding _ _ _ init _ => cases init <;> exact ⟨.nil, 0, rfl, rfl⟩
    | ret _ value => cases value <;> exact ⟨.nil, 0, rfl, rfl⟩
    | ifElse _ _ _ alternative => cases alternative <;> exact ⟨.nil, 0, rfl, rfl⟩
    | _ => exact ⟨.nil, 0, rfl, rfl⟩

theorem drop_alike : drop.Alike drop :=
  fun _ _ _ _ _ => ⟨.cons .remove .nil, 0, rfl, rfl⟩

theorem blind_of_nested {d : Declaration} {body : MacroBody} (h : nestedTable.bodyOf d = .ok body) :
    body.Blind := by
  obtain ⟨name, -, hfound⟩ := ModuleTable.lookup_of_bodyOf h
  rw [nestedExports, List.lookup_cons] at hfound
  split at hfound
  · obtain rfl := Option.some.inj hfound
    exact fun ρ d w w' => ⟨.cons drop_alike .nil, rfl⟩
  · rw [List.lookup_cons] at hfound
    split at hfound
    · obtain rfl := Option.some.inj hfound
      exact fun ρ d w w' => ⟨.cons nest_alike .nil, rfl⟩
    · cases hfound

theorem exists_compileFiles_nested : ∃ out s texts s',
    (compileFiles nestedInputs).run.run nestedSession = (.ok out, s) ∧
      (nestedInputs.mapM fun (path, text) => compileSource path text).run.run nestedSession =
        (.ok texts, s') ∧ texts ≠ out.map CompiledFile.text := by
  have hne : (match (compileFiles nestedInputs).run.run nestedSession,
      (nestedInputs.mapM fun (path, text) => compileSource path text).run.run nestedSession with
    | (.ok out, _), (.ok texts, _) => texts != out.map CompiledFile.text
    | _, _ => false) = true := by decide +kernel
  generalize (compileFiles nestedInputs).run.run nestedSession = whole at hne
  generalize (nestedInputs.mapM fun (path, text) => compileSource path text).run.run nestedSession =
    single at hne
  obtain ⟨_ | out, s⟩ := whole
  · cases hne
  · obtain ⟨_ | texts, s'⟩ := single
    · cases hne
    · exact ⟨out, s, texts, s', rfl, rfl, bne_iff_ne.mp hne⟩

/-- It is not enough that the files need nothing of later ones. In a whole program the class that the
hook puts in is taken away. File by file it stays, for its derive is not declared yet. -/
theorem compileSources_ne_compileFiles : Session.new .standard nestedTable = .ok nestedSession ∧
    (nestedInputs.map (·.1.moduleKey)).Nodup ∧ (deriveNames (declaredBy nestedInputs)).Nodup ∧
    (∀ k ≤ nestedInputs.length, Precede (nestedInputs.take k) (nestedInputs.drop k)) ∧
    (∀ d ∈ declaredBy nestedInputs, ∀ body, nestedTable.bodyOf d = .ok body → body.Blind) ∧
    ∃ out s texts s', (compileFiles nestedInputs).run.run nestedSession = (.ok out, s) ∧
      (nestedInputs.mapM fun (path, text) => compileSource path text).run.run nestedSession =
        (.ok texts, s') ∧ texts ≠ out.map CompiledFile.text := by
  refine ⟨rfl, ?_, ?_, ?_, fun _ _ _ hbody => blind_of_nested hbody, exists_compileFiles_nested⟩
  · decide +kernel
  · decide +kernel
  · decide +kernel

/-- If the file with the other derive comes first, then no hook asks for a later derive. -/
theorem keeps_of_nested : ∀ k ≤ nestedInputs.reverse.length,
    ∀ d ∈ declaredBy (nestedInputs.reverse.take k), ∀ body, nestedTable.bodyOf d = .ok body →
      body.Keeps (· ∉ deriveNames (declaredBy (nestedInputs.reverse.drop k))) := by
  intro k hk d hd body hbody
  have hlength : nestedInputs.reverse.length = 2 := rfl
  obtain rfl | rfl | rfl : k = 0 ∨ k = 1 ∨ k = 2 := by omega
  · cases hd
  · have hname : ∀ e ∈ declaredBy (nestedInputs.reverse.take 1), e.exportName? = some "Drop" := by
      decide +kernel
    obtain ⟨name, hexport, hfound⟩ := ModuleTable.lookup_of_bodyOf hbody
    obtain rfl : "Drop" = name := Option.some.inj ((hname d hd).symm.trans hexport)
    obtain rfl : _ = body := Option.some.inj hfound
    intro _ _ hook hhook _ _ _ _ edit hedit node hnode
    obtain rfl := List.mem_singleton.mp hhook
    obtain rfl := List.mem_singleton.mp hedit
    cases hnode
  · exact body.keeps_of_forall fun _ => List.not_mem_nil

theorem exists_compileFiles_reverse : ∃ out s,
    (compileFiles nestedInputs.reverse).run.run nestedSession = (.ok out, s) ∧
      out.map CompiledFile.text = nestedTexts := by
  have hcompiled : (match (compileFiles nestedInputs.reverse).run.run nestedSession with
    | (.ok out, _) => out.map CompiledFile.text == nestedTexts
    | (.error _, _) => false) = true := by decide +kernel
  generalize (compileFiles nestedInputs.reverse).run.run nestedSession = compiled at hcompiled
  obtain ⟨_ | out, s⟩ := compiled
  · cases hcompiled
  · exact ⟨out, s, rfl, eq_of_beq hcompiled⟩

theorem compileSources_of_compileFiles_nested :
    Session.new .standard nestedTable = .ok nestedSession ∧
    (nestedInputs.reverse.map (·.1.moduleKey)).Nodup ∧
    (deriveNames (declaredBy nestedInputs.reverse)).Nodup ∧
    (∀ k ≤ nestedInputs.reverse.length,
      Precede (nestedInputs.reverse.take k) (nestedInputs.reverse.drop k)) ∧
    ∃ out s s', (compileFiles nestedInputs.reverse).run.run nestedSession = (.ok out, s) ∧
      out.map CompiledFile.text = nestedTexts ∧
      (nestedInputs.reverse.mapM fun (path, text) => compileSource path text).run.run nestedSession =
        (.ok (out.map CompiledFile.text), s') := by
  have hkeys : (nestedInputs.reverse.map (·.1.moduleKey)).Nodup := by decide +kernel
  have hderives : (deriveNames (declaredBy nestedInputs.reverse)).Nodup := by decide +kernel
  have hprecede : ∀ k ≤ nestedInputs.reverse.length,
    Precede (nestedInputs.reverse.take k) (nestedInputs.reverse.drop k) := by decide +kernel
  obtain ⟨out, s, hrun, htexts⟩ := exists_compileFiles_reverse
  have hnew : Session.new .standard nestedTable = .ok nestedSession := rfl
  obtain ⟨s', hrun'⟩ := compileSources_of_compileFiles hnew hkeys hderives hprecede keeps_of_nested
    (fun _ _ _ hbody => blind_of_nested hbody) hrun
  exact ⟨hnew, hkeys, hderives, hprecede, out, s, s', hrun, htexts, hrun'⟩

end Nested

end Session

end MacroEngine
