import MacroEngine.Proofs.Incremental.OneMore
import MacroEngine.Proofs.Order.AnyOrder
import MacroEngine.Proofs.Unchanged.Compile

/-!
# File by file beside the whole program

A program is registered as a whole in one session, and file by file in another one. After each file
the two sessions mean the same by what has been compiled. The numbers differ: those of the next file
follow the ones that were given to nodes of hooks in one session, and the ones of the file before it
in the other.
-/

namespace MacroEngine

open Grammar Registry

/-- A file can be parsed from any other number on. -/
theorem SourceFile.exists_parse_at {path : SourcePath} {text : String} {a b : Nat} {file : SourceFile}
    (h : (SourceFile.parse path text).run a = (.ok file, b)) (n : Nat) : ∃ σ : Nat → Nat,
      (SourceFile.parse path text).run n = (.ok (file.renumber σ), n + (b - a)) ∧
        ∀ π, Carries π n (n + (b - a)) a → (file.renumber σ).renumber π = file := by
  have hto : Carries (fun i => i - a + n) a b n := fun i _ => by
    dsimp only
    omega
  have hparse := SourceFile.parse_renumber h hto
  refine ⟨_, hparse, fun π hπ => ?_⟩
  have hback := SourceFile.parse_renumber hparse hπ
  rw [Nat.add_sub_cancel_left, h] at hback
  exact (Except.ok.inj (Prod.mk.inj hback).1).symm

namespace Registry

variable {r : Registry}

theorem entries_cons (r : Registry) (file : SourceFile) (files : List SourceFile) :
    r.entries (file :: files) = r.entries [file] ++ r.entries files := by
  simp only [entries, List.flatMap_cons, List.flatMap_nil, List.append_nil]

theorem bounds_of_mem_entries {a b : Nat} {files : List SourceFile}
    (hfiles : Numbered a b (files.flatMap SourceFile.items)) {kind : MacroKind} {d : Declaration}
    {i : Nat} (h : (kind, d, i) ∈ r.entries files) : a ≤ i ∧ i < b := by
  obtain ⟨item, hitem, rfl⟩ :=
    List.mem_map.mp ((entries_sublist r files).subset (List.mem_map_of_mem h))
  exact hfiles.bounds item hitem

end Registry

theorem Numbered.not_mem_of_lt {a b i : Nat} {items : List Item} (h : Numbered a b items)
    (hi : i < a) : i ∉ items.map Item.id := fun hmem => by
  obtain ⟨item, hitem, rfl⟩ := List.mem_map.mp hmem
  exact Nat.not_lt.mpr (h.bounds item hitem).1 hi

/-- The declarations of a new file are apart from those before. -/
theorem SourceFile.nodup_declared {ds : List Declaration} {n k : Nat} {file : SourceFile}
    (hdistinct : (ds.map Declaration.id).Nodup) (hbelow : ∀ d ∈ ds, d.id < n)
    (hfile : Numbered n k file.items) : ((ds ++ file.declared).map Declaration.id).Nodup := by
  rw [List.map_append]
  refine List.nodup_append.mpr ⟨hdistinct, List.Nodup.sublist file.made.ids hfile.nodup, ?_⟩
  intro i hi j hj
  obtain ⟨d, hd, rfl⟩ := List.mem_map.mp hi
  obtain ⟨item, hitem, rfl⟩ := List.mem_map.mp (file.made.ids.subset hj)
  exact Nat.ne_of_lt (Nat.lt_of_lt_of_le (hbelow d hd) (hfile.bounds item hitem).1)

namespace Paired

variable {π : Nat → Nat} {bound bound' : Nat} {names : String → Prop} {ds : List Declaration}
  {s s₁ s' : Session} (h : Paired π bound bound' names ds s s')

include h

/-- Only the tables count. -/
theorem of_ready {table : ModuleTable} {ds' : List Declaration} (hs : s₁.Ready s table ds') :
    Paired π bound bound' names ds s₁ s' where
  injective := h.injective
  lt := h.lt
  distinct := h.distinct
  below := h.below
  config := h.config.trans hs.config.symm
  operators := h.operators.trans hs.operators.symm
  binding := hs.registry ▸ h.binding
  bound := hs.registry ▸ h.bound
  unbound := h.unbound
  derive := hs.registry ▸ h.derive
  derived := hs.registry ▸ h.derived

/-- Nodes that are built later are not bound. -/
theorem grow (used : Nat) : Paired (extend π bound bound bound') (bound + used) (bound' + used) names
    ds s s' where
  injective i j _ _ hij := by
    rcases Nat.lt_or_ge j bound with hj | hj
    · exact h.apart (Nat.le_refl bound') i j hj hij
    · rcases Nat.lt_or_ge i bound with hi | hi
      · exact (h.apart (Nat.le_refl bound') j i hi hij.symm).symm
      · exact eq_of_extend_eq hi hj hij
  lt i hi := by
    rcases Nat.lt_or_ge i bound with hlt | hge
    · rw [extend_of_lt hlt]
      exact Nat.lt_add_right used (h.lt i hlt)
    · exact extend_lt hge hi
  distinct := h.distinct
  below d hd := Nat.lt_add_right used (h.below d hd)
  config := h.config
  operators := h.operators
  binding kind i _ := by
    rw [h.map_renumber fun d hd => (h.bound kind i d hd).2]
    rcases Nat.lt_or_ge i bound with hi | hi
    · rw [extend_of_lt hi, h.binding kind i hi]
    · rw [h.unbound kind _ (le_extend hi), h.binding?_of_le hi]
      rfl
  bound kind i d hd := ⟨Nat.lt_add_right used (h.bound kind i d hd).1, (h.bound kind i d hd).2⟩
  unbound kind i hi := h.unbound kind i (Nat.le_of_add_right_le hi)
  derive name hname := by rw [h.map_renumber (h.derived name), h.derive name hname]
  derived := h.derived

/-- One more file is registered. Its numbers become the next ones of the other session, where its
sites mean the same. -/
theorem add {a used : Nat} {file : SourceFile} {names' : String → Prop}
    (hadds : s.registry.Adds ds file s₁.registry) (hconfig : s₁.config = s.config)
    (hoperators : s₁.operators = s.operators)
    (hfile : Numbered bound (bound + used) file.items) (hle : a + used ≤ bound')
    (hapart : ∀ i, i < bound → π i < a ∨ a + used ≤ π i)
    (hbinding : ∀ kind i, bound ≤ i → i < bound + used →
      s'.registry.binding? kind (extend π bound bound a i) =
        (s₁.registry.binding? kind i).map (Declaration.renumber (extend π bound bound a)))
    (hderive : ∀ name, names' name → s'.registry.derive? name =
      (s₁.registry.derive? name).map (Declaration.renumber (extend π bound bound a))) :
    Paired (extend π bound bound a) (bound + used) bound' names' (ds ++ file.declared) s₁ s' where
  injective i j hi hj hij := by
    have hinjective := h.injective i j
    have hi := hapart i
    have hj := hapart j
    unfold extend at hij
    split_ifs at hij <;> omega
  lt i hi := by
    have hlt := h.lt i
    unfold extend
    split_ifs <;> omega
  distinct := SourceFile.nodup_declared h.distinct h.below hfile
  below d hd := by
    rcases List.mem_append.mp hd with hd | hd
    · exact Nat.lt_add_right used (h.below d hd)
    · obtain ⟨item, hitem, hid⟩ :=
        List.mem_map.mp (file.made.ids.subset (List.mem_map_of_mem hd))
      exact hid ▸ (hfile.bounds item hitem).2
  config := h.config.trans hconfig.symm
  operators := h.operators.trans hoperators.symm
  binding kind i hi := by
    rcases Nat.lt_or_ge i bound with hlt | hge
    · rw [extend_of_lt hlt, h.binding kind i hlt, hadds.old kind i (hfile.not_mem_of_lt hlt),
        h.map_renumber fun d hd => (h.bound kind i d hd).2]
    · exact hbinding kind i hge hi
  bound kind i d hd := by
    rcases Nat.lt_or_ge i bound with hlt | hge
    · rw [hadds.old kind i (hfile.not_mem_of_lt hlt)] at hd
      exact ⟨Nat.lt_add_right used hlt, List.mem_append_left _ (h.bound kind i d hd).2⟩
    · have hentry := (hadds.new kind i (h.binding?_of_le hge) d).mp hd
      exact ⟨(bounds_of_mem_entries (by rwa [List.flatMap_singleton]) hentry).2,
        hadds.mem_declared hentry⟩
  unbound := h.unbound
  derive := hderive
  derived name d hd := ((hadds.follows.means name d).mp hd).2

end Paired

theorem Session.Ready.mono {s s₀ : Session} {table : ModuleTable} {ds more : List Declaration}
    (h : s.Ready s₀ table ds) (hsub : ds ⊆ more) : s.Ready s₀ table more :=
  { h with hooks := h.hooks.mono hsub }

/-- Files need nothing of later ones: they import none of them and list none of their derive names,
and neither do the hooks of their macros. -/
structure Behind (table : ModuleTable) (files later : List SourceFile) : Prop where
  imports : ∀ file ∈ files, ∀ other ∈ later,
    other.path.moduleKey ∉ file.relativeImports.map (·.1)
  lists : ∀ file ∈ files, ∀ s ∈ file.statements,
    s.Within (· ∉ deriveNames (later.flatMap SourceFile.declared))
  keeps : ∀ d ∈ files.flatMap SourceFile.declared, ∀ body, table.bodyOf d = .ok body →
    body.Keeps (· ∉ deriveNames (later.flatMap SourceFile.declared))

/-- A session in which a program is registered whose files need nothing of later ones. -/
structure Whole (s : Session) (table : ModuleTable) (files : List SourceFile) : Prop where
  follows : Follows s.registry
    ⟨files.flatMap SourceFile.declared, files.flatMap SourceFile.declared⟩
  keys : (files.map (·.path.moduleKey)).Nodup
  derives : (deriveNames (files.flatMap SourceFile.declared)).Nodup
  settled : ∀ file ∈ files, file.Settled
  blind : ∀ d ∈ files.flatMap SourceFile.declared, ∀ body, table.bodyOf d = .ok body → body.Blind
  behind : ∀ done rest, files = done ++ rest → Behind table done rest

/-- Some files of a program have been compiled in two sessions: in `s`, where nothing else has been
registered, and in `s'`, which went on from `s₀'`, where all of the program had been registered. The
rest has the numbers from `a` up to `top` there. -/
structure Alongside (s₀' : Session) (table : ModuleTable) (a top : Nat) (done rest : List SourceFile)
    (π : Nat → Nat) (ds : List Declaration) (s s' : Session) : Prop where
  paired : Paired π s.shop.nextId s'.shop.nextId
    (· ∉ deriveNames (rest.flatMap SourceFile.declared)) ds s s₀'
  apart : ∀ i : Nat, i < s.shop.nextId → π i < a ∨ top ≤ π i
  le : top ≤ s'.shop.nextId
  follows : Follows s.registry ⟨ds, ds⟩
  holds : s.hooks.Holds table ds
  declared : ds.map (Declaration.renumber π) = done.flatMap SourceFile.declared
  /-- Sites of the rest are bound to what they mean. -/
  meant : ∀ kind i d, a ≤ i → i < top →
    (s₀'.registry.binding? kind i = some d ↔ (kind, d, i) ∈ s₀'.registry.entries rest)
  ready : s'.Ready s₀' table (done.flatMap SourceFile.declared)

namespace Whole

variable {s₀' : Session} {table : ModuleTable} {files done rest : List SourceFile} {file : SourceFile}
  (h : Whole s₀' table files) (hfiles : files = done ++ file :: rest)

include h hfiles

theorem key_ne_of_done {d : Declaration} (hd : d ∈ done.flatMap SourceFile.declared) :
    d.file.moduleKey ≠ file.path.moduleKey := by
  obtain ⟨other, hother, hd⟩ := List.mem_flatMap.mp hd
  rw [other.made.file d hd]
  have hkeys := h.keys
  rw [hfiles, List.map_append, List.map_cons] at hkeys
  exact (List.nodup_append.mp hkeys).2.2 _ (List.mem_map_of_mem hother) _ List.mem_cons_self

theorem key_ne_of_rest {d : Declaration} (hd : d ∈ rest.flatMap SourceFile.declared) :
    d.file.moduleKey ≠ file.path.moduleKey := by
  obtain ⟨other, hother, hd⟩ := List.mem_flatMap.mp hd
  rw [other.made.file d hd]
  have hkeys := h.keys
  rw [hfiles, List.map_append, List.map_cons] at hkeys
  intro heq
  exact (List.nodup_cons.mp (List.nodup_append.mp hkeys).2.1).1
    (heq ▸ List.mem_map_of_mem (f := (·.path.moduleKey)) hother)

theorem behind_file : Behind table (done ++ [file]) rest :=
  h.behind (done ++ [file]) rest (hfiles.trans (List.append_cons done file rest))

theorem not_imported {d : Declaration} (hd : d ∈ rest.flatMap SourceFile.declared) :
    d.file.moduleKey ∉ file.relativeImports.map (·.1) := by
  obtain ⟨other, hother, hd⟩ := List.mem_flatMap.mp hd
  rw [other.made.file d hd]
  exact (h.behind_file hfiles).imports file (List.mem_append_right _ List.mem_cons_self) other hother

end Whole

namespace Alongside

open Session

variable {s₀' : Session} {table : ModuleTable} {files done rest : List SourceFile} {π : Nat → Nat}
  {ds : List Declaration} {a b top : Nat} {s s' : Session} {file : SourceFile}
  {path : SourcePath} {text : String} (hwhole : Whole s₀' table files)

/-- What the next file means in the whole program. -/
theorem meant_file (h : Alongside s₀' table a top done (file :: rest) π ds s s')
    (hrest : Numbered b top (rest.flatMap SourceFile.items)) {kind : MacroKind} {i : Nat}
    {d : Declaration} (hle : a ≤ i) (hlt : i < b) :
    s₀'.registry.binding? kind i = some d ↔ (kind, d, i) ∈ s₀'.registry.entries [file] := by
  rw [h.meant kind i d hle (Nat.lt_of_lt_of_le hlt hrest.le), entries_cons, List.mem_append]
  exact or_iff_left fun hentry => Nat.not_lt.mpr (bounds_of_mem_entries hrest hentry).1 hlt

theorem meant_rest (h : Alongside s₀' table a top done (file :: rest) π ds s s')
    (hfile : Numbered a b file.items) {kind : MacroKind} {i : Nat}
    {d : Declaration} (hle : b ≤ i) (hlt : i < top) :
    s₀'.registry.binding? kind i = some d ↔ (kind, d, i) ∈ s₀'.registry.entries rest := by
  rw [h.meant kind i d (Nat.le_trans hfile.le hle) hlt, entries_cons, List.mem_append]
  refine or_iff_right fun hentry => Nat.not_lt.mpr hle ?_
  exact (bounds_of_mem_entries (by rwa [List.flatMap_singleton]) hentry).2

section Next

variable (hfiles : files = done ++ file :: rest)
  (h : Alongside s₀' table a top done (file :: rest) π ds s s') {σ : Nat → Nat}
  (hsame : (file.renumber σ).renumber (extend π s.shop.nextId s.shop.nextId a) = file)

include h

include hsame in
/-- All declarations up to the next file have other numbers in the whole program. -/
theorem declared_next : (ds ++ (file.renumber σ).declared).map
    (Declaration.renumber (extend π s.shop.nextId s.shop.nextId a)) =
      (done ++ [file]).flatMap SourceFile.declared := by
  rw [List.map_append, List.flatMap_append, List.flatMap_singleton, ← h.declared,
    ← SourceFile.declared_renumber, hsame]
  exact congrArg (· ++ _) (List.map_congr_left fun d hd => h.paired.renumber_extend hd _ _)

include hwhole hfiles

theorem exists_collect (hnumbered : Numbered s.shop.nextId b (file.renumber σ).items) :
    ∃ r, s.registry.collect (file.renumber σ) = .ok r ∧
      s.registry.Adds ds (file.renumber σ) (r.bound [file.renumber σ]) := by
  have hmem : file ∈ files := hfiles ▸ List.mem_append_right _ List.mem_cons_self
  have hcollect := collect_eq_ok (r := s.registry).mpr ⟨(hwhole.settled file hmem).renumber σ, rfl⟩
  have hother : ∀ d ∈ ds, (d.file == file.path) = false := fun d hd =>
    Bool.eq_false_iff.mpr fun heq => hwhole.key_ne_of_done hfiles (d := d.renumber π)
      (h.declared ▸ List.mem_map_of_mem hd) (SourcePath.moduleKey_eq heq)
  exact ⟨_, hcollect, h.follows.adds hcollect hother
    (SourceFile.nodup_declared h.paired.distinct h.paired.below hnumbered) hnumbered.nodup⟩

include hsame

variable {r : Registry} (hadds : s.registry.Adds ds (file.renumber σ) r)

include hadds

theorem ahead_next : Ahead (extend π s.shop.nextId s.shop.nextId a) (ds ++ (file.renumber σ).declared)
    (rest.flatMap SourceFile.declared) r s₀'.registry where
  follows := hadds.follows
  follows' := by
    rw [h.declared_next hsame, ← List.flatMap_append, ← List.append_cons, ← hfiles]
    exact hwhole.follows

/-- A derive name that no later file declares means the same. -/
theorem derive?_next (name : String)
    (hname : name ∉ deriveNames (rest.flatMap SourceFile.declared)) :
    s₀'.registry.derive? name = (r.derive? name).map
      (Declaration.renumber (extend π s.shop.nextId s.shop.nextId a)) := by
  refine (h.ahead_next hwhole hfiles hsame hadds).derive? ?_ hname
  rw [h.declared_next hsame, ← List.flatMap_append, ← List.append_cons, ← hfiles]
  exact hwhole.derives

/-- The sites of the next file mean the same. -/
theorem binding?_next {used : Nat}
    (hnumbered : Numbered s.shop.nextId (s.shop.nextId + used) (file.renumber σ).items)
    (hrest : Numbered (a + used) top (rest.flatMap SourceFile.items)) (kind : MacroKind) (i : Nat)
    (hge : s.shop.nextId ≤ i) (hlt : i < s.shop.nextId + used) :
    s₀'.registry.binding? kind (extend π s.shop.nextId s.shop.nextId a i) =
      (r.binding? kind i).map
        (Declaration.renumber (extend π s.shop.nextId s.shop.nextId a)) := by
  have hown : ∀ d ∈ rest.flatMap SourceFile.declared,
      d.file.moduleKey ≠ (file.renumber σ).path.moduleKey := fun d => hwhole.key_ne_of_rest hfiles
  have himports : ∀ d ∈ rest.flatMap SourceFile.declared,
      d.file.moduleKey ∉ (file.renumber σ).relativeImports.map (·.1) := fun d hd => by
    rw [SourceFile.relativeImports_renumber]
    exact hwhole.not_imported hfiles hd
  refine (h.ahead_next hwhole hfiles hsame hadds).binding? hown himports
    (hadds.new kind i (h.paired.binding?_of_le hge)) (fun d => ?_) fun item hitem heq => ?_
  · rw [hsame]
    exact h.meant_file hrest (le_extend hge) (extend_lt hge hlt)
  · exact eq_of_extend_eq (hnumbered.bounds item hitem).1 hge heq

end Next

include hwhole

/-- The next file is parsed and registered by itself. -/
theorem register (hfiles : files = done ++ file :: rest)
    (h : Alongside s₀' table a top done (file :: rest) π ds s s')
    (hparse : (SourceFile.parse path text).run a = (.ok file, b))
    (hrest : Numbered b top (rest.flatMap SourceFile.items)) : ∃ σ ρ ds' s₁,
      (SourceFile.parse path text).run s.shop.nextId = (.ok (file.renumber σ), s₁.shop.nextId) ∧
      (file.renumber σ).renumber ρ = file ∧
      (Session.register [file.renumber σ]).run.run (s.withNext s₁.shop.nextId) = (.ok (), s₁) ∧
      Alongside s₀' table b top (done ++ [file]) rest ρ ds' s₁ s' := by
  have hnumbered := (SourceFile.parse_numbered hparse).1
  obtain ⟨σ, hparse', hback⟩ := SourceFile.exists_parse_at hparse s.shop.nextId
  have hnumbered' := (SourceFile.parse_numbered hparse').1
  have hsame := hback (extend π s.shop.nextId s.shop.nextId a) fun i _ => by
    rw [extend, if_neg (Nat.not_lt.mpr (Nat.le_add_right _ i))]
    omega
  obtain ⟨used, rfl⟩ := Nat.exists_eq_add_of_le hnumbered.le
  rw [Nat.add_sub_cancel_left] at hparse' hnumbered'
  obtain ⟨r, hcollect, hadds⟩ := h.exists_collect hwhole hfiles hnumbered'
  let s₁ : Session := { s.withNext (s.shop.nextId + used) with
    registry := r.bound [file.renumber σ] }
  have hpaired : Paired (extend π s.shop.nextId s.shop.nextId a) (s.shop.nextId + used)
      s'.shop.nextId (· ∉ deriveNames (rest.flatMap SourceFile.declared))
      (ds ++ (file.renumber σ).declared) s₁ s₀' :=
    h.paired.add hadds rfl rfl hnumbered' (Nat.le_trans hrest.le h.le)
      (fun i hi => (h.apart i hi).imp_right (Nat.le_trans hrest.le))
      (h.binding?_next hwhole hfiles hsame hadds hnumbered' hrest)
      (h.derive?_next hwhole hfiles hsame hadds)
  refine ⟨σ, _, _, s₁, hparse', hsame, run_register_of_collect hcollect, hpaired, fun i hi => ?_,
    h.le, hadds.follows, h.holds.mono (List.subset_append_left _ _), h.declared_next hsame,
    fun kind i d => h.meant_rest hnumbered, h.ready.mono ?_⟩
  · have hi : i < s.shop.nextId + used := hi
    have hold := h.apart i
    unfold extend
    split_ifs <;> omega
  · rw [List.flatMap_append]
    exact List.subset_append_left _ _

/-- A file that has been registered in both sessions compiles to the same in both. -/
theorem compile (hfiles : files = done ++ rest) (h : Alongside s₀' table a top done rest π ds s s')
    {m : Nat} (hparse : (SourceFile.parse path text).run m = (.ok file, b)) (hb : b ≤ s.shop.nextId)
    (hwithin : ∀ stmt ∈ file.statements,
      stmt.Within (· ∉ deriveNames (rest.flatMap SourceFile.declared))) :
    ((compileRegistered file).run.run s).1 =
        ((compileRegistered (file.renumber π)).run.run s').1 ∧
      ∃ π', Alongside s₀' table a top done rest π' ds ((compileRegistered file).run.run s).2
        ((compileRegistered (file.renumber π)).run.run s').2 := by
  have hdone : ∀ d ∈ ds, d.renumber π ∈ done.flatMap SourceFile.declared :=
    fun d hd => h.declared ▸ List.mem_map_of_mem hd
  have hblind : ∀ d ∈ ds, ∀ body, table.bodyOf d = .ok body → body.Blind := by
    intro d hd body hbody
    refine hwhole.blind (d.renumber π) ?_ body ((table.bodyOf_renumber π d).trans hbody)
    rw [hfiles, List.flatMap_append]
    exact List.mem_append_left _ (hdone d hd)
  have hkeeps : ∀ d ∈ ds, ∀ body, table.bodyOf d = .ok body →
      body.Keeps (· ∉ deriveNames (rest.flatMap SourceFile.declared)) := fun d hd body hbody =>
    (hwhole.behind done rest hfiles).keeps (d.renumber π) (hdone d hd) body
      ((table.bodyOf_renumber π d).trans hbody)
  obtain ⟨hanswer, hready, hready', used, hused, hused'⟩ := h.paired.compile hblind hkeeps hparse hb
    hwithin ⟨rfl, rfl, rfl, h.holds⟩ (Nat.le_refl _) (h.declared ▸ h.ready) (Nat.le_refl _)
  refine ⟨hanswer, extend π s.shop.nextId s.shop.nextId s'.shop.nextId, ?_, fun i hi => ?_, ?_,
    hready.registry ▸ h.follows, hready.hooks, ?_, h.meant, h.declared ▸ hready'⟩
  · rw [hused, hused']
    exact (h.paired.of_ready hready).grow used
  · rcases Nat.lt_or_ge i s.shop.nextId with hlt | hge
    · rw [extend_of_lt hlt]
      exact h.apart i hlt
    · exact .inr (Nat.le_trans h.le (le_extend hge))
  · rw [hused']
    exact Nat.le_add_right_of_le h.le
  · rw [← h.declared]
    exact List.map_congr_left fun d hd => h.paired.renumber_extend hd _ _

/-- The next file of a program compiles by itself to what it compiles to in the program. -/
theorem step (hfiles : files = done ++ file :: rest)
    (h : Alongside s₀' table a top done (file :: rest) π ds s s')
    (hparse : (SourceFile.parse path text).run a = (.ok file, b))
    (hrest : Numbered b top (rest.flatMap SourceFile.items)) {compiled : CompiledFile} {s₁' : Session}
    (hcompile : (compileRegistered file).run.run s' = (.ok compiled, s₁')) : ∃ s₁ π' ds',
      (compileSource path text).run.run s = (.ok compiled.text, s₁) ∧
      Alongside s₀' table b top (done ++ [file]) rest π' ds' s₁ s₁' := by
  obtain ⟨σ, ρ, ds', s₁, hparse', hsame, hregister, hnext⟩ := h.register hwhole hfiles hparse hrest
  have hwithin : ∀ stmt ∈ (file.renumber σ).statements,
      stmt.Within (· ∉ deriveNames (rest.flatMap SourceFile.declared)) := by
    refine List.forall_mem_map.mpr fun stmt hstmt => (stmt.within_renumber σ).mpr ?_
    exact (hwhole.behind_file hfiles).lists file (List.mem_append_right _ List.mem_cons_self) stmt
      hstmt
  obtain ⟨hanswer, π', hdone⟩ := hnext.compile hwhole
    (hfiles.trans (List.append_cons done file rest)) hparse' (Nat.le_refl _) hwithin
  rw [hsame, hcompile] at hanswer hdone
  generalize hout : (compileRegistered (file.renumber σ)).run.run s₁ = out at hanswer hdone
  obtain ⟨answer, s₂⟩ := out
  obtain rfl : answer = .ok compiled := hanswer
  refine ⟨s₂, π', ds', ?_, hdone⟩
  refine run_bind_eq_ok.mpr ⟨_, _, run_parse_eq_ok.mpr ⟨_, hparse', rfl⟩, ?_⟩
  refine run_bind_eq_ok.mpr ⟨(), s₁, hregister, ?_⟩
  exact run_bind_eq_ok.mpr ⟨compiled, s₂, hout, rfl⟩

/-- All the files that are left compile one by one to what they compile to in the program. -/
theorem run {inputs : List (SourcePath × String)} (hfiles : files = done ++ rest)
    (h : Alongside s₀' table a top done rest π ds s s') (hparses : Parses a inputs rest top)
    {out : List CompiledFile} {s₁' : Session}
    (hcompile : (rest.mapM compileRegistered).run.run s' = (.ok out, s₁')) : ∃ s₁,
      (inputs.mapM fun (path, text) => compileSource path text).run.run s =
        (.ok (out.map CompiledFile.text), s₁) := by
  induction hparses generalizing done π ds s s' out with
  | nil =>
    obtain ⟨hout, -⟩ := Prod.mk.inj hcompile
    obtain rfl := Except.ok.inj hout
    exact ⟨s, rfl⟩
  | @cons a b top path text file inputs rest head tail ih =>
    obtain ⟨compiled, s₂', more, hfile, hmore, rfl⟩ := run_mapM_cons_eq_ok.mp hcompile
    obtain ⟨s₂, π', ds', hsource, hnext⟩ := h.step hwhole hfiles head tail.numbered hfile
    obtain ⟨s₁, hsources⟩ := ih (hfiles.trans (List.append_cons done file rest)) hnext hmore
    exact ⟨s₁, run_mapM_cons_eq_ok.mpr ⟨_, s₂, _, hsource, hsources, rfl⟩⟩

end Alongside

end MacroEngine
