import MacroEngine.Binding
import MacroEngine.Metaprogram

/-!
# What the emitted program holds

Modules and declaration files are entered in one table of texts by path, file after file, and the last
text that is entered at a path stays. So a module is kept as it was printed just if no file after it has
its declaration file at the module's path.
-/

namespace MacroEngine

section Order

/-- Components are ordered by kind, and named ones by their name. -/
theorem PathComponent.lt_iff {a b : PathComponent} : a.lt b ↔
    a.rank < b.rank ∨ ∃ x y, a = .normal x ∧ b = .normal y ∧ x < y := by
  cases a <;> cases b <;> simp [PathComponent.lt, PathComponent.rank]

theorem PathComponent.lt_trans {a b c : PathComponent} (hab : a.lt b) (hbc : b.lt c) : a.lt c := by
  rcases lt_iff.mp hab with hab | ⟨x, y, rfl, rfl, hxy⟩ <;>
    rcases lt_iff.mp hbc with hbc | ⟨y', z, hy, rfl, hyz⟩
  · exact lt_iff.mpr (.inl (Nat.lt_trans hab hbc))
  · rw [hy] at hab
    exact lt_iff.mpr (.inl hab)
  · exact lt_iff.mpr (.inl hbc)
  · obtain rfl := PathComponent.normal.inj hy
    exact lt_iff.mpr (.inr ⟨x, z, rfl, rfl, String.lt_trans hxy hyz⟩)

theorem PathComponent.lt_irrefl (a : PathComponent) : ¬a.lt a := by
  cases a <;> simp [PathComponent.lt, PathComponent.rank]

theorem PathComponent.lt_or_lt {a b : PathComponent} (h : a ≠ b) : a.lt b ∨ b.lt a := by
  rcases Nat.lt_trichotomy a.rank b.rank with hlt | heq | hgt
  · exact .inl (lt_iff.mpr (.inl hlt))
  · cases a <;> cases b
    case normal.normal x y =>
      by_cases hlt : x < y
      · exact .inl (lt_iff.mpr (.inr ⟨x, y, rfl, rfl, hlt⟩))
      · refine .inr (lt_iff.mpr (.inr ⟨y, x, rfl, rfl, ?_⟩))
        exact Decidable.byContradiction fun hgt =>
          h (congrArg _ (Std.Trichotomous.trichotomous x y hlt hgt))
    all_goals first
      | exact absurd rfl h
      | cases heq
  · exact .inr (lt_iff.mpr (.inl hgt))

theorem SourcePath.componentsLt_trans :
    ∀ {as bs cs : List PathComponent}, componentsLt as bs → componentsLt bs cs → componentsLt as cs
  | _, [], _, hab, _ => by simp [componentsLt] at hab
  | _, _ :: _, [], _, hbc => by simp [componentsLt] at hbc
  | [], _ :: _, _ :: _, _, _ => rfl
  | a :: as, b :: bs, c :: cs, hab, hbc => by
    by_cases hfirst : a = b
    · subst hfirst
      by_cases hsecond : a = c
      · subst hsecond
        simp only [componentsLt, if_true] at hab hbc ⊢
        exact componentsLt_trans hab hbc
      · simpa [componentsLt, hsecond] using hbc
    · simp only [componentsLt, hfirst, if_false] at hab
      by_cases hsecond : b = c
      · subst hsecond
        simpa [componentsLt, hfirst] using hab
      · simp only [componentsLt, hsecond, if_false] at hbc
        have hac := PathComponent.lt_trans hab hbc
        have hne : a ≠ c := fun heq => PathComponent.lt_irrefl c (heq ▸ hac)
        simpa [componentsLt, hne] using hac

theorem SourcePath.componentsLt_irrefl : ∀ as : List PathComponent, ¬componentsLt as as
  | [] => by simp [componentsLt]
  | a :: as => by simpa [componentsLt] using componentsLt_irrefl as

theorem SourcePath.componentsLt_or_componentsLt :
    ∀ {as bs : List PathComponent}, as ≠ bs → componentsLt as bs ∨ componentsLt bs as
  | [], [], h => absurd rfl h
  | [], _ :: _, _ => .inl rfl
  | _ :: _, [], _ => .inr rfl
  | a :: as, b :: bs, h => by
    by_cases hfirst : a = b
    · subst hfirst
      have hrest : as ≠ bs := fun heq => h (heq ▸ rfl)
      simpa [componentsLt] using componentsLt_or_componentsLt hrest
    · simpa [componentsLt, hfirst, Ne.symm hfirst] using PathComponent.lt_or_lt hfirst

end Order

namespace Emitted

variable {path path' : SourcePath} {text : String} {files : List (SourcePath × String)}

theorem get?_insertFile (path path' : SourcePath) (text : String)
    (files : List (SourcePath × String)) : Table.get? path' (insertFile path text files) =
      if path == path' then some text else Table.get? path' files := by
  induction files with
  | nil => simp [insertFile, Table.get?]
  | cons entry rest ih =>
    obtain ⟨p, t⟩ := entry
    by_cases hp : p == path
    · simp only [insertFile, Table.get?, hp, if_true, BEq.congr_left hp]
      split <;> rfl
    · by_cases hlt : path.lt p
      · simp [insertFile, Table.get?, hp, hlt]
      · by_cases hp' : p == path'
        · have hne : (path == path') = false :=
            Bool.eq_false_iff.mpr fun heq => hp (BEq.trans hp' (BEq.symm heq))
          simp [insertFile, Table.get?, hp, hlt, hp', hne]
        · simp [insertFile, Table.get?, hp, hlt, hp', ih]

theorem isSome_get? (path : SourcePath) (files : List (SourcePath × String)) :
    (Table.get? path files).isSome = files.any (·.1 == path) := by
  induction files with
  | nil => rfl
  | cons entry rest ih => cases hp : entry.1 == path <;> simp [Table.get?, hp, ih]

/-- Texts in the order of their paths. -/
def Sorted (files : List (SourcePath × String)) : Prop := files.Pairwise fun a b => a.1.lt b.1

theorem mem_insertFile {entry : SourcePath × String} (h : entry ∈ insertFile path text files) :
    entry = (path, text) ∨ ∃ t, (entry.1, t) ∈ files := by
  induction files with
  | nil => exact .inl (List.mem_singleton.mp h)
  | cons first rest ih =>
    obtain ⟨p, t⟩ := first
    rw [insertFile] at h
    split at h
    · rcases List.mem_cons.mp h with rfl | h
      · exact .inr ⟨t, List.mem_cons_self⟩
      · exact .inr ⟨entry.2, List.mem_cons_of_mem _ h⟩
    · split at h
      · exact (List.mem_cons.mp h).imp_right fun h => ⟨entry.2, h⟩
      · rcases List.mem_cons.mp h with rfl | h
        · exact .inr ⟨t, List.mem_cons_self⟩
        · exact (ih h).imp_right fun ⟨t', ht'⟩ => ⟨t', List.mem_cons_of_mem _ ht'⟩

theorem Sorted.insertFile (h : Sorted files) (path : SourcePath) (text : String) :
    Sorted (insertFile path text files) := by
  induction files with
  | nil => exact List.pairwise_singleton _ _
  | cons first rest ih =>
    obtain ⟨p, t⟩ := first
    obtain ⟨hfirst, hrest⟩ := List.pairwise_cons.mp h
    rw [Emitted.insertFile]
    split
    · exact List.pairwise_cons.mpr ⟨hfirst, hrest⟩
    · rename_i hp
      split
      · rename_i hlt
        refine List.pairwise_cons.mpr ⟨fun entry hentry => ?_, h⟩
        rcases List.mem_cons.mp hentry with rfl | hentry
        · exact hlt
        · exact SourcePath.componentsLt_trans hlt (hfirst entry hentry)
      · rename_i hlt
        have hafter : p.lt path := (SourcePath.componentsLt_or_componentsLt
          fun heq => hp (SourcePath.beq_iff.mpr heq)).resolve_right hlt
        refine List.pairwise_cons.mpr ⟨fun entry hentry => ?_, ih hrest⟩
        rcases mem_insertFile hentry with rfl | ⟨t', ht'⟩
        · exact hafter
        · exact hfirst (entry.1, t') ht'

/-- Texts in the order of their paths have different paths. -/
theorem Sorted.pairwise_ne (h : Sorted files) : files.Pairwise fun a b => ¬(a.1 == b.1) := by
  refine List.Pairwise.imp (fun {a b} hlt heq => ?_) h
  rw [SourcePath.lt, SourcePath.beq_iff.mp heq] at hlt
  exact SourcePath.componentsLt_irrefl b.1.components hlt

def insertFiles (writes files : List (SourcePath × String)) : List (SourcePath × String) :=
  writes.foldl (fun files entry => insertFile entry.1 entry.2 files) files

theorem Sorted.insertFiles (h : Sorted files) (writes : List (SourcePath × String)) :
    Sorted (insertFiles writes files) := by
  unfold Emitted.insertFiles
  induction writes generalizing files with
  | nil => exact h
  | cons entry rest ih => exact ih (h.insertFile entry.1 entry.2)

/-- The text that is last at a path. -/
def lastText? (path : SourcePath) (writes : List (SourcePath × String)) : Option String :=
  ((writes.filter (·.1 == path)).getLast?).map (·.2)

theorem lastText?_append (path : SourcePath) (first second : List (SourcePath × String)) :
    lastText? path (first ++ second) = (lastText? path second).or (lastText? path first) := by
  unfold lastText?
  rw [List.filter_append, List.getLast?_append]
  cases (second.filter (·.1 == path)).getLast? <;> rfl

theorem isSome_lastText? {path : SourcePath} {writes : List (SourcePath × String)} :
    (lastText? path writes).isSome ↔ ∃ entry ∈ writes, entry.1 == path := by
  rw [lastText?, Option.isSome_map, List.getLast?_isSome, List.ne_nil_iff_exists_cons]
  constructor
  · rintro ⟨entry, rest, heq⟩
    have hmem := List.mem_filter.mp (heq ▸ List.mem_cons_self)
    exact ⟨entry, hmem.1, hmem.2⟩
  · rintro ⟨entry, hentry, hpath⟩
    exact List.exists_cons_of_ne_nil (List.ne_nil_of_mem (List.mem_filter.mpr ⟨hentry, hpath⟩))

theorem get?_insertFiles (path : SourcePath) (writes files : List (SourcePath × String)) :
    Table.get? path (insertFiles writes files) =
      (lastText? path writes).or (Table.get? path files) := by
  unfold insertFiles
  induction writes generalizing files with
  | nil => rfl
  | cons entry rest ih =>
    have hlast : lastText? path (entry :: rest) =
        (lastText? path rest).or (if entry.1 == path then some entry.2 else none) := by
      rw [← List.singleton_append, lastText?_append]
      cases hpath : entry.1 == path <;> simp [lastText?, hpath]
    rw [List.foldl_cons, ih, get?_insertFile, hlast]
    cases entry.1 == path <;> simp

end Emitted

namespace SourceFile

def moduleText (file : SourceFile) : String := file.withoutAuthoring.print

def declarationText (file : SourceFile) : String := file.withoutAuthoring.signatures.print

/-- The texts of a file, in the order in which they are entered. -/
def writes (options : EmitOptions) (file : SourceFile) : List (SourcePath × String) :=
  (if options.declarations then [(file.path.declarationPath, file.declarationText)] else []) ++
    [(file.path, file.moduleText)]

def declaresAt (options : EmitOptions) (path : SourcePath) (file : SourceFile) : Bool :=
  options.declarations && file.path.declarationPath == path

theorem lastText?_writes_self (options : EmitOptions) (file : SourceFile) :
    Emitted.lastText? file.path (file.writes options) = some file.moduleText := by
  simp [writes, Emitted.lastText?, List.filter_append]

theorem lastText?_writes {options : EmitOptions} {path : SourcePath} {file : SourceFile}
    (h : ¬(file.path == path)) : Emitted.lastText? path (file.writes options) =
      if file.declaresAt options path then some file.declarationText else none := by
  cases hon : options.declarations <;> cases hat : file.path.declarationPath == path <;>
    simp [writes, declaresAt, Emitted.lastText?, hon, hat, h]

theorem mem_writes {options : EmitOptions} {path : SourcePath} {file : SourceFile} :
    (∃ entry ∈ file.writes options, (entry.1 == path) = true) ↔
      file.path == path ∨ file.declaresAt options path := by
  cases hon : options.declarations <;> simp [writes, declaresAt, hon, or_comm]

end SourceFile

namespace Emitter

variable {options : EmitOptions} {files earlier later : List SourceFile} {f : SourceFile}
  {path : SourcePath}

theorem files_printFile (options : EmitOptions) (out : Emitted) (file : SourceFile) :
    (printFile options out file).files = Emitted.insertFiles (file.writes options) out.files := by
  unfold printFile SourceFile.writes Emitted.insertFiles
  cases options.declarations <;> rfl

theorem files_printing (options : EmitOptions) (files : List SourceFile) :
    (printing files options).files = Emitted.insertFiles (files.flatMap (·.writes options)) [] := by
  have hstart : ∀ out : Emitted, (files.foldl (printFile options) out).files =
      Emitted.insertFiles (files.flatMap (·.writes options)) out.files := by
    induction files with
    | nil => exact fun out => rfl
    | cons file rest ih =>
      intro out
      rw [List.foldl_cons, ih, files_printFile, List.flatMap_cons, Emitted.insertFiles,
        Emitted.insertFiles, Emitted.insertFiles, List.foldl_append]
  exact hstart .empty

theorem sorted_printing (options : EmitOptions) (files : List SourceFile) :
    Emitted.Sorted (printing files options).files := by
  rw [files_printing]
  exact Emitted.Sorted.insertFiles List.Pairwise.nil _

/-- The paths at which a text stands. -/
theorem isSome_get?_printing (options : EmitOptions) (files : List SourceFile) (path : SourcePath) :
    (Table.get? path (printing files options).files).isSome ↔
      ∃ f ∈ files, f.path == path ∨ f.declaresAt options path := by
  rw [files_printing, Emitted.get?_insertFiles, Table.get?_nil, Option.or_none,
    Emitted.isSome_lastText?]
  simp only [List.mem_flatMap, ← SourceFile.mem_writes]
  exact ⟨fun ⟨entry, ⟨f, hf, hentry⟩, hpath⟩ => ⟨f, hf, entry, hentry, hpath⟩,
    fun ⟨f, hf, entry, hentry, hpath⟩ => ⟨entry, ⟨f, hf, hentry⟩, hpath⟩⟩

/-- What files elsewhere write last at a path is the last declaration file that one of them has
there. -/
theorem lastText?_flatMap_writes (h : ∀ g ∈ files, ¬(g.path == path)) :
    Emitted.lastText? path (files.flatMap (·.writes options)) =
      (files.filter (·.declaresAt options path)).getLast?.map SourceFile.declarationText := by
  induction files with
  | nil => rfl
  | cons g rest ih =>
    obtain ⟨hfirst, hrest⟩ := List.forall_mem_cons.mp h
    rw [List.flatMap_cons, Emitted.lastText?_append, ih hrest, SourceFile.lastText?_writes hfirst]
    cases hg : g.declaresAt options path
    · simp [hg]
    · cases hlast : (rest.filter (·.declaresAt options path)).getLast? <;>
        simp [hg, List.getLast?_cons, hlast]

/-- At the path of a file stands the last declaration file that a later file has there, or else its
module. -/
theorem get?_printing (h : ∀ g ∈ later, ¬(g.path == f.path)) :
    Table.get? f.path (printing (earlier ++ f :: later) options).files =
      some (((later.filter (·.declaresAt options f.path)).getLast?.map
        SourceFile.declarationText).getD f.moduleText) := by
  rw [files_printing, Emitted.get?_insertFiles, List.flatMap_append, List.flatMap_cons,
    Emitted.lastText?_append, Emitted.lastText?_append, lastText?_flatMap_writes h,
    SourceFile.lastText?_writes_self]
  cases (later.filter (·.declaresAt options f.path)).getLast? <;> rfl

end Emitter

def Registry.compileTime (r : Registry) (files : List SourceFile) : List SourceFile :=
  files.filter fun file => r.metaprogram.any (· == file.path)

/-- Emitting the compile-time files by printing them never fails, and the texts stand at the paths of
those files and, if asked for, of their declaration files. At the path of a file stands its module,
unless a later file has its declaration file there. -/
theorem emitModules_printing {files : List SourceFile}
    (hpaths : files.Pairwise fun f g => ¬(f.path == g.path)) (r : Registry) (options : EmitOptions) :
    ∃ warnings out, emitModules .printing files r options = (warnings, .ok out) ∧
      (out.files.Pairwise fun a b => ¬(a.1 == b.1)) ∧
      (∀ path, (Table.get? path out.files).isSome ↔ ∃ f ∈ r.compileTime files,
        f.path == path ∨ options.declarations ∧ f.path.declarationPath == path) ∧
      ∀ earlier f later, r.compileTime files = earlier ++ f :: later →
        Table.get? f.path out.files = some (((later.filter fun g =>
          options.declarations && g.path.declarationPath == f.path).getLast?.map
            SourceFile.declarationText).getD f.moduleText) := by
  have hkeys := Emitter.isSome_get?_printing options (r.compileTime files)
  have hcomplete : (r.compileTime files).find? (fun file =>
      !(Emitter.printing (r.compileTime files) options).files.any (·.1 == file.path)) = none := by
    refine List.find?_eq_none.mpr fun f hf => ?_
    have hsome := (hkeys f.path).mpr ⟨f, hf, .inl BEq.rfl⟩
    rw [Emitted.isSome_get?] at hsome
    rw [hsome]
    exact Bool.false_ne_true
  obtain ⟨warnings, hran⟩ : ∃ warnings, emitModules .printing files r options =
      (warnings, .ok (Emitter.printing (r.compileTime files) options)) := by
    unfold emitModules
    rw [Registry.compileTime] at hcomplete
    simp only [hcomplete, Registry.compileTime]
    exact ⟨_, rfl⟩
  refine ⟨warnings, _, hran, (Emitter.sorted_printing options _).pairwise_ne, fun path => ?_, ?_⟩
  · rw [hkeys path]
    simp only [SourceFile.declaresAt, Bool.and_eq_true]
  · intro earlier f later hsplit
    have hdistinct : (earlier ++ f :: later).Pairwise fun f g => ¬(f.path == g.path) :=
      hsplit ▸ hpaths.filter _
    have hlater : ∀ g ∈ later, ¬(g.path == f.path) := fun g hg heq =>
      (List.pairwise_cons.mp (List.pairwise_append.mp hdistinct).2.1).1 g hg (BEq.symm heq)
    rw [hsplit]
    exact Emitter.get?_printing hlater

/-- A module whose name is the one of the declaration file of `m.kn`. -/
def dottedFile : SourceFile where
  id := 0
  path := ⟨"m.d.kn"⟩
  statements := [.function ⟨1, ⟨0, 23⟩⟩ ⟨some "one", [], false, some .function, .internal⟩
    ⟨⟨2, ⟨21, 23⟩⟩, []⟩]
  span := ⟨0, 23⟩

def plainFile : SourceFile where
  id := 3
  path := ⟨"m.kn"⟩
  statements := [.function ⟨4, ⟨0, 38⟩⟩ ⟨some "two", [], false, some .function, .named⟩
    ⟨⟨5, ⟨28, 38⟩⟩, [.expr ⟨6, ⟨30, 35⟩⟩ (.call ⟨7, ⟨30, 34⟩⟩ (.ident ⟨8, ⟨30, 32⟩⟩ "go") [])]⟩]
  span := ⟨0, 38⟩

def bothCollected : Registry := Registry.empty.declareAll
  ((dottedFile.findings ++ plainFile.findings).filterMap Finding.declaration?)

theorem compileTime_both :
    bothCollected.compileTime [dottedFile, plainFile] = [dottedFile, plainFile] :=
  List.filter_eq_self.mpr (by decide +kernel)

theorem pairwise_both : [dottedFile, plainFile].Pairwise fun f g => ¬(f.path == g.path) := by
  decide +kernel

/-- With declaration files, the module of the first file gives way to the declaration file of the
second. -/
theorem emitModules_printing_both :
    Registry.empty.collect dottedFile >>= (·.collect plainFile) = .ok bothCollected ∧
    ([dottedFile, plainFile].Pairwise fun f g => ¬(f.path == g.path)) ∧
    dottedFile.moduleText = "macro function one() \x7b\x7d\n" ∧
    ∃ warnings out, emitModules .printing [dottedFile, plainFile] bothCollected ⟨true, true⟩ =
      (warnings, .ok out) ∧
        Table.get? dottedFile.path out.files = some "export macro function two() \x7b\x7d\n" := by
  obtain ⟨warnings, out, hrun, -, -, htexts⟩ :=
    emitModules_printing pairwise_both bothCollected ⟨true, true⟩
  refine ⟨rfl, pairwise_both, by decide +kernel, warnings, out, hrun, ?_⟩
  rw [htexts [] dottedFile [plainFile] compileTime_both]
  decide +kernel

/-- So it is not true that every module is kept. -/
theorem not_emitModules_keeps : ¬∀ (files : List SourceFile),
    (files.Pairwise fun f g => ¬(f.path == g.path)) → ∀ (r : Registry) (options : EmitOptions),
      ∃ warnings out, emitModules .printing files r options = (warnings, .ok out) ∧
        (∀ f ∈ r.compileTime files, Table.get? f.path out.files = some f.moduleText) ∧
        ∀ path, (Table.get? path out.files).isSome → ∃ f ∈ r.compileTime files,
          f.path == path ∨ options.declarations ∧ f.path.declarationPath == path := by
  intro hkeeps
  obtain ⟨warnings, out, hrun, htexts, -⟩ :=
    hkeeps [dottedFile, plainFile] pairwise_both bothCollected ⟨true, true⟩
  have hkept := htexts dottedFile (compileTime_both ▸ List.mem_cons_self)
  have hlost : (match (emitModules .printing [dottedFile, plainFile] bothCollected ⟨true, true⟩).2 with
    | .ok out => Table.get? dottedFile.path out.files == some dottedFile.moduleText
    | .error _ => true) = false := by decide +kernel
  rw [hrun] at hlost
  exact ne_of_beq_false hlost hkept

end MacroEngine
