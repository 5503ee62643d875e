import MacroEngine.Proofs.Order.Bound
import MacroEngine.Proofs.Registry.Closure

/-!
# The files that matter at compile time

The compile-time files are found by a work list, and which of them is taken next depends on the order
of the files. What is found in the end does not: the work list is long enough to run until nothing is
pending, and then the files found are those that declare a macro or are imported, over any number of
files, by one that does.
-/

namespace MacroEngine

open Registry

/-- The files that declare a macro, and those that one of these imports, directly or not. -/
inductive Wanted (files : List SourceFile) : SourceFile → Prop
  | declares {file : SourceFile} (hfile : file ∈ files) (h : file.declared ≠ []) : Wanted files file
  | imports {file other : SourceFile} (h : Wanted files file)
    (hother : other ∈ importedFiles files file) : Wanted files other

theorem Wanted.mem {files : List SourceFile} {file : SourceFile} (h : Wanted files file) :
    file ∈ files := by
  cases h with
  | declares hfile => exact hfile
  | imports _ hother => exact (mem_importedFiles.mp hother).1

namespace Reordered

variable {π : Nat → Nat} {files files' : List SourceFile} (h : Reordered π files files')

include h

theorem mem_iff {file' : SourceFile} : file' ∈ files' ↔ ∃ file ∈ files, file.renumber π = file' := by
  rw [h.perm.mem_iff, List.mem_map]

theorem wanted {file : SourceFile} (hwanted : Wanted files file) :
    Wanted files' (file.renumber π) := by
  induction hwanted with
  | declares hfile hdeclared =>
    refine .declares (h.mem_iff.mpr ⟨_, hfile, rfl⟩) fun hnone => hdeclared ?_
    rwa [SourceFile.declared_renumber, List.map_eq_nil_iff] at hnone
  | @imports file other _ hother ih =>
    obtain ⟨hmem, hkey⟩ := mem_importedFiles.mp hother
    refine ih.imports (mem_importedFiles.mpr ⟨h.mem_iff.mpr ⟨_, hmem, rfl⟩, ?_⟩)
    rwa [SourceFile.relativeImports_renumber]

theorem exists_wanted {file' : SourceFile} (hwanted : Wanted files' file') :
    ∃ file, Wanted files file ∧ file.renumber π = file' := by
  induction hwanted with
  | declares hfile hdeclared =>
    obtain ⟨file, hmem, rfl⟩ := h.mem_iff.mp hfile
    refine ⟨file, .declares hmem fun hnone => hdeclared ?_, rfl⟩
    rw [SourceFile.declared_renumber, hnone, List.map_nil]
  | imports _ hother ih =>
    obtain ⟨file, hfile, rfl⟩ := ih
    obtain ⟨hmem, hkey⟩ := mem_importedFiles.mp hother
    obtain ⟨other, hin, rfl⟩ := h.mem_iff.mp hmem
    rw [SourceFile.relativeImports_renumber] at hkey
    exact ⟨other, hfile.imports (mem_importedFiles.mpr ⟨hin, hkey⟩), rfl⟩

end Reordered

namespace Registry

variable {files : List SourceFile} {r : Registry}

/-- The compile-time files of a program are those that are wanted. -/
theorem Lists.mem_metaprogram (hkeys : (files.map (·.path.moduleKey)).Nodup)
    (h : r.Lists (files.flatMap SourceFile.declared)) {path : SourcePath} :
    path ∈ (r.collectDependencies files).2.metaprogram ↔
      ∃ file, Wanted files file ∧ file.path = path := by
  have hpaths : (files.map (·.path.components)).Nodup :=
    List.Nodup.of_map SourcePath.keyOf (by rwa [List.map_map])
  have hend := collectDependencies_pursued hpaths r
  have hsame : ∀ {file other : SourceFile}, file ∈ files → other ∈ files →
      file.path.components = other.path.components → file = other := fun hfile hother heq =>
    List.inj_on_of_nodup_map hpaths hfile hother heq
  have hwanted : ∀ path ∈ r.metaprogram, ∃ file, Wanted files file ∧ file.path = path := by
    intro path hpath
    obtain ⟨d, hd, hfile⟩ := h.files path hpath
    obtain ⟨file, hmem, hd⟩ := List.mem_flatMap.mp hd
    exact ⟨file, .declares hmem (List.ne_nil_of_mem hd), (file.made.file d hd).symm.trans hfile⟩
  constructor
  · have hclosed : {components | ∃ file, Wanted files file ∧ file.path.components = components} ∈
        ImportClosed files := by
      rintro file hfile ⟨f, hf, heq⟩ other hother himports
      obtain rfl := hsame hf.mem hfile heq
      exact ⟨other, hf.imports (mem_importedFiles.mpr ⟨hother, SourceFile.imports_iff.mp himports⟩),
        rfl⟩
    have hneeded := hend.needed _ hclosed fun _ ⟨path, hpath, heq⟩ => by
      obtain ⟨file, hfile, rfl⟩ := hwanted path hpath
      exact ⟨file, hfile, heq⟩
    intro hpath
    rcases (hend.members path).mp hpath with hold | ⟨file, hfile, rfl, hin, -⟩
    · exact hwanted path hold
    · obtain ⟨f, hf, heq⟩ := hneeded hin
      obtain rfl := hsame hf.mem hfile heq
      exact ⟨f, hf, rfl⟩
  · rintro ⟨file, hfile, rfl⟩
    have hknown : file.path.components ∈ (r.collectDependencies files).2.metaprogramSet := by
      induction hfile with
      | @declares file hmem hdeclared =>
        obtain ⟨d, hd⟩ := List.exists_mem_of_ne_nil _ hdeclared
        have hin : d ∈ r.declarations := h.follows.live ▸ List.mem_flatMap.mpr ⟨file, hmem, hd⟩
        have hmatters := matters_iff.mp (h.follows.consistent.metaprogram d hin)
        exact hend.isLeast.1.1 (file.made.file d hd ▸ hmatters)
      | imports hfile hother ih =>
        obtain ⟨hmem, hkey⟩ := mem_importedFiles.mp hother
        exact hend.isLeast.1.2 _ hfile.mem ih _ hmem (SourceFile.imports_iff.mpr hkey)
    obtain ⟨p, hp, heq⟩ := hknown
    have hspelled : ∃ f ∈ files, f.path = p := by
      rcases (hend.members p).mp hp with hold | ⟨f, hf, rfl, -⟩
      · obtain ⟨f, hf, rfl⟩ := hwanted p hold
        exact ⟨f, hf.mem, rfl⟩
      · exact ⟨f, hf, rfl⟩
    obtain ⟨f, hf, rfl⟩ := hspelled
    obtain rfl := hsame hf hfile.mem heq
    exact hp

end Registry

/-- The compile-time files are the same in whatever order files are registered. -/
theorem Reordered.mem_metaprogram {π : Nat → Nat} {files files' : List SourceFile}
    (h : Reordered π files files') {r r' : Registry}
    (hr : r.Lists (files.flatMap SourceFile.declared))
    (hr' : r'.Lists (files'.flatMap SourceFile.declared)) {path : SourcePath} :
    path ∈ (r'.collectDependencies files').2.metaprogram ↔
      path ∈ (r.collectDependencies files).2.metaprogram := by
  rw [hr.mem_metaprogram h.keys, hr'.mem_metaprogram h.keys']
  constructor
  · rintro ⟨_, hwanted', rfl⟩
    obtain ⟨file, hwanted, rfl⟩ := h.exists_wanted hwanted'
    exact ⟨file, hwanted, rfl⟩
  · rintro ⟨file, hwanted, rfl⟩
    exact ⟨file.renumber π, h.wanted hwanted, rfl⟩

end MacroEngine
