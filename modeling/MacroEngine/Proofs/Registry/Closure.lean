import Mathlib.Data.List.Sort
import Mathlib.Data.Set.Card
import Mathlib.Logic.Relation
import Mathlib.Order.Bounds.Basic
import MacroEngine.Proofs.Emission
import MacroEngine.Proofs.Registry.Consistency

/-!
# The files that compile-time files import

The compile-time files are found by a work list. It is followed round by round until nothing is
pending, and in each round the files that the path on top imports are entered. The files found in the
end are the fewest that hold those known before and, with each file, the files that it imports. What
carries the proof is that a file which is known is pending, or its imports are known too; the path
that a round takes counts as pending until its imports have been entered.
-/

namespace MacroEngine

open Registry

section Imports

variable {files : List SourceFile} {file other : SourceFile}

/-- A relative import of a file names the module of the other file. -/
def SourceFile.Imports (file other : SourceFile) : Prop :=
  ∃ stamp names specifier, Stmt.importNames stamp names specifier ∈ file.statements ∧
    isRelative specifier = true ∧ file.path.importKey specifier = other.path.moduleKey

theorem mem_importedFiles : other ∈ importedFiles files file ↔
    other ∈ files ∧ other.path.moduleKey ∈ file.relativeImports.map (·.1) := by
  simp only [importedFiles, List.mem_flatMap, List.mem_filter, List.mem_map, decide_eq_true_eq]
  constructor
  · rintro ⟨entry, hentry, hother, hkey⟩
    exact ⟨hother, entry, hentry, hkey.symm⟩
  · rintro ⟨hother, entry, hentry, hkey⟩
    exact ⟨entry, hentry, hother, hkey.symm⟩

theorem SourceFile.imports_iff :
    file.Imports other ↔ other.path.moduleKey ∈ file.relativeImports.map (·.1) := by
  simp only [relativeImports, List.mem_map, List.mem_filterMap]
  constructor
  · rintro ⟨stamp, names, specifier, hstmt, hrelative, hkey⟩
    exact ⟨(_, names), ⟨_, hstmt, if_pos hrelative⟩, hkey⟩
  · rintro ⟨entry, ⟨stmt, hstmt, hentry⟩, hkey⟩
    cases stmt
    case importNames stamp names specifier =>
      obtain ⟨hrelative, hentry⟩ := Option.ite_none_right_eq_some.mp hentry
      obtain rfl := Option.some.inj hentry
      exact ⟨stamp, names, specifier, hstmt, hrelative, hkey⟩
    all_goals cases hentry

/-- Sets of paths that hold, with each file of a list, the files of the list that it imports. A path
stands there as its components, which different spellings of it share. -/
def ImportClosed (files : List SourceFile) : Set (Set (List PathComponent)) :=
  {S | ∀ file ∈ files, file.path.components ∈ S →
    ∀ other ∈ files, file.Imports other → other.path.components ∈ S}

end Imports

section Paths

variable {path p : SourcePath} {paths : List SourcePath}

theorem insertPath_perm (h : paths.any (· == path) = false) :
    (insertPath path paths).Perm (path :: paths) := by
  induction paths with
  | nil => exact .refl _
  | cons q rest ih =>
    obtain ⟨hq, hrest⟩ := Bool.or_eq_false_iff.mp h
    rw [insertPath, if_neg (Bool.eq_false_iff.mp hq)]
    split
    · exact .refl _
    · exact ((ih hrest).cons q).trans (.swap path q rest)

theorem pairwise_insertPath (h : paths.Pairwise fun p q => p.lt q) (path : SourcePath) :
    (insertPath path paths).Pairwise fun p q => p.lt q := by
  induction paths with
  | nil => exact List.pairwise_singleton _ _
  | cons q rest ih =>
    obtain ⟨hq, hrest⟩ := List.pairwise_cons.mp h
    rw [insertPath]
    split
    · exact h
    · rename_i hne
      split
      · rename_i hlt
        refine List.pairwise_cons.mpr ⟨fun p hp => ?_, h⟩
        rcases List.mem_cons.mp hp with rfl | hp
        · exact hlt
        · exact SourcePath.componentsLt_trans hlt (hq p hp)
      · rename_i hlt
        have hafter : q.lt path := (SourcePath.componentsLt_or_componentsLt
          fun heq => hne (SourcePath.beq_iff.mpr heq)).resolve_right hlt
        refine List.pairwise_cons.mpr ⟨fun p hp => ?_, ih hrest⟩
        rcases mem_insertPath hp with rfl | hp
        · exact hafter
        · exact hq p hp

end Paths

namespace Registry

/-- The compile-time files, as components of paths. -/
def metaprogramSet (r : Registry) : Set (List PathComponent) :=
  {components | ∃ path ∈ r.metaprogram, path.components = components}

/-- The compile-time files stand in the order of their paths. -/
def Sorted (r : Registry) : Prop := r.metaprogram.Pairwise fun p q => p.lt q

def matters (r : Registry) (path : SourcePath) : Bool := r.metaprogram.any (· == path)

def missing (r : Registry) (files : List SourceFile) : Nat :=
  files.countP fun file => !r.matters file.path

/-- One round of the work list, on the registry, the pending paths and the number of paths added: it
takes the path on top. -/
inductive Round (files : List SourceFile) :
    Registry × List SourcePath × Nat → Registry × List SourcePath × Nat → Prop
  /-- None of the files has the path. -/
  | absent {r : Registry} {path : SourcePath} {pending : List SourcePath} {added : Nat}
    (h : files.find? (·.path == path) = none) :
    Round files (r, path :: pending, added) (r, pending, added)
  /-- The first file with the path has its imports entered. -/
  | enters {r : Registry} {path : SourcePath} {pending : List SourcePath} {added : Nat}
    {file : SourceFile} (h : files.find? (·.path == path) = some file) :
    Round files (r, path :: pending, added) (r.addFiles pending added (importedFiles files file))

variable {files more : List SourceFile} {file : SourceFile} {r start : Registry}
  {pending pending' : List SourcePath} {added : Nat} {path : SourcePath}

section Entering

theorem matters_iff : r.matters path = true ↔ path.components ∈ r.metaprogramSet := by
  rw [matters, List.any_eq_true]
  exact exists_congr fun p => and_congr_right fun _ => SourcePath.beq_iff

theorem not_matters_iff : r.matters path = false ↔ path.components ∉ r.metaprogramSet := by
  rw [← matters_iff, Bool.not_eq_true]

theorem finite_metaprogramSet (r : Registry) : r.metaprogramSet.Finite :=
  r.metaprogram.finite_toSet.image SourcePath.components

theorem addMetaprogramFile_known (h : r.matters path = true) :
    r.addMetaprogramFile path = (false, r) := if_pos h

theorem addMetaprogramFile_new (h : r.matters path = false) :
    r.addMetaprogramFile path = (true, { r with metaprogram := insertPath path r.metaprogram }) :=
  if_neg (Bool.eq_false_iff.mp h)

theorem metaprogramSet_insertPath (r : Registry) (path : SourcePath) :
    ({ r with metaprogram := insertPath path r.metaprogram } : Registry).metaprogramSet =
      insert path.components r.metaprogramSet := by
  have hmatters : ∀ p : SourcePath, p.components ∈
      ({ r with metaprogram := insertPath path r.metaprogram } : Registry).metaprogramSet ↔
        p.components ∈ insert path.components r.metaprogramSet := by
    intro p
    rw [← matters_iff, matters, any_insertPath, Bool.or_eq_true, SourcePath.beq_iff,
      Set.mem_insert_iff, ← matters_iff, matters, eq_comm]
  apply Set.Subset.antisymm
  · rintro _ ⟨p, hp, rfl⟩
    exact (hmatters p).mp ⟨p, hp, rfl⟩
  · rintro _ (rfl | ⟨p, hp, rfl⟩)
    · exact (hmatters path).mpr (Set.mem_insert _ _)
    · exact (hmatters p).mpr (Set.mem_insert_of_mem _ ⟨p, hp, rfl⟩)

/-- A file that is found to matter is no longer missing. -/
theorem missing_insert (hfile : file ∈ files) (h : r.matters file.path = false) :
    ({ r with metaprogram := insertPath file.path r.metaprogram } : Registry).missing files + 1 ≤
      r.missing files := by
  have hmissing : ∀ f ∈ files, (!({ r with metaprogram := insertPath file.path r.metaprogram } :
      Registry).matters f.path) = (!(file.path == f.path) && !r.matters f.path) := fun f _ => by
    rw [matters, any_insertPath, Bool.not_or]
    rfl
  have hself : file ∈ files.filter fun f => !r.matters f.path :=
    List.mem_filter.mpr ⟨hfile, by rw [h]; rfl⟩
  unfold missing
  rw [List.countP_congr fun f hf => by rw [hmissing f hf], List.countP_eq_length_filter,
    List.countP_eq_length_filter, ← List.filter_filter]
  exact List.length_filter_lt_length_iff_exists.mpr ⟨file, hself, by simp⟩

end Entering

/-- The state of the work list between rounds, when it began at a registry. -/
structure Pursued (files : List SourceFile) (start : Registry)
    (s : Registry × List SourcePath × Nat) : Prop where
  /-- Nothing but the compile-time files has changed. -/
  others : { s.1 with metaprogram := start.metaprogram } = start
  /-- What was known stays, under its spelling; what is new is a file of the list. -/
  members : ∀ path, path ∈ s.1.metaprogram ↔ path ∈ start.metaprogram ∨
    ∃ file ∈ files, file.path = path ∧ path.components ∈ s.1.metaprogramSet \ start.metaprogramSet
  sorted : start.Sorted → s.1.Sorted
  counted : s.2.2 = (s.1.metaprogramSet \ start.metaprogramSet).ncard
  idle : s.2.2 = 0 → s.1 = start
  /-- What is known is in every set in which it could end. -/
  needed : ∀ S ∈ ImportClosed files, start.metaprogramSet ⊆ S → s.1.metaprogramSet ⊆ S
  pending : ∀ path ∈ s.2.1, path.components ∈ s.1.metaprogramSet
  /-- A file that is known is pending, or what it imports is known. -/
  closed : ∀ file ∈ files, file.path.components ∈ s.1.metaprogramSet →
    (∃ path ∈ s.2.1, path.components = file.path.components) ∨
      ∀ other ∈ files, file.Imports other → other.path.components ∈ s.1.metaprogramSet

theorem Pursued.begin (files : List SourceFile) (start : Registry) :
    Pursued files start (start, start.metaprogram.reverse, 0) where
  others := rfl
  members path := by simp
  sorted h := h
  counted := by simp
  idle _ := rfl
  needed _ _ h := h
  pending path hpath := ⟨path, List.mem_reverse.mp hpath, rfl⟩
  closed file _ hknown := by
    obtain ⟨path, hpath, hsame⟩ := hknown
    exact .inl ⟨path, List.mem_reverse.mpr hpath, hsame⟩

/-- A path need no longer be pending once what the files at it import is known. -/
theorem Pursued.of_pending (h : Pursued files start (r, pending, added)) (hsub : pending' ⊆ pending)
    (hdone : ∀ path ∈ pending, path ∉ pending' →
      ∀ file ∈ files, path.components = file.path.components →
        ∀ other ∈ files, file.Imports other → other.path.components ∈ r.metaprogramSet) :
    Pursued files start (r, pending', added) where
  others := h.others
  members := h.members
  sorted := h.sorted
  counted := h.counted
  idle := h.idle
  needed := h.needed
  pending path hpath := h.pending path (hsub hpath)
  closed file hfile hknown := by
    rcases h.closed file hfile hknown with ⟨path, hpath, hsame⟩ | himports
    · by_cases hstays : path ∈ pending'
      · exact .inl ⟨path, hstays, hsame⟩
      · exact .inr (hdone path hpath hstays file hfile hsame)
    · exact .inr himports

theorem Pursued.enter (hpaths : (files.map (·.path.components)).Nodup)
    (h : Pursued files start (r, pending, added)) (hfile : file ∈ files)
    (hnew : r.matters file.path = false)
    (hneeded : ∀ S ∈ ImportClosed files, start.metaprogramSet ⊆ S → file.path.components ∈ S) :
    Pursued files start ({ r with metaprogram := insertPath file.path r.metaprogram },
      file.path :: pending, added + 1) := by
  have hset := metaprogramSet_insertPath r file.path
  have hgrows : start.metaprogramSet ⊆ r.metaprogramSet := by
    rintro _ ⟨path, hpath, rfl⟩
    exact ⟨path, (h.members path).mpr (.inl hpath), rfl⟩
  have hout := not_matters_iff.mp hnew
  have hfresh : file.path.components ∉ start.metaprogramSet := fun hin => hout (hgrows hin)
  constructor
  case others => exact h.others
  case members =>
    intro path
    have hold := h.members path
    simp only [hset] at hold ⊢
    rw [(insertPath_perm hnew).mem_iff, List.mem_cons, hold]
    constructor
    · rintro (rfl | hpath | ⟨f, hf, rfl, hin, hnot⟩)
      · exact .inr ⟨file, hfile, rfl, Set.mem_insert _ _, hfresh⟩
      · exact .inl hpath
      · exact .inr ⟨f, hf, rfl, Set.mem_insert_of_mem _ hin, hnot⟩
    · rintro (hpath | ⟨f, hf, rfl, hsame | hin, hnot⟩)
      · exact .inr (.inl hpath)
      · exact .inl (congrArg _ (List.inj_on_of_nodup_map hpaths hf hfile hsame))
      · exact .inr (.inr ⟨f, hf, rfl, hin, hnot⟩)
  case sorted => exact fun hsorted => pairwise_insertPath (h.sorted hsorted) file.path
  case counted =>
    rw [hset, Set.insert_sdiff_of_notMem _ hfresh, Set.ncard_insert_of_notMem
      (fun hin => hout hin.1) (r.finite_metaprogramSet.sdiff), ← h.counted]
  case idle => exact fun hzero => absurd hzero (Nat.succ_ne_zero _)
  case needed =>
    intro S hS hstart
    rw [hset]
    exact Set.insert_subset (hneeded S hS hstart) (h.needed S hS hstart)
  case pending =>
    intro path hpath
    rw [hset]
    rcases List.mem_cons.mp hpath with rfl | hpath
    · exact Set.mem_insert _ _
    · exact Set.mem_insert_of_mem _ (h.pending path hpath)
  case closed =>
    intro f hf hknown
    simp only [hset] at hknown ⊢
    rcases hknown with hsame | hknown
    · exact .inl ⟨file.path, List.mem_cons_self, hsame.symm⟩
    · refine (h.closed f hf hknown).imp ?_ fun hall other hother himports =>
        Set.mem_insert_of_mem _ (hall other hother himports)
      rintro ⟨path, hpath, hsame⟩
      exact ⟨path, List.mem_cons_of_mem _ hpath, hsame⟩

/-- Entering files that are needed keeps the state, while the path that imports them is taken. -/
theorem Pursued.addFiles (hpaths : (files.map (·.path.components)).Nodup)
    (h : Pursued files start (r, path :: pending, added)) (hmore : more ⊆ files)
    (hneeded : ∀ file ∈ more, ∀ S ∈ ImportClosed files, start.metaprogramSet ⊆ S →
      file.path.components ∈ S) :
    Pursued files start ((r.addFiles pending added more).1,
      path :: (r.addFiles pending added more).2.1, (r.addFiles pending added more).2.2) := by
  induction more generalizing r pending added with
  | nil => exact h
  | cons file more ih =>
    have hrest := List.Subset.trans (List.subset_cons_self file more) hmore
    have hneededRest := fun f hf => hneeded f (List.mem_cons_of_mem file hf)
    rw [Registry.addFiles]
    cases hmatters : r.matters file.path with
    | true =>
      rw [addMetaprogramFile_known hmatters]
      exact ih h hrest hneededRest
    | false =>
      rw [addMetaprogramFile_new hmatters]
      refine ih ?_ hrest hneededRest
      have henter := h.enter hpaths (hmore List.mem_cons_self) hmatters
        (hneeded file List.mem_cons_self)
      have hswap : (path :: file.path :: pending).Perm (file.path :: path :: pending) := .swap _ _ _
      exact henter.of_pending hswap.subset fun _ hp hleft => absurd (hswap.symm.subset hp) hleft

theorem metaprogramSet_addFiles (r : Registry) (pending : List SourcePath) (added : Nat)
    (more : List SourceFile) : (r.addFiles pending added more).1.metaprogramSet =
      r.metaprogramSet ∪ {components | ∃ file ∈ more, file.path.components = components} := by
  induction more generalizing r pending added with
  | nil => simp [addFiles]
  | cons file more ih =>
    have hcons : {components | ∃ f ∈ file :: more, f.path.components = components} =
        insert file.path.components {components | ∃ f ∈ more, f.path.components = components} := by
      ext components
      simp [eq_comm]
    rw [addFiles, hcons]
    cases hmatters : r.matters file.path with
    | true =>
      rw [addMetaprogramFile_known hmatters, Set.union_insert,
        Set.insert_eq_of_mem (.inl (matters_iff.mp hmatters))]
      exact ih r pending added
    | false =>
      rw [addMetaprogramFile_new hmatters, Set.union_insert, ← Set.insert_union,
        ← metaprogramSet_insertPath]
      exact ih _ _ _

theorem Pursued.round {s s' : Registry × List SourcePath × Nat}
    (hpaths : (files.map (·.path.components)).Nodup) (h : Pursued files start s)
    (hround : Round files s s') : Pursued files start s' := by
  cases hround with
  | @absent r path pending added habsent =>
    refine h.of_pending (List.subset_cons_self path pending) fun p hp hleft file hfile hsame => ?_
    obtain rfl := (List.mem_cons.mp hp).resolve_right hleft
    have hne := List.find?_eq_none.mp habsent file hfile
    exact absurd (SourcePath.beq_iff.mpr hsame.symm) hne
  | @enters r path pending added file hfound =>
    have hfile := List.mem_of_find?_eq_some hfound
    have hpath : file.path.components = path.components := SourcePath.beq_iff.mp
      (List.find?_some (p := fun f : SourceFile => f.path == path) hfound)
    have himported : ∀ other, other ∈ importedFiles files file ↔
        other ∈ files ∧ file.Imports other := fun other =>
      mem_importedFiles.trans (and_congr_right fun _ => SourceFile.imports_iff.symm)
    have hsub : importedFiles files file ⊆ files := fun other hother =>
      ((himported other).mp hother).1
    have hadded := h.addFiles hpaths hsub fun other hother S hS hstart => by
      obtain ⟨hmem, himports⟩ := (himported other).mp hother
      have hknown := h.needed S hS hstart (h.pending path List.mem_cons_self)
      exact hS file hfile (hpath ▸ hknown) other hmem himports
    refine hadded.of_pending (List.subset_cons_self path _) fun p hp hleft f hf hsame => ?_
    obtain rfl := (List.mem_cons.mp hp).resolve_right hleft
    obtain rfl := List.inj_on_of_nodup_map hpaths hfile hf (hpath.trans hsame)
    intro other hother himports
    rw [metaprogramSet_addFiles]
    exact .inr ⟨other, (himported other).mpr ⟨hother, himports⟩, rfl⟩

theorem Pursued.run {s s' : Registry × List SourcePath × Nat}
    (hpaths : (files.map (·.path.components)).Nodup) (h : Pursued files start s)
    (hrun : Relation.ReflTransGen (Round files) s s') : Pursued files start s' := by
  induction hrun with
  | refl => exact h
  | tail _ hround ih => exact ih.round hpaths hround

section Ending

/-- Every path that comes to be pending is no longer missing. -/
theorem room_addFiles (hmore : more ⊆ files) (r : Registry) (pending : List SourcePath)
    (added : Nat) :
    (r.addFiles pending added more).2.1.length + (r.addFiles pending added more).1.missing files ≤
      pending.length + r.missing files := by
  induction more generalizing r pending added with
  | nil => exact Nat.le_refl _
  | cons file more ih =>
    have hrest := List.Subset.trans (List.subset_cons_self file more) hmore
    rw [addFiles]
    cases hmatters : r.matters file.path with
    | true =>
      rw [addMetaprogramFile_known hmatters]
      exact ih hrest r pending added
    | false =>
      rw [addMetaprogramFile_new hmatters]
      have hroom := ih hrest { r with metaprogram := insertPath file.path r.metaprogram }
        (file.path :: pending) (added + 1)
      have hless := missing_insert (hmore List.mem_cons_self) hmatters
      rw [List.length_cons] at hroom
      dsimp only
      omega

/-- The work list is followed until nothing is pending. -/
theorem followImports_run {n : Nat} (hroom : pending.length + r.missing files ≤ n) :
    Relation.ReflTransGen (Round files) (r, pending, added)
      ((followImports files n pending added r).2, [],
        (followImports files n pending added r).1) := by
  induction n generalizing pending added r with
  | zero =>
    cases pending with
    | nil => exact .refl
    | cons path pending => simp at hroom
  | succ n ih =>
    cases pending with
    | nil => exact .refl
    | cons path pending =>
      rw [List.length_cons] at hroom
      rw [followImports]
      cases hfind : files.find? (·.path == path) with
      | none => exact .head (.absent hfind) (ih (by omega))
      | some file =>
        have hsub : importedFiles files file ⊆ files := fun f hf => (mem_importedFiles.mp hf).1
        have hless := Nat.le_trans (room_addFiles hsub r pending added) (Nat.le_of_succ_le_succ
          (Nat.succ_add pending.length (r.missing files) ▸ hroom))
        exact .head (.enters hfind) (ih hless)

theorem collectDependencies_run (r : Registry) (files : List SourceFile) :
    Relation.ReflTransGen (Round files) (r, r.metaprogram.reverse, 0)
      ((r.collectDependencies files).2, [], (r.collectDependencies files).1) := by
  apply followImports_run
  rw [List.length_reverse]
  exact Nat.add_le_add_left List.countP_le_length _

end Ending

/-- What following imports comes to: the rounds end with nothing pending, the paths known then are the
fewest that hold those known before and what the files among them import, the number is that of the
paths added, and nothing else of the registry has changed. -/
structure Gathers (files : List SourceFile) (r : Registry) (out : Nat × Registry) : Prop where
  ends : Relation.ReflTransGen (Round files) (r, r.metaprogram.reverse, 0) (out.2, [], out.1)
  least : IsLeast {S | r.metaprogramSet ⊆ S ∧ S ∈ ImportClosed files} out.2.metaprogramSet
  counted : out.1 = (out.2.metaprogramSet \ r.metaprogramSet).ncard
  others : { out.2 with metaprogram := r.metaprogram } = r

/-- The state in which nothing is pending is the least one. -/
theorem Pursued.isLeast {n : Nat} (h : Pursued files start (r, [], n)) :
    IsLeast {S | start.metaprogramSet ⊆ S ∧ S ∈ ImportClosed files} r.metaprogramSet := by
  refine ⟨⟨?_, fun file hfile hknown => ?_⟩, fun S hS => h.needed S hS.2 hS.1⟩
  · rintro _ ⟨path, hpath, rfl⟩
    exact ⟨path, (h.members path).mpr (.inl hpath), rfl⟩
  · refine (h.closed file hfile hknown).resolve_left ?_
    rintro ⟨path, hpath, -⟩
    exact List.not_mem_nil hpath

/-- Sorted compile-time files are known by which they are. -/
theorem Sorted.eq {r r' : Registry} (h : r.Sorted) (h' : r'.Sorted)
    (hmem : ∀ path, path ∈ r.metaprogram ↔ path ∈ r'.metaprogram) :
    r.metaprogram = r'.metaprogram := by
  have : Std.Irrefl fun p q : SourcePath => (p.lt q : Prop) :=
    ⟨fun p => SourcePath.componentsLt_irrefl p.components⟩
  have : Std.Antisymm fun p q : SourcePath => (p.lt q : Prop) := ⟨fun p q hpq hqp =>
    absurd (SourcePath.componentsLt_trans hpq hqp) (SourcePath.componentsLt_irrefl p.components)⟩
  exact List.Pairwise.eq_of_mem_iff h h' hmem

/-- The order of the files makes no difference to the state in which nothing is pending. -/
theorem Pursued.reorder {files' : List SourceFile} {r' : Registry} {n n' : Nat}
    (h : Pursued files start (r, [], n)) (h' : Pursued files' start (r', [], n'))
    (hperm : files'.Perm files) :
    n' = n ∧ r'.metaprogramSet = r.metaprogramSet ∧ (start.Sorted → r' = r) := by
  have hclosed : ImportClosed files' = ImportClosed files := by
    simp only [ImportClosed, hperm.mem_iff]
  have hleast := h'.isLeast
  rw [hclosed] at hleast
  have hset := hleast.unique h.isLeast
  have hcount : n' = (r'.metaprogramSet \ start.metaprogramSet).ncard := h'.counted
  rw [hset] at hcount
  refine ⟨hcount.trans h.counted.symm, hset, fun hsorted => ?_⟩
  have hmem : ∀ path, path ∈ r'.metaprogram ↔ path ∈ r.metaprogram := by
    intro path
    rw [h'.members, h.members]
    simp only [hset, hperm.mem_iff]
  have hpaths := (h'.sorted hsorted).eq (h.sorted hsorted) hmem
  calc r' = { ({ r' with metaprogram := start.metaprogram } : Registry) with
          metaprogram := r'.metaprogram } := rfl
    _ = { ({ r with metaprogram := start.metaprogram } : Registry) with
          metaprogram := r.metaprogram } := by rw [h'.others, h.others, hpaths]

theorem collectDependencies_pursued (hpaths : (files.map (·.path.components)).Nodup)
    (r : Registry) :
    Pursued files r ((r.collectDependencies files).2, [], (r.collectDependencies files).1) :=
  (Pursued.begin files r).run hpaths (collectDependencies_run r files)

/-- Of files with different paths, whatever they import and whatever was known before, those that a
compile-time file imports, directly or not, are compile-time files in the end, and no others have
become so. The order of the files makes no difference, and a second time nothing is added. -/
theorem collectDependencies_gathers (hpaths : (files.map (·.path.components)).Nodup)
    (r : Registry) :
    Gathers files r (r.collectDependencies files) ∧
      (∀ files' : List SourceFile, files'.Perm files →
        (r.collectDependencies files').1 = (r.collectDependencies files).1 ∧
          (r.collectDependencies files').2.metaprogramSet =
            (r.collectDependencies files).2.metaprogramSet ∧
          (r.Sorted → (r.collectDependencies files').2 = (r.collectDependencies files).2)) ∧
      (r.collectDependencies files).2.collectDependencies files =
        (0, (r.collectDependencies files).2) := by
  have h := collectDependencies_pursued hpaths r
  refine ⟨⟨collectDependencies_run r files, h.isLeast, h.counted, h.others⟩,
    fun files' hperm => ?_, ?_⟩
  · have hpaths' := (hperm.map (·.path.components)).nodup_iff.mpr hpaths
    exact h.reorder (collectDependencies_pursued hpaths' r) hperm
  · have hagain := collectDependencies_pursued hpaths (r.collectDependencies files).2
    have hsub := hagain.needed _ h.isLeast.1.2 (Set.Subset.refl _)
    have hcount := hagain.counted
    rw [Set.sdiff_eq_empty.mpr hsub, Set.ncard_empty] at hcount
    exact Prod.ext hcount (hagain.idle hcount)

section Order

theorem Sorted.declare (h : r.Sorted) (d : Declaration) : (r.declare d).2.Sorted := by
  cases hd : r.declaration? d.id with
  | some known =>
    rw [declare_known hd]
    exact h
  | none =>
    rw [declare_new hd]
    exact pairwise_insertPath h d.file

theorem Sorted.declareAll (h : r.Sorted) (ds : List Declaration) : (r.declareAll ds).Sorted := by
  induction ds generalizing r with
  | nil => exact h
  | cons d ds ih => exact ih (h.declare d)

theorem Sorted.forgetFile (h : r.Sorted) (path : SourcePath) : (r.forgetFile path).2.Sorted := by
  rw [Registry.forgetFile]
  split <;> exact h

theorem Sorted.bindSites (h : r.Sorted) (file : SourceFile) : (r.bindSites file).2.Sorted := by
  unfold Registry.bindSites
  dsimp only
  generalize file.sites.filterMap _ = found
  induction found generalizing r with
  | nil => exact h
  | cons entry found ih =>
    have hbind : (r.bind entry.1 entry.2.1 entry.2.2).Sorted := h
    exact ih hbind

theorem Sorted.collectDependencies (h : r.Sorted) (files : List SourceFile) :
    (r.collectDependencies files).2.Sorted := by
  apply collectDependencies_induction (P := Sorted) _ h
  intro r path h
  rw [addMetaprogramFile]
  split
  · exact h
  · exact pairwise_insertPath h path

theorem Sorted.perform (h : r.Sorted) (op : Operation) : (r.perform op).Sorted := by
  cases op with
  | declare d => exact h.declare d
  | forget path => exact h.forgetFile path
  | reset => exact .nil
  | collect file =>
    rw [Registry.perform, collect_eq]
    split
    · exact h
    · rename_i hcollect
      split at hcollect
      · cases hcollect
      · obtain rfl := Except.ok.inj hcollect
        exact (h.forgetFile file.path).declareAll _
  | bindSites file => exact h.bindSites file
  | follow files => exact h.collectDependencies files

/-- Whatever is done to a registry, its compile-time files stand in order. -/
theorem sorted_after (ops : List Operation) : (after ops).Sorted := by
  have hfoldl : ∀ r : Registry, r.Sorted → (ops.foldl perform r).Sorted := by
    induction ops with
    | nil => exact fun _ h => h
    | cons op ops ih => exact fun r h => ih _ (h.perform op)
  exact hfoldl .empty .nil

end Order

/-- Two files that import each other. -/
def ring : List SourceFile :=
  [⟨0, ⟨"a.kn"⟩, [.importNames ⟨1, ⟨0, 0⟩⟩ ["f"] "./b"], ⟨0, 0⟩⟩,
    ⟨2, ⟨"b.kn"⟩, [.importNames ⟨3, ⟨0, 0⟩⟩ ["g"] "./a"], ⟨0, 0⟩⟩]

def begun : Registry := (addMetaprogramFile .empty ⟨"a.kn"⟩).2

/-- When one file of the ring matters, so does the other, whichever comes first; after that nothing is
added. -/
theorem collectDependencies_ring :
    [.normal "b.kn"] ∈ (begun.collectDependencies ring).2.metaprogramSet ∧
      (begun.collectDependencies ring.reverse).2 = (begun.collectDependencies ring).2 ∧
      ((begun.collectDependencies ring).2.collectDependencies ring).1 = 0 := by
  have hpaths : (ring.map (·.path.components)).Nodup := by decide
  obtain ⟨hgathers, horder, hagain⟩ := collectDependencies_gathers hpaths begun
  obtain ⟨hholds, hclosed⟩ := hgathers.least.1
  have hfirst : ring[0].path.components ∈ begun.metaprogramSet :=
    ⟨⟨"a.kn"⟩, List.mem_cons_self, rfl⟩
  have himports : (ring[0]).Imports ring[1] :=
    ⟨⟨1, ⟨0, 0⟩⟩, ["f"], "./b", List.mem_cons_self, by decide +kernel, rfl⟩
  -- A declaration of the file that is forgotten leaves the same registry.
  have hbegun : after [.declare ⟨1, .function, "f", .function false, ⟨"a.kn"⟩, default⟩,
      .forget ⟨"a.kn"⟩] = begun := rfl
  have hsorted : begun.Sorted := hbegun ▸ sorted_after _
  refine ⟨?_, (horder ring.reverse (List.reverse_perm ring)).2.2 hsorted, by rw [hagain]⟩
  exact hclosed ring[0] List.mem_cons_self (hholds hfirst) ring[1]
    (List.mem_cons_of_mem _ List.mem_cons_self) himports

end Registry

end MacroEngine
