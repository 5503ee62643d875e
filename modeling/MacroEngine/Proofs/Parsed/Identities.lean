import MacroEngine.Proofs.Parsed.Nodes
import MacroEngine.Proofs.Parsed.Spans
import MacroEngine.Proofs.Unchanged.Sessions

/-!
# Identities across parsed files

Files that are parsed one after the other on one counter are numbered one after the other, and a text
that is not parsed uses up no number. So a node of one file is never taken for a node of another one,
and a binding, which is found by the identity of the site alone, stays within the file it was made
for.
-/

namespace MacroEngine

open Grammar

def SourceFile.parseAll (inputs : List (SourcePath × String)) :
    Fresh (List (Except Error SourceFile)) :=
  inputs.mapM fun (path, text) => SourceFile.parse path text

def parsedFiles (outcomes : List (Except Error SourceFile)) : List SourceFile :=
  outcomes.filterMap Except.toOption

/-- Binding the sites of the first file leaves the nodes of the second file bound to what they were
bound to. -/
def SourceFile.Spares (file other : SourceFile) : Prop :=
  ∀ (r : Registry) (kind : MacroKind), ∀ id ∈ other.outline.postorder,
    (r.bindSites file).2.binding? kind id = r.binding? kind id

/-- Files that share no number spare each other. -/
theorem SourceFile.spares_of_disjoint {file other : SourceFile}
    (h : ∀ i ∈ file.items, i.id ∉ other.outline.postorder) : file.Spares other := by
  intro r kind id hid
  rw [Registry.bindSites_eq]
  refine Registry.binding?_foldl_of_not_mem fun entry hentry heq => ?_
  obtain ⟨e, he, hentry⟩ := List.mem_filterMap.mp hentry
  apply h (.expr e) (Registry.mem_items_of_mem_sites he)
  rw [show Item.id (.expr e) = id from (Registry.resolved?_id hentry).symm.trans heq]
  exact hid

structure SourceFile.Within (a b : NodeId) (file : SourceFile) : Prop where
  outline : ∀ id ∈ file.outline.postorder, a ≤ id ∧ id < b
  items : ∀ i ∈ file.items, a ≤ i.id ∧ i.id < b

namespace SourceFile.Within

variable {a b c d : NodeId} {file other : SourceFile}

theorem mono (h : file.Within b c) (hab : a ≤ b) (hcd : c ≤ d) : file.Within a d :=
  ⟨fun id hid => (h.outline id hid).imp (Nat.le_trans hab) (Nat.lt_of_lt_of_le · hcd),
    fun i hi => (h.items i hi).imp (Nat.le_trans hab) (Nat.lt_of_lt_of_le · hcd)⟩

theorem spares_after (h : file.Within a b) (h' : other.Within b c) : file.Spares other :=
  spares_of_disjoint fun i hi hid => Nat.lt_irrefl _
    (Nat.lt_of_lt_of_le (h.items i hi).2 (h'.outline _ hid).1)

theorem spares_before (h : file.Within a b) (h' : other.Within b c) : other.Spares file :=
  spares_of_disjoint fun i hi hid => Nat.lt_irrefl _
    (Nat.lt_of_lt_of_le (h.outline _ hid).2 (h'.items i hi).1)

end SourceFile.Within

/-- Files whose nodes are numbered one after the other, from `a` on and below `b`, and that spare each
other. -/
structure NumberedApart (a b : NodeId) (files : List SourceFile) : Prop where
  le : a ≤ b
  growing : (files.flatMap fun file => file.outline.postorder).Pairwise (· < ·)
  within : ∀ file ∈ files, file.Within a b
  spare : files.Pairwise fun file other => file.Spares other ∧ other.Spares file

namespace NumberedApart

variable {a b c : NodeId} {files more : List SourceFile}

theorem nil (h : a ≤ b) : NumberedApart a b [] :=
  ⟨h, .nil, fun _ hfile => absurd hfile List.not_mem_nil, .nil⟩

theorem append (h : NumberedApart a b files) (h' : NumberedApart b c more) :
    NumberedApart a c (files ++ more) where
  le := Nat.le_trans h.le h'.le
  growing := by
    rw [List.flatMap_append]
    refine List.pairwise_append.mpr ⟨h.growing, h'.growing, fun id hid next hnext => ?_⟩
    obtain ⟨file, hfile, hid⟩ := List.mem_flatMap.mp hid
    obtain ⟨other, hother, hnext⟩ := List.mem_flatMap.mp hnext
    exact Nat.lt_of_lt_of_le ((h.within file hfile).outline id hid).2
      ((h'.within other hother).outline next hnext).1
  within := by
    intro file hfile
    rcases List.mem_append.mp hfile with hfile | hfile
    · exact (h.within file hfile).mono (Nat.le_refl _) h'.le
    · exact (h'.within file hfile).mono h.le (Nat.le_refl _)
  spare := by
    refine List.pairwise_append.mpr ⟨h.spare, h'.spare, fun file hfile other hother => ?_⟩
    have hfile := h.within file hfile
    have hother := h'.within other hother
    exact ⟨hfile.spares_after hother, hfile.spares_before hother⟩

end NumberedApart

/-- A text that is parsed is numbered, and one that is not leaves the numbers alone. -/
theorem SourceFile.run_parse_apart (path : SourcePath) (text : String) (n : NodeId) :
    NumberedApart n ((SourceFile.parse path text).run n).2
      (parsedFiles [((SourceFile.parse path text).run n).1]) := by
  have hle := SourceFile.parse_le path text n
  generalize hrun : (SourceFile.parse path text).run n = out at hle ⊢
  obtain ⟨outcome, k⟩ := out
  cases outcome with
  | error e => exact .nil hle
  | ok file =>
    obtain ⟨hnumbered, -⟩ := SourceFile.parse_numbered hrun
    obtain ⟨-, horder⟩ := SourceFile.parse_inOrder hrun
    have hgrowing := horder.growing
    have hbounds := horder.bounds
    rw [Outline.postorderAll_singleton] at hgrowing hbounds
    have hfile : parsedFiles [.ok file] = [file] := rfl
    rw [hfile]
    refine ⟨hle, ?_, fun other hother => ?_, List.pairwise_singleton _ _⟩
    · rw [List.flatMap_singleton]
      exact hgrowing
    · obtain rfl := List.mem_singleton.mp hother
      exact ⟨hbounds, hnumbered.bounds⟩

theorem run_mapM_cons {α β : Type} (f : α → Fresh β) (a : α) (as : List α) (n : NodeId) :
    ((a :: as).mapM f).run n =
      (((f a).run n).1 :: ((as.mapM f).run ((f a).run n).2).1,
        ((as.mapM f).run ((f a).run n).2).2) := by
  rw [List.mapM_cons]
  rfl

theorem parsedFiles_cons (outcome : Except Error SourceFile)
    (outcomes : List (Except Error SourceFile)) :
    parsedFiles (outcome :: outcomes) = parsedFiles [outcome] ++ parsedFiles outcomes :=
  List.filterMap_append (l := [outcome])

/-- Files parsed one after the other are numbered one after the other. -/
theorem SourceFile.run_parseAll_apart (inputs : List (SourcePath × String)) (n : NodeId) :
    NumberedApart n ((SourceFile.parseAll inputs).run n).2
      (parsedFiles ((SourceFile.parseAll inputs).run n).1) := by
  induction inputs generalizing n with
  | nil => exact .nil (Nat.le_refl n)
  | cons input inputs ih =>
    have hfirst := SourceFile.run_parse_apart input.1 input.2 n
    have hmore := ih ((SourceFile.parse input.1 input.2).run n).2
    rw [SourceFile.parseAll, run_mapM_cons, parsedFiles_cons]
    exact hfirst.append hmore

/-- Numbers that grow below the bound of 32 bits grow as numbers of 32 bits as well. -/
theorem pairwise_ofNat {ids : List NodeId} {b : NodeId} (h : ids.Pairwise (· < ·))
    (hids : ∀ id ∈ ids, id < b) (hb : b ≤ 2 ^ 32) : (ids.map UInt32.ofNat).Pairwise (· < ·) := by
  refine List.pairwise_map.mpr (h.imp_of_mem fun {i j} hi hj hij => ?_)
  have hi : i < 2 ^ 32 := Nat.lt_of_lt_of_le (hids i hi) hb
  have hj : j < 2 ^ 32 := Nat.lt_of_lt_of_le (hids j hj) hb
  rw [UInt32.lt_iff_toNat_lt, UInt32.toNat_ofNat_of_lt' hi, UInt32.toNat_ofNat_of_lt' hj]
  exact hij

/-- Identities identify nodes. However many texts are parsed on one counter, with or without success:
the numbers of the nodes of all files, each file in post-order with the file itself last, one file
after the other, are strictly increasing, also as numbers of 32 bits where as many are enough. And
binding the sites of one of the files changes for no node of another one what it is bound to. -/
theorem SourceFile.parseAll_identities (inputs : List (SourcePath × String)) (n : NodeId) :
    let files := parsedFiles ((SourceFile.parseAll inputs).run n).1
    let next := ((SourceFile.parseAll inputs).run n).2
    let ids := files.flatMap fun file => file.outline.postorder
    ids.Pairwise (· < ·) ∧ (∀ id ∈ ids, n ≤ id ∧ id < next) ∧
      (next ≤ 2 ^ 32 → (ids.map UInt32.ofNat).Pairwise (· < ·)) ∧
      files.Pairwise fun file other => file.Spares other ∧ other.Spares file := by
  have hall := SourceFile.run_parseAll_apart inputs n
  have hbounds : ∀ id ∈ (parsedFiles ((SourceFile.parseAll inputs).run n).1).flatMap
      (fun file => file.outline.postorder), n ≤ id ∧ id < ((SourceFile.parseAll inputs).run n).2 := by
    intro id hid
    obtain ⟨file, hfile, hid⟩ := List.mem_flatMap.mp hid
    exact (hall.within file hfile).outline id hid
  exact ⟨hall.growing, hbounds, pairwise_ofNat hall.growing fun id hid => (hbounds id hid).2,
    hall.spare⟩

end MacroEngine
