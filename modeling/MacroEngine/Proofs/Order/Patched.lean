import Mathlib.Data.List.InsertIdx
import MacroEngine.Expansion
import MacroEngine.Proofs.Order.Blind

/-!
# Patches with other numbers

Patches are applied next to statements that are found by their identities. A renumbering that keeps
the identities of the former statements apart from all others leaves every patch in its place.
-/

namespace MacroEngine

/-- No identity is taken for one that was given before `bound`. -/
def Apart (ρ : Nat → Nat) (bound : Nat) : Prop := ∀ x y : Nat, y < bound → ρ x = ρ y → x = y

theorem Apart.eq_iff {ρ : Nat → Nat} {bound : Nat} (h : Apart ρ bound) {x y : Nat} (hy : y < bound) :
    ρ x = ρ y ↔ x = y :=
  ⟨h x y hy, congrArg ρ⟩

def Patched.renumber (ρ : NodeId → NodeId) (out : Patched) : Patched :=
  ⟨out.statements.map (Stmt.renumber ρ), out.dropped.map (Stmt.renumber ρ)⟩

namespace Patcher

variable {ρ : Nat → Nat} {bound : Nat}

def AnchoredAlike (ρ : Nat → Nat) (a a' : Stmt × (Stmt → Bool)) : Prop :=
  a'.1 = a.1.renumber ρ ∧ ∀ t : Stmt, a'.2 (t.renumber ρ) = a.2 t

theorem free_corresponds {ps ps' : List Patch} (h : List.Forall₂ (Patch.Corresponds ρ) ps ps') :
    free ps' = (free ps).map (Stmt.renumber ρ) := by
  induction h with
  | nil => rfl
  | @cons p p' ps ps' hp _ ih =>
    obtain ⟨s, anchor⟩ := p
    obtain ⟨_, anchor'⟩ := p'
    obtain ⟨rfl, hanchor⟩ := hp
    cases hanchor with
    | none => exact congrArg (List.cons _) ih
    | some => exact ih

theorem anchored_corresponds {ps ps' : List Patch}
    (h : List.Forall₂ (Patch.Corresponds ρ) ps ps') :
    List.Forall₂ (AnchoredAlike ρ) (anchored ps) (anchored ps') := by
  induction h with
  | nil => exact .nil
  | @cons p p' ps ps' hp _ ih =>
    obtain ⟨s, anchor⟩ := p
    obtain ⟨_, anchor'⟩ := p'
    obtain ⟨rfl, hanchor⟩ := hp
    cases hanchor with
    | none => exact ih
    | some haccepts => exact .cons ⟨rfl, haccepts⟩ ih

theorem size_corresponds {p p' : Patcher} (h : p.Corresponds ρ p') : p'.size = p.size := by
  rw [size, size, h.before.length_eq, h.after.length_eq]

theorem isEmpty_corresponds {p p' : Patcher} (h : p.Corresponds ρ p') : p'.isEmpty = p.isEmpty := by
  obtain ⟨before, after⟩ := p
  obtain ⟨before', after'⟩ := p'
  obtain ⟨hbefore, hafter⟩ := h
  cases hbefore <;> cases hafter <;> rfl

section Anchors

variable {former : List Stmt}

/-- An anchor is found at the same statement. -/
theorem find?_corresponds {anchor anchor' : Stmt → Bool}
    (h : ∀ t : Stmt, anchor' (t.renumber ρ) = anchor t) :
    (former.map (Stmt.renumber ρ)).find? anchor' = (former.find? anchor).map (Stmt.renumber ρ) := by
  rw [List.find?_map, show anchor' ∘ Stmt.renumber ρ = anchor from funext h]

variable (hρ : Apart ρ bound) (hformer : ∀ s ∈ former, s.id < bound)

include hρ hformer

theorem anchorIndex?_corresponds {anchor anchor' : Stmt → Bool}
    (h : ∀ t : Stmt, anchor' (t.renumber ρ) = anchor t) (stmts : List Stmt) :
    anchorIndex? (former.map (Stmt.renumber ρ)) anchor' (stmts.map (Stmt.renumber ρ)) =
      anchorIndex? former anchor stmts := by
  rw [anchorIndex?, anchorIndex?, find?_corresponds h]
  cases hfind : former.find? anchor with
  | none => rfl
  | some s =>
    have hs := hformer s (List.mem_of_find?_eq_some hfind)
    simp only [Option.map_some, Option.bind_some, List.findIdx?_map]
    congr 1
    funext t
    simp [hρ.eq_iff hs]

omit hρ in
/-- Where an anchor is found there stands a statement that was given before. -/
theorem exists_of_anchorIndex? {anchor : Stmt → Bool} {stmts : List Stmt} {i : Nat}
    (h : anchorIndex? former anchor stmts = some i) : ∃ t, stmts[i]? = some t ∧ t.id < bound := by
  obtain ⟨s, hs, hi⟩ := Option.bind_eq_some_iff.mp h
  obtain ⟨hlt, hid, -⟩ := List.findIdx?_eq_some_iff_getElem.mp hi
  refine ⟨stmts[i], List.getElem?_eq_getElem hlt, ?_⟩
  rw [of_decide_eq_true hid]
  exact hformer s (List.mem_of_find?_eq_some hs)

theorem applyBefore_corresponds {ps ps' : List (Stmt × (Stmt → Bool))}
    (h : List.Forall₂ (AnchoredAlike ρ) ps ps') (out : Patched) :
    applyBefore (former.map (Stmt.renumber ρ)) ps' (out.renumber ρ) =
      (applyBefore former ps out).renumber ρ := by
  induction h generalizing out with
  | nil => rfl
  | @cons p p' _ _ hp _ ih =>
    obtain ⟨s, anchor⟩ := p
    obtain ⟨_, anchor'⟩ := p'
    obtain ⟨rfl, haccepts⟩ := hp
    have hindex : anchorIndex? (former.map (Stmt.renumber ρ)) anchor' (out.renumber ρ).statements =
      anchorIndex? former anchor out.statements :=
      anchorIndex?_corresponds hρ hformer haccepts out.statements
    rw [applyBefore, applyBefore, hindex]
    cases anchorIndex? former anchor out.statements with
    | none =>
      dsimp only
      rw [← ih]
      simp [Patched.renumber]
    | some i =>
      dsimp only
      rw [← ih]
      simp [Patched.renumber, List.map_insertIdx]

omit hformer in
/-- The number of statements added after a former one. -/
theorem addedAfter_corresponds {counts : List (NodeId × Nat)} (hcounts : ∀ c ∈ counts, c.1 < bound)
    (id : NodeId) : addedAfter (counts.map fun c => (ρ c.1, c.2)) (ρ id) = addedAfter counts id := by
  unfold addedAfter
  induction counts with
  | nil => rfl
  | cons c counts ih =>
    have hkey : (ρ id == ρ c.1) = (id == c.1) := by
      rw [Bool.eq_iff_iff, beq_iff_eq, beq_iff_eq]
      exact hρ.eq_iff (hcounts c List.mem_cons_self)
    rw [List.map_cons, List.lookup_cons, List.lookup_cons, hkey]
    split
    · rfl
    · exact ih fun c' hc' => hcounts c' (List.mem_cons_of_mem _ hc')

theorem applyAfter_corresponds {ps ps' : List (Stmt × (Stmt → Bool))}
    (h : List.Forall₂ (AnchoredAlike ρ) ps ps') {counts : List (NodeId × Nat)}
    (hcounts : ∀ c ∈ counts, c.1 < bound) (out : Patched) :
    applyAfter (former.map (Stmt.renumber ρ)) (counts.map fun c => (ρ c.1, c.2)) ps'
      (out.renumber ρ) = (applyAfter former counts ps out).renumber ρ := by
  induction h generalizing counts out with
  | nil => rfl
  | @cons p p' _ _ hp _ ih =>
    obtain ⟨s, anchor⟩ := p
    obtain ⟨_, anchor'⟩ := p'
    obtain ⟨rfl, haccepts⟩ := hp
    have hindex : anchorIndex? (former.map (Stmt.renumber ρ)) anchor' (out.renumber ρ).statements =
      anchorIndex? former anchor out.statements :=
      anchorIndex?_corresponds hρ hformer haccepts out.statements
    rw [applyAfter, applyAfter, hindex]
    cases hi : anchorIndex? former anchor out.statements with
    | none =>
      dsimp only
      rw [← ih hcounts]
      simp [Patched.renumber]
    | some i =>
      obtain ⟨t, ht, hid⟩ := exists_of_anchorIndex? hformer hi
      have ht' : (out.renumber ρ).statements[i]? = some (t.renumber ρ) := by
        simp [Patched.renumber, ht]
      dsimp only
      rw [ht, ht']
      simp only [Option.map_some, Option.getD_some, Stmt.id_renumber]
      rw [addedAfter_corresponds hρ hcounts]
      have hmore : ∀ c ∈ (t.id, addedAfter counts t.id + 1) :: counts, c.1 < bound :=
        List.forall_mem_cons.mpr ⟨hid, hcounts⟩
      rw [← ih hmore]
      simp [Patched.renumber, List.map_insertIdx]

/-- Patches are applied alike. -/
theorem patchAgainst_corresponds {p p' : Patcher} (h : p.Corresponds ρ p') (statements : List Stmt) :
    p'.patchAgainst (former.map (Stmt.renumber ρ)) (statements.map (Stmt.renumber ρ)) =
      (p.patchAgainst former statements).renumber ρ := by
  have htop : ∀ (ss stmts : List Stmt),
      (ss.map (Stmt.renumber ρ)).foldl (fun stmts s => s :: stmts) (stmts.map (Stmt.renumber ρ)) =
        (ss.foldl (fun stmts s => s :: stmts) stmts).map (Stmt.renumber ρ) := by
    intro ss
    induction ss with
    | nil => exact fun _ => rfl
    | cons s ss ih => exact fun stmts => ih (s :: stmts)
  unfold patchAgainst
  rw [free_corresponds h.before, free_corresponds h.after, htop]
  have hbefore := applyBefore_corresponds hρ hformer (anchored_corresponds h.before)
    ⟨(free p.before).foldl (fun stmts s => s :: stmts) statements, []⟩
  have hnone : ∀ c ∈ ([] : List (NodeId × Nat)), c.1 < bound := fun _ hc => absurd hc List.not_mem_nil
  have hafter := applyAfter_corresponds hρ hformer (anchored_corresponds h.after) hnone
  dsimp only
  rw [← hafter]
  simp only [Patched.renumber, List.map_nil] at hbefore ⊢
  rw [hbefore, List.map_append]

end Anchors

end Patcher

/-- What an expansion makes of its patches is the same with other numbers. -/
theorem applyPatches_corresponds {ρ : Nat → Nat} {bound : Nat} (hρ : Apart ρ bound) {file : FileView}
    (hfile : ∀ s ∈ file.statements, s.id < bound) (policy : MissPolicy) {p p' : Patcher}
    (h : p.Corresponds ρ p') (statements : List Stmt) :
    applyPatches (file.renumber ρ) policy p' (statements.map (Stmt.renumber ρ)) =
      let out := applyPatches file policy p statements
      (out.1.map (Stmt.renumber ρ), out.2) := by
  unfold applyPatches
  rw [Patcher.isEmpty_corresponds h]
  split
  · rfl
  · have hpatched := Patcher.patchAgainst_corresponds hρ hfile h statements
    simp only [FileView.renumber, hpatched, Patched.renumber, List.length_map,
      Patcher.size_corresponds h]

end MacroEngine
