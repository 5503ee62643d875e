import MacroEngine.Edits
import Mathlib.Algebra.Order.Group.Multiset
import Mathlib.Tactic.Abel

/-!
# Where patches put their statements

Patches are carried out in four rounds, and each round looks for its anchors in the list that the
rounds before it left. This module says where every statement ends up without following the rounds:
each statement of the file has its own statements around it, and everything else stands at the top
or at the end. The rounds keep a file in this arrangement, and what they count and look up are
places in it.
-/

namespace MacroEngine

namespace Edit

/-- The statement for the top of the file that an edit asks for. -/
def atTop? : Edit → Option Stmt
  | .prepend s => some s
  | _ => none

def atEnd? : Edit → Option Stmt
  | .append s => some s
  | _ => none

def beforeAnchor? : Edit → Option (Stmt × (Stmt → Bool))
  | .insertBefore s anchor => some (s, anchor)
  | _ => none

def afterAnchor? : Edit → Option (Stmt × (Stmt → Bool))
  | .insertAfter s anchor => some (s, anchor)
  | _ => none

def patched? : Edit → Option Stmt
  | .prepend s | .append s | .insertBefore s _ | .insertAfter s _ => some s
  | _ => none

end Edit

namespace Patcher

/-- Statements to put next to their anchors, in the order of their registration. -/
abbrev Anchored := List (Stmt × (Stmt → Bool))

/-- Whether a statement carries the identity of the first of the `former` ones that `anchor`
accepts. -/
def isAnchor (former : List Stmt) (anchor : Stmt → Bool) (s : Stmt) : Bool :=
  (former.find? anchor).any (·.id = s.id)

/-- The statements whose anchor is `s`. -/
def nextTo (former : List Stmt) (ps : Anchored) (s : Stmt) : List Stmt :=
  (ps.filter fun p => isAnchor former p.2 s).map (·.1)

/-- The statements whose anchor is none of the present statements. -/
def adrift (former present : List Stmt) (ps : Anchored) : List Stmt :=
  (ps.filter fun p => !present.any (isAnchor former p.2)).map (·.1)

/-- Every statement with its own statements around it. -/
def arranged (former present : List Stmt) (before after : Anchored) : List Stmt :=
  present.flatMap fun s => nextTo former before s ++ s :: nextTo former after s

/-- What the patches that edits ask for make of the statements that the `former` ones have
become. -/
def placed (former present : List Stmt) (edits : List Edit) : Patched where
  statements :=
    (edits.filterMap Edit.atTop?).reverse ++
      arranged former present (edits.filterMap Edit.beforeAnchor?)
        (edits.filterMap Edit.afterAnchor?) ++
      edits.filterMap Edit.atEnd?
  dropped :=
    adrift former present (edits.filterMap Edit.beforeAnchor?) ++
      adrift former present (edits.filterMap Edit.afterAnchor?)

section Registered

/-- What a patcher holds when edits have been carried out: what it held, then what they ask for. -/
theorem foldl_patch (edits : List Edit) (p : Patcher) :
    free (edits.foldl Edit.patch p).before = free p.before ++ edits.filterMap Edit.atTop? ∧
      anchored (edits.foldl Edit.patch p).before =
        anchored p.before ++ edits.filterMap Edit.beforeAnchor? ∧
      free (edits.foldl Edit.patch p).after = free p.after ++ edits.filterMap Edit.atEnd? ∧
      anchored (edits.foldl Edit.patch p).after =
        anchored p.after ++ edits.filterMap Edit.afterAnchor? := by
  induction edits generalizing p with
  | nil => simp
  | cons e edits ih =>
    obtain ⟨htop, hbefore, hend, hafter⟩ := ih (e.patch p)
    simp only [List.foldl_cons, htop, hbefore, hend, hafter]
    cases e <;>
      simp [Edit.patch, prepend, append, insertBefore, insertAfter, free, anchored,
        List.filterMap_cons, Edit.atTop?, Edit.beforeAnchor?, Edit.atEnd?, Edit.afterAnchor?]

/-- What a patcher holds that began empty. -/
theorem foldl_patch_empty (edits : List Edit) :
    free (edits.foldl Edit.patch .empty).before = edits.filterMap Edit.atTop? ∧
      anchored (edits.foldl Edit.patch .empty).before = edits.filterMap Edit.beforeAnchor? ∧
      free (edits.foldl Edit.patch .empty).after = edits.filterMap Edit.atEnd? ∧
      anchored (edits.foldl Edit.patch .empty).after = edits.filterMap Edit.afterAnchor? :=
  foldl_patch edits .empty

end Registered

section Anchors

variable {former : List Stmt} {anchor : Stmt → Bool}

theorem isAnchor_iff {s : Stmt} :
    isAnchor former anchor s = true ↔ ∃ o, former.find? anchor = some o ∧ o.id = s.id := by
  simp [isAnchor, Option.any_eq_true]

/-- An anchor is found where it stands, if no statement before it has its identity. -/
theorem anchorIndex?_eq_length {s : Stmt} {left right : List Stmt}
    (hs : isAnchor former anchor s = true) (hleft : ∀ t ∈ left, t.id ≠ s.id) :
    anchorIndex? former anchor (left ++ s :: right) = some left.length := by
  obtain ⟨o, ho, hid⟩ := isAnchor_iff.mp hs
  have hnone : left.findIdx? (fun t => decide (t.id = s.id)) = none :=
    List.findIdx?_eq_none_iff.mpr fun t ht => by simpa using hleft t ht
  simp [anchorIndex?, ho, hid, List.findIdx?_append, List.findIdx?_cons, hnone]

theorem anchorIndex?_eq_none {stmts : List Stmt}
    (h : ∀ s ∈ stmts, isAnchor former anchor s = false) :
    anchorIndex? former anchor stmts = none := by
  cases ho : former.find? anchor with
  | none => simp [anchorIndex?, ho]
  | some o =>
    have hne : ∀ s ∈ stmts, ¬ s.id = o.id := fun s hs heq => by
      have := h s hs
      simp [isAnchor, ho, heq] at this
    simpa [anchorIndex?, ho, List.findIdx?_eq_none_iff] using hne

theorem mem_of_mem_nextTo {ps : Anchored} {s t : Stmt} (h : t ∈ nextTo former ps s) :
    t ∈ ps.map (·.1) := by
  obtain ⟨p, hp, rfl⟩ := List.mem_map.mp h
  exact List.mem_map_of_mem (List.mem_filter.mp hp).1

theorem mem_arranged {present : List Stmt} {before after : Anchored} {t : Stmt}
    (h : t ∈ arranged former present before after) :
    t ∈ present ∨ t ∈ before.map (·.1) ∨ t ∈ after.map (·.1) := by
  obtain ⟨s, hs, ht⟩ := List.mem_flatMap.mp h
  rcases List.mem_append.mp ht with ht | ht
  · exact .inr (.inl (mem_of_mem_nextTo ht))
  · rcases List.mem_cons.mp ht with rfl | ht
    · exact .inl hs
    · exact .inr (.inr (mem_of_mem_nextTo ht))

end Anchors

section Rounds

variable {former present : List Stmt}

/-- Statements whose identities are none of the former statements'. -/
def Foreign (former ss : List Stmt) : Prop := ∀ s ∈ ss, ∀ o ∈ former, o.id ≠ s.id

theorem Foreign.isAnchor_eq_false {ss : List Stmt} (h : Foreign former ss) {s : Stmt} (hs : s ∈ ss)
    (anchor : Stmt → Bool) : isAnchor former anchor s = false := by
  refine Bool.eq_false_iff.mpr fun hanchor => ?_
  obtain ⟨o, ho, hid⟩ := isAnchor_iff.mp hanchor
  exact h s hs o (List.mem_of_find?_eq_some ho) hid

theorem Foreign.ne_anchor {ss : List Stmt} (h : Foreign former ss) {s t : Stmt}
    {anchor : Stmt → Bool} (ht : t ∈ ss) (hs : isAnchor former anchor s = true) : t.id ≠ s.id := by
  obtain ⟨o, ho, hid⟩ := isAnchor_iff.mp hs
  exact fun heq => h t ht o (List.mem_of_find?_eq_some ho) (hid.trans heq.symm)

/-- Of statements with different identities at most one is an anchor. -/
theorem isAnchor_eq_false_of_ne {anchor : Stmt → Bool} {s t : Stmt}
    (hs : isAnchor former anchor s = true) (hne : t.id ≠ s.id) :
    isAnchor former anchor t = false := by
  refine Bool.eq_false_iff.mpr fun ht => ?_
  obtain ⟨o, ho, hid⟩ := isAnchor_iff.mp hs
  obtain ⟨o', ho', hid'⟩ := isAnchor_iff.mp ht
  obtain rfl : o = o' := Option.some.inj (ho.symm.trans ho')
  exact hne (hid'.symm.trans hid)

/-- The statements around `t` do not change with a patch whose anchor has another identity. -/
theorem nextTo_concat_of_ne {ps : Anchored} {x s t : Stmt} {anchor : Stmt → Bool}
    (hs : isAnchor former anchor s = true) (hne : t.id ≠ s.id) :
    nextTo former (ps ++ [(x, anchor)]) t = nextTo former ps t := by
  simp [nextTo, isAnchor_eq_false_of_ne hs hne]

theorem nextTo_concat_self {ps : Anchored} {x s : Stmt} {anchor : Stmt → Bool}
    (hs : isAnchor former anchor s = true) :
    nextTo former (ps ++ [(x, anchor)]) s = nextTo former ps s ++ [x] := by
  simp [nextTo, hs]

/-- The arrangement does not change with a patch that has no anchor among the statements. -/
theorem nextTo_concat_of_adrift {ps : Anchored} {x t : Stmt} {anchor : Stmt → Bool}
    (hnone : ∀ s ∈ present, isAnchor former anchor s = false) (ht : t ∈ present) :
    nextTo former (ps ++ [(x, anchor)]) t = nextTo former ps t := by
  simp [nextTo, hnone t ht]

theorem arranged_append (as bs : List Stmt) (before after : Anchored) :
    arranged former (as ++ bs) before after =
      arranged former as before after ++ arranged former bs before after := by
  simp [arranged]

theorem arranged_cons (s : Stmt) (ss : List Stmt) (before after : Anchored) :
    arranged former (s :: ss) before after =
      nextTo former before s ++ s :: nextTo former after s ++ arranged former ss before after := by
  simp [arranged]

theorem arranged_congr {before before' after after' : Anchored}
    (hbefore : ∀ s ∈ present, nextTo former before s = nextTo former before' s)
    (hafter : ∀ s ∈ present, nextTo former after s = nextTo former after' s) :
    arranged former present before after = arranged former present before' after' := by
  refine List.flatMap_congr fun s hs => ?_
  rw [hbefore s hs, hafter s hs]

/-- The present statements around one of them: the others have other identities. -/
theorem exists_split {s : Stmt} (hnodup : (present.map Stmt.id).Nodup) (hs : s ∈ present) :
    ∃ left right, present = left ++ s :: right ∧ (∀ t ∈ left, t.id ≠ s.id) ∧
      ∀ t ∈ right, t.id ≠ s.id := by
  obtain ⟨left, right, rfl⟩ := List.append_of_mem hs
  simp only [List.map_append, List.map_cons, List.nodup_append, List.nodup_cons, List.mem_map,
    List.mem_cons] at hnodup
  obtain ⟨-, ⟨hright, -⟩, hleft⟩ := hnodup
  refine ⟨left, right, rfl, fun t ht heq => ?_, fun t ht heq => hright ⟨t, ht, heq⟩⟩
  exact hleft t.id ⟨t, ht, rfl⟩ s.id (.inl rfl) heq

theorem insertIdx_length_append (left right : List Stmt) (x : Stmt) :
    (left ++ right).insertIdx left.length x = left ++ x :: right := by
  induction left with
  | nil => rfl
  | cons s left ih => simp [ih]

section Anchored

variable {left right : List Stmt} {s x : Stmt} {anchor : Stmt → Bool} {before after : Anchored}
  {top bottom : List Stmt}

/-- The statements in front of an anchor: those of other anchors, and its own. -/
def inFront (former top left : List Stmt) (s : Stmt) (before after : Anchored) : List Stmt :=
  top ++ arranged former left before after ++ nextTo former before s

theorem arranged_eq_inFront :
    top ++ arranged former (left ++ s :: right) before after ++ bottom =
      inFront former top left s before after ++
        s :: (nextTo former after s ++ (arranged former right before after ++ bottom)) := by
  simp [inFront, arranged_append, arranged_cons]

variable (right bottom) in
/-- In the arrangement an anchor is found behind what is in front of it. -/
theorem anchorIndex?_arranged (hs : isAnchor former anchor s = true)
    (hleft : ∀ t ∈ left, t.id ≠ s.id) (htop : Foreign former top)
    (hbefore : Foreign former (before.map (·.1))) (hafter : Foreign former (after.map (·.1))) :
    anchorIndex? former anchor
        (top ++ arranged former (left ++ s :: right) before after ++ bottom) =
      some (inFront former top left s before after).length := by
  rw [arranged_eq_inFront]
  refine anchorIndex?_eq_length hs fun t ht => ?_
  rcases List.mem_append.mp ht with ht | ht
  · rcases List.mem_append.mp ht with ht | ht
    · exact htop.ne_anchor ht hs
    · rcases mem_arranged ht with ht | ht | ht
      · exact hleft t ht
      · exact hbefore.ne_anchor ht hs
      · exact hafter.ne_anchor ht hs
  · exact hbefore.ne_anchor (mem_of_mem_nextTo ht) hs

theorem anchorIndex?_arranged_none (hnone : ∀ s ∈ present, isAnchor former anchor s = false)
    (htop : Foreign former top) (hbottom : Foreign former bottom)
    (hbefore : Foreign former (before.map (·.1))) (hafter : Foreign former (after.map (·.1))) :
    anchorIndex? former anchor (top ++ arranged former present before after ++ bottom) = none := by
  refine anchorIndex?_eq_none fun t ht => ?_
  rcases List.mem_append.mp ht with ht | ht
  · rcases List.mem_append.mp ht with ht | ht
    · exact htop.isAnchor_eq_false ht anchor
    · rcases mem_arranged ht with ht | ht | ht
      · exact hnone t ht
      · exact hbefore.isAnchor_eq_false ht anchor
      · exact hafter.isAnchor_eq_false ht anchor
  · exact hbottom.isAnchor_eq_false ht anchor

variable (hs : isAnchor former anchor s = true) (hleft : ∀ t ∈ left, t.id ≠ s.id)
  (hright : ∀ t ∈ right, t.id ≠ s.id)

include hs hleft hright

variable (x before after top bottom) in
/-- A statement put in front of an anchor joins those before it. -/
theorem insertIdx_before :
    (top ++ arranged former (left ++ s :: right) before after ++ bottom).insertIdx
        (inFront former top left s before after).length x =
      top ++ arranged former (left ++ s :: right) (before ++ [(x, anchor)]) after ++ bottom := by
  have hstay : ∀ ss : List Stmt, (∀ t ∈ ss, t.id ≠ s.id) →
      arranged former ss (before ++ [(x, anchor)]) after = arranged former ss before after :=
    fun ss hss => arranged_congr (fun t ht => nextTo_concat_of_ne hs (hss t ht)) fun _ _ => rfl
  rw [arranged_eq_inFront, insertIdx_length_append, arranged_eq_inFront, inFront, inFront,
    nextTo_concat_self hs, hstay left hleft, hstay right hright]
  simp

variable (x before after top bottom) in
/-- A statement put behind an anchor and those after it joins these. -/
theorem insertIdx_after :
    (top ++ arranged former (left ++ s :: right) before after ++ bottom).insertIdx
        ((inFront former top left s before after).length + 1 + (nextTo former after s).length) x =
      top ++ arranged former (left ++ s :: right) before (after ++ [(x, anchor)]) ++ bottom := by
  have hstay : ∀ ss : List Stmt, (∀ t ∈ ss, t.id ≠ s.id) →
      arranged former ss before (after ++ [(x, anchor)]) = arranged former ss before after :=
    fun ss hss => arranged_congr (fun _ _ => rfl) fun t ht => nextTo_concat_of_ne hs (hss t ht)
  have hlength : (inFront former top left s before after).length + 1 +
      (nextTo former after s).length =
      (inFront former top left s before after ++ s :: nextTo former after s).length := by
    simp; omega
  have hassoc : inFront former top left s before after ++
      s :: (nextTo former after s ++ (arranged former right before after ++ bottom)) =
      (inFront former top left s before after ++ s :: nextTo former after s) ++
        (arranged former right before after ++ bottom) := by
    simp
  rw [arranged_eq_inFront, hlength, hassoc, insertIdx_length_append, arranged_eq_inFront, inFront,
    inFront, nextTo_concat_self hs, hstay left hleft, hstay right hright]
  simp

end Anchored

theorem adrift_cons (x : Stmt) (anchor : Stmt → Bool) (ps : Anchored) :
    adrift former present ((x, anchor) :: ps) =
      if present.any (isAnchor former anchor) then adrift former present ps
      else x :: adrift former present ps := by
  by_cases h : present.any (isAnchor former anchor) <;> simp [adrift, h]

variable (hnodup : (present.map Stmt.id).Nodup)

include hnodup

/-- The round of the patches before anchors. -/
theorem applyBefore_arranged {top : List Stmt} (htop : Foreign former top) (more : Anchored)
    {done : Anchored} {dropped : List Stmt}
    (hforeign : Foreign former ((done ++ more).map (·.1))) :
    applyBefore former more ⟨top ++ arranged former present done [], dropped⟩ =
      ⟨top ++ arranged former present (done ++ more) [],
        dropped ++ adrift former present more⟩ := by
  induction more generalizing done dropped with
  | nil => simp [applyBefore, adrift]
  | cons p more ih =>
    obtain ⟨x, anchor⟩ := p
    have hdone : Foreign former (done.map (·.1)) := fun s hs => hforeign s (by simp_all)
    have hnil : Foreign former (([] : Anchored).map (·.1)) := fun s hs => absurd hs (by simp)
    have hjoin : done ++ [(x, anchor)] ++ more = done ++ (x, anchor) :: more := by simp
    have hnext := @ih (done ++ [(x, anchor)])
    simp only [hjoin] at hnext
    rw [applyBefore, adrift_cons]
    by_cases hany : present.any (isAnchor former anchor)
    · obtain ⟨s, hs, hanchor⟩ := List.any_eq_true.mp hany
      obtain ⟨left, right, rfl, hleft, hright⟩ := exists_split hnodup hs
      have hindex := anchorIndex?_arranged right [] hanchor hleft htop hdone hnil
      have hinsert := insertIdx_before x done [] top [] hanchor hleft hright
      simp only [List.append_nil] at hindex hinsert
      simp only [hindex, hinsert, hany, if_true]
      exact hnext hforeign
    · have hnone : ∀ s ∈ present, isAnchor former anchor s = false := by simpa using hany
      have hempty : Foreign former [] := fun s hs => absurd hs (by simp)
      have hindex := anchorIndex?_arranged_none hnone htop hempty hdone hnil
      have hsame : arranged former present (done ++ [(x, anchor)]) [] =
          arranged former present done [] :=
        arranged_congr (fun t ht => nextTo_concat_of_adrift hnone ht) fun _ _ => rfl
      simp only [List.append_nil] at hindex
      simp only [hindex, hany]
      rw [← hsame, hnext hforeign]
      simp

/-- The round of the patches after anchors: what has been counted are the statements after each
anchor. -/
theorem applyAfter_arranged {top bottom : List Stmt} {before : Anchored}
    (htop : Foreign former top) (hbottom : Foreign former bottom)
    (hbefore : Foreign former (before.map (·.1))) (more : Anchored)
    {done : Anchored} {dropped : List Stmt} {counts : List (NodeId × Nat)}
    (hforeign : Foreign former ((done ++ more).map (·.1)))
    (hcounts : ∀ s ∈ present, addedAfter counts s.id = (nextTo former done s).length) :
    applyAfter former counts more ⟨top ++ arranged former present before done ++ bottom, dropped⟩ =
      ⟨top ++ arranged former present before (done ++ more) ++ bottom,
        dropped ++ adrift former present more⟩ := by
  induction more generalizing done dropped counts with
  | nil => simp [applyAfter, adrift]
  | cons p more ih =>
    obtain ⟨x, anchor⟩ := p
    have hdone : Foreign former (done.map (·.1)) := fun s hs => hforeign s (by simp_all)
    have hjoin : done ++ [(x, anchor)] ++ more = done ++ (x, anchor) :: more := by simp
    have hnext := @ih (done ++ [(x, anchor)])
    simp only [hjoin] at hnext
    rw [applyAfter, adrift_cons]
    by_cases hany : present.any (isAnchor former anchor)
    · obtain ⟨s, hs, hanchor⟩ := List.any_eq_true.mp hany
      obtain ⟨left, right, rfl, hleft, hright⟩ := exists_split hnodup hs
      have hindex := anchorIndex?_arranged right bottom hanchor hleft htop hbefore hdone
      have hid : (((top ++ arranged former (left ++ s :: right) before done ++ bottom)[
          (inFront former top left s before done).length]?).map Stmt.id).getD 0 = s.id := by
        rw [arranged_eq_inFront]
        simp
      have hinsert := insertIdx_after x before done top bottom hanchor hleft hright
      simp only [hindex, hid, hcounts s hs, hinsert, hany, if_true]
      refine hnext hforeign fun t ht => ?_
      by_cases htid : t.id = s.id
      · have hself : isAnchor former anchor t = true := by simpa [isAnchor, htid] using hanchor
        have hsame : nextTo former done t = nextTo former done s := by simp [nextTo, isAnchor, htid]
        rw [nextTo_concat_self hself, hsame, htid]
        simp [addedAfter]
      · have hbeq : (t.id == s.id) = false := beq_false_of_ne htid
        rw [nextTo_concat_of_ne hanchor htid, ← hcounts t ht]
        simp [addedAfter, List.lookup_cons, hbeq]
    · have hnone : ∀ s ∈ present, isAnchor former anchor s = false := by simpa using hany
      have hindex := anchorIndex?_arranged_none hnone htop hbottom hbefore hdone
      have hsame : arranged former present before (done ++ [(x, anchor)]) =
          arranged former present before done :=
        arranged_congr (fun _ _ => rfl) fun t ht => nextTo_concat_of_adrift hnone ht
      simp only [hindex, hany]
      rw [← hsame, hnext hforeign fun t ht => by rw [nextTo_concat_of_adrift hnone ht, hcounts t ht]]
      simp

end Rounds

section Edits

theorem foldl_cons_eq (top ss : List Stmt) :
    top.foldl (fun stmts s => s :: stmts) ss = top.reverse ++ ss := by
  induction top generalizing ss with
  | nil => rfl
  | cons s top ih => simp [ih]

theorem arranged_nil (former present : List Stmt) : arranged former present [] [] = present := by
  simp [arranged, nextTo]

variable {former present : List Stmt} {edits : List Edit}

/-- The statements of the patches that edits ask for, round by round. -/
theorem patched_perm (edits : List Edit) :
    (edits.filterMap Edit.patched?).Perm
      (edits.filterMap Edit.atTop? ++ (edits.filterMap Edit.beforeAnchor?).map (·.1) ++
        (edits.filterMap Edit.afterAnchor?).map (·.1) ++ edits.filterMap Edit.atEnd?) := by
  induction edits with
  | nil => simp
  | cons e edits ih =>
    have hput : ∀ (s : Stmt) (left right : List Stmt),
        (edits.filterMap Edit.patched?).Perm (left ++ right) →
          (s :: edits.filterMap Edit.patched?).Perm (left ++ s :: right) :=
      fun s left right h => (h.cons s).trans List.perm_middle.symm
    simp only [List.append_assoc] at ih ⊢
    cases e with
    | prepend s => exact hput s [] _ ih
    | insertBefore s _ => exact hput s _ _ ih
    | insertAfter s _ =>
      rw [← List.append_assoc] at ih
      have h := hput s _ _ ih
      rw [List.append_assoc] at h
      exact h
    | append s =>
      rw [← List.append_assoc, ← List.append_assoc] at ih
      have h := hput s _ _ ih
      rw [List.append_assoc, List.append_assoc] at h
      exact h
    | _ => exact ih

variable (former)

/-- A patch with an anchor stands next to it, and only there, or is left over. -/
theorem nextTo_perm (hnodup : (present.map Stmt.id).Nodup) (ps : Anchored) :
    (present.flatMap (nextTo former ps) ++ adrift former present ps).Perm (ps.map (·.1)) := by
  induction ps with
  | nil => simp [nextTo, adrift]
  | cons p ps ih =>
    obtain ⟨x, anchor⟩ := p
    rw [adrift_cons]
    by_cases hany : present.any (isAnchor former anchor)
    · obtain ⟨s, hs, hanchor⟩ := List.any_eq_true.mp hany
      obtain ⟨left, right, rfl, hleft, hright⟩ := exists_split hnodup hs
      have hstay : ∀ ss : List Stmt, (∀ t ∈ ss, t.id ≠ s.id) →
          ss.flatMap (nextTo former ((x, anchor) :: ps)) = ss.flatMap (nextTo former ps) :=
        fun ss hss => List.flatMap_congr fun t ht => by
          simp [nextTo, isAnchor_eq_false_of_ne hanchor (hss t ht)]
      have hself : nextTo former ((x, anchor) :: ps) s = x :: nextTo former ps s := by
        simp [nextTo, hanchor]
      simp only [hany, if_true, List.flatMap_append, List.flatMap_cons, hstay left hleft,
        hstay right hright, hself, List.map_cons, List.append_assoc, List.cons_append] at ih ⊢
      exact List.perm_middle.trans (ih.cons x)
    · have hnone : ∀ s ∈ present, isAnchor former anchor s = false := by simpa using hany
      have hsame : present.flatMap (nextTo former ((x, anchor) :: ps)) =
          present.flatMap (nextTo former ps) :=
        List.flatMap_congr fun t ht => by simp [nextTo, hnone t ht]
      simp only [hany, hsame, List.map_cons]
      exact List.perm_middle.trans (ih.cons x)

variable (present) in
theorem arranged_perm (before after : Anchored) :
    (arranged former present before after).Perm
      (present.flatMap (nextTo former before) ++
        (present ++ present.flatMap (nextTo former after))) := by
  have hown := List.map_append_flatMap_perm present id (nextTo former after)
  rw [List.map_id] at hown
  exact (List.flatMap_append_perm present (nextTo former before) fun s =>
    s :: nextTo former after s).symm.trans (hown.symm.append_left _)

variable {former}

/-- No statement is lost and none comes twice. -/
theorem placed_perm (hnodup : (present.map Stmt.id).Nodup) (edits : List Edit) :
    ((placed former present edits).statements ++ (placed former present edits).dropped).Perm
      (present ++ edits.filterMap Edit.patched?) := by
  have hpatched := Multiset.coe_eq_coe.mpr (patched_perm edits)
  have hbefore := Multiset.coe_eq_coe.mpr
    (nextTo_perm former hnodup (edits.filterMap Edit.beforeAnchor?))
  have hafter := Multiset.coe_eq_coe.mpr
    (nextTo_perm former hnodup (edits.filterMap Edit.afterAnchor?))
  have harranged := Multiset.coe_eq_coe.mpr
    (arranged_perm former present (edits.filterMap Edit.beforeAnchor?)
      (edits.filterMap Edit.afterAnchor?))
  refine Multiset.coe_eq_coe.mp ?_
  simp only [placed, ← Multiset.coe_add, Multiset.coe_reverse] at *
  rw [hpatched, harranged, ← hbefore, ← hafter]
  abel

theorem subset_patched {f : Edit → Option Stmt}
    (hf : ∀ e s, f e = some s → e.patched? = some s) :
    edits.filterMap f ⊆ edits.filterMap Edit.patched? := fun s hs => by
  obtain ⟨e, he, heq⟩ := List.mem_filterMap.mp hs
  exact List.mem_filterMap.mpr ⟨e, he, hf e s heq⟩

/-- Patches put every statement where its edit says: those without an anchor at the top, the last
first, and at the end; the others around the statement that carries the identity of the first former
statement that their matcher accepts, in the order of their registration. Those without such a
statement are left over, and nothing is lost or comes twice. -/
theorem patchAgainst_placed (hnodup : (present.map Stmt.id).Nodup)
    (hapart : ∀ s ∈ edits.filterMap Edit.patched?, ∀ o ∈ former, o.id ≠ s.id) :
    let out := (edits.foldl Edit.patch .empty).patchAgainst former present
    out = placed former present edits ∧
      (out.statements ++ out.dropped).Perm (present ++ edits.filterMap Edit.patched?) := by
  obtain ⟨htop, hbefore, hend, hafter⟩ := foldl_patch_empty edits
  have hsub : ∀ ss ⊆ edits.filterMap Edit.patched?, Foreign former ss :=
    fun ss hss s hs => hapart s (hss hs)
  have htops : Foreign former (edits.filterMap Edit.atTop?).reverse :=
    hsub _ fun s hs => subset_patched (by rintro ⟨⟩ <;> simp [Edit.atTop?, Edit.patched?])
      (List.mem_reverse.mp hs)
  have hends : Foreign former (edits.filterMap Edit.atEnd?) :=
    hsub _ (subset_patched (by rintro ⟨⟩ <;> simp [Edit.atEnd?, Edit.patched?]))
  have hbefores : Foreign former ((edits.filterMap Edit.beforeAnchor?).map (·.1)) := by
    rw [List.map_filterMap]
    exact hsub _ (subset_patched (by rintro ⟨⟩ <;> simp [Edit.beforeAnchor?, Edit.patched?]))
  have hafters : Foreign former ((edits.filterMap Edit.afterAnchor?).map (·.1)) := by
    rw [List.map_filterMap]
    exact hsub _ (subset_patched (by rintro ⟨⟩ <;> simp [Edit.afterAnchor?, Edit.patched?]))
  have hfirst := @applyBefore_arranged _ _ hnodup _ htops (edits.filterMap Edit.beforeAnchor?)
    [] [] (by simpa using hbefores)
  have hsecond := @applyAfter_arranged _ _ hnodup _ _ _ htops hends hbefores
    (edits.filterMap Edit.afterAnchor?) [] (adrift former present (edits.filterMap Edit.beforeAnchor?))
    [] (by simpa using hafters) fun s _ => by simp [addedAfter, nextTo]
  have hout : (edits.foldl Edit.patch .empty).patchAgainst former present =
      placed former present edits := by
    simp only [List.nil_append, arranged_nil] at hfirst hsecond
    simp only [patchAgainst, htop, hbefore, hend, hafter, foldl_cons_eq, hfirst, hsecond, placed]
  exact ⟨hout, hout ▸ placed_perm hnodup edits⟩

/-- A statement that is told apart by its identity only. -/
def mark (id : NodeId) : Stmt := .empty ⟨id, default⟩

/-- Of three statements the first is gone. Around the second come two statements before and two
after it; what was to follow the first is left over. -/
theorem patchAgainst_placed_around :
    ([mark 1, mark 2].map Stmt.id).Nodup ∧
      let out := ([.insertAfter (mark 10) (·.id = 1), .insertBefore (mark 11) (·.id = 1),
          .append (mark 12), .insertAfter (mark 13) (·.id = 0), .prepend (mark 14),
          .insertAfter (mark 15) (·.id = 1), .insertBefore (mark 16) (·.id = 1),
          .prepend (mark 17)].foldl Edit.patch .empty).patchAgainst
        [mark 0, mark 1, mark 2] [mark 1, mark 2]
      out.statements.map Stmt.id = [17, 14, 11, 16, 1, 10, 15, 2, 12] ∧
        out.dropped.map Stmt.id = [13] := by
  have hnodup : ([mark 1, mark 2].map Stmt.id).Nodup := by decide
  refine ⟨hnodup, ?_⟩
  dsimp only
  rw [(patchAgainst_placed hnodup (by simp [Edit.patched?, mark, Stmt.id, Stmt.stamp])).1]
  exact ⟨rfl, rfl⟩

end Edits

end Patcher

end MacroEngine
