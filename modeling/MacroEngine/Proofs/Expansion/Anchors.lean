import MacroEngine.Proofs.Edits.Derives
import MacroEngine.Proofs.Expansion.Ending

/-!
# Anchors survive an expansion

The patches of a file look for their anchors among its statements as they were parsed, and find them
again by their identity. A walk visits the statements one after the other. What it puts in the place
of one carries the identity of that one, with statements beside it perhaps, unless the derives of a
class take it away; and patches only add. So a patch is dropped for one reason only: its anchor is a
class that is gone, or none.
-/

namespace MacroEngine

section Stamps

variable {g : ExpansionSetting}

theorem Stmt.stamp_mapChildren (f : ChildMap Walk) (s : Stmt) (st : Expansion) :
    ((s.mapChildren f).run st).1.stamp = s.stamp := by
  cases s with
  | binding _ _ _ init _ => cases init <;> rfl
  | ret _ value => cases value <;> rfl
  | ifElse _ _ _ alternative => cases alternative <;> rfl
  | _ => rfl

/-- A statement that is visited stays the same node. -/
theorem expandStmt_stamp (n : Nat) (s : Stmt) (st : Expansion) :
    ((expandStmt g n s).run st).1.stamp = s.stamp := by
  cases n with
  | zero => rfl
  | succ n => exact s.stamp_mapChildren _ st

end Stamps

namespace Patcher

variable {former : List Stmt}

/-- None of the statements carries the identity of the first former one that the patch accepts. -/
def Misses (former present : List Stmt) (p : Stmt × (Stmt → Bool)) : Prop :=
  ∀ o, former.find? p.2 = some o → ∀ s ∈ present, s.id ≠ o.id

theorem Misses.mono {present more : List Stmt} {p : Stmt × (Stmt → Bool)}
    (h : Misses former more p) (hsub : present ⊆ more) : Misses former present p :=
  fun o ho s hs => h o ho s (hsub hs)

theorem misses_of_anchorIndex? {present : List Stmt} {p : Stmt × (Stmt → Bool)}
    (h : anchorIndex? former p.2 present = none) : Misses former present p := by
  intro o ho s hs
  rw [anchorIndex?, ho, Option.bind_some] at h
  simpa using List.findIdx?_eq_none_iff.mp h s hs

/-- What a round of patches gives: no statement is lost, and those dropped miss their anchor. -/
structure Round (former : List Stmt) (ps : Anchored) (out out' : Patched) : Prop where
  kept : out.statements.Sublist out'.statements
  dropped : ∃ missed : Anchored, missed.Sublist ps ∧
    out'.dropped = out.dropped ++ missed.map (·.1) ∧ ∀ p ∈ missed, Misses former out.statements p

theorem Round.done (out : Patched) : Round former [] out out :=
  ⟨.refl _, [], .refl _, (List.append_nil _).symm, fun _ hp => absurd hp List.not_mem_nil⟩

theorem Round.put {p : Stmt × (Stmt → Bool)} {ps : Anchored} {out out' : Patched} {i : Nat}
    (h : Round former ps { out with statements := out.statements.insertIdx i p.1 } out') :
    Round former (p :: ps) out out' := by
  have hsub := List.sublist_insertIdx out.statements i p.1
  obtain ⟨missed, hmissed, hdropped, hmisses⟩ := h.dropped
  exact ⟨hsub.trans h.kept, missed, hmissed.cons p, hdropped,
    fun q hq => (hmisses q hq).mono hsub.subset⟩

theorem Round.drop {p : Stmt × (Stmt → Bool)} {ps : Anchored} {out out' : Patched}
    (hp : anchorIndex? former p.2 out.statements = none)
    (h : Round former ps { out with dropped := out.dropped ++ [p.1] } out') :
    Round former (p :: ps) out out' := by
  obtain ⟨missed, hmissed, hdropped, hmisses⟩ := h.dropped
  refine ⟨h.kept, p :: missed, hmissed.cons_cons p, by simp [hdropped], ?_⟩
  exact List.forall_mem_cons.mpr ⟨misses_of_anchorIndex? hp, hmisses⟩

theorem applyBefore_round (ps : Anchored) (out : Patched) :
    Round former ps out (applyBefore former ps out) := by
  induction ps generalizing out with
  | nil => exact .done out
  | cons p ps ih =>
    rw [applyBefore]
    split
    · exact .put (ih _)
    · rename_i hnone
      exact .drop hnone (ih _)

theorem applyAfter_round (counts : List (NodeId × Nat)) (ps : Anchored) (out : Patched) :
    Round former ps out (applyAfter former counts ps out) := by
  induction ps generalizing counts out with
  | nil => exact .done out
  | cons p ps ih =>
    rw [applyAfter]
    split
    · exact .put (ih _ _)
    · rename_i hnone
      exact .drop hnone (ih _ _)

/-- Patches add statements only, and a patch that is dropped has no anchor among the statements that
it is applied to. -/
theorem patchAgainst_round (p : Patcher) (former present : List Stmt) :
    Round former (anchored p.before ++ anchored p.after) ⟨present, []⟩
      (p.patchAgainst former present) := by
  let top := (free p.before).foldl (fun stmts s => s :: stmts) present
  let between := applyBefore former (anchored p.before) ⟨top, []⟩
  let extended : Patched := { between with statements := between.statements ++ free p.after }
  have hbefore : Round former (anchored p.before) ⟨top, []⟩ between := applyBefore_round _ _
  have hafter : Round former (anchored p.after) extended (p.patchAgainst former present) :=
    applyAfter_round [] _ _
  have htop : present.Sublist top := by
    rw [show top = (free p.before).reverse ++ present from foldl_cons_eq _ _]
    exact List.sublist_append_right _ _
  have hextended : present.Sublist extended.statements :=
    (htop.trans hbefore.kept).trans (List.sublist_append_left _ _)
  obtain ⟨missed, hmissed, hdropped, hmisses⟩ := hbefore.dropped
  obtain ⟨missed', hmissed', hdropped', hmisses'⟩ := hafter.dropped
  refine ⟨hextended.trans hafter.kept, missed ++ missed', hmissed.append hmissed', ?_,
    fun q hq => ?_⟩
  · rw [hdropped', show extended.dropped = [] ++ missed.map (·.1) from hdropped]
    simp
  · rcases List.mem_append.mp hq with hq | hq
    · exact (hmisses q hq).mono htop.subset
    · exact (hmisses' q hq).mono hextended.subset

theorem length_dropped_le (p : Patcher) (former present : List Stmt) :
    (p.patchAgainst former present).dropped.length ≤ p.size := by
  obtain ⟨missed, hmissed, hdropped, -⟩ := (p.patchAgainst_round former present).dropped
  rw [hdropped, List.nil_append, List.length_map, size]
  refine hmissed.length_le.trans ?_
  rw [List.length_append]
  exact Nat.add_le_add (List.length_filterMap_le _ _) (List.length_filterMap_le _ _)

end Patcher

namespace Expansion

variable {g : ExpansionSetting}

/-- A class that its derives take away when a walk comes to it. A walk comes to a statement with
nothing beside it. -/
def elides (g : ExpansionSetting) (st : Expansion) (s : Stmt) : Bool :=
  s.isDerivedClass &&
    ((expandClass g s).run { st with beside := .empty }).1.toOption.any Option.isNone

/-- The statement itself, or what its derives made of it, stands in its place. -/
theorem derivedEntry_kept {s : Stmt} {st : Expansion} (hkept : elides g st s = false)
    (hhalted : ((derivedEntry g s).run { st with beside := .empty }).2.halted = none) :
    ∃ t, ((derivedEntry g s).run { st with beside := .empty }).1 = some t ∧ t.id = s.id := by
  rw [derivedEntry, run_ite] at hhalted ⊢
  split at hhalted
  · rename_i hderived
    rw [if_pos hderived]
    have hstamp (t : Stmt)
        (h : ((expandClass g s).run { st with beside := .empty }).1 = .ok (some t)) :=
      expandClass_stamp h
    rw [elides, hderived, Bool.true_and] at hkept
    rw [run_bind] at hhalted ⊢
    generalize (expandClass g s).run { st with beside := .empty } = out at *
    obtain ⟨err | _ | t, st'⟩ := out
    · exact absurd hhalted (halt_halted err none st')
    · cases hkept
    · exact ⟨t, rfl, congrArg Stamp.id (hstamp t rfl)⟩
  · rename_i hnot
    rw [if_neg hnot]
    exact ⟨s, rfl, rfl⟩

/-- In the place of a statement that is not taken away stands one of its identity. -/
theorem expandEntry_kept {n : Nat} {s : Stmt} {st : Expansion} (hkept : elides g st s = false)
    (hhalted : ((expandEntry g (expandStmt g n) s).run st).2.halted = none) :
    [s.id].Sublist (((expandEntry g (expandStmt g n) s).run st).1.map Stmt.id) := by
  rw [expandEntry, run_unless_halted] at hhalted ⊢
  split at hhalted
  · rename_i hs
    rw [Option.isSome_iff_ne_none] at hs
    exact absurd hhalted hs
  · rename_i hs
    rw [if_neg hs]
    have hvisit : ((derivedEntry g s >>= visitKept (expandStmt g n)).run
        { st with beside := .empty }).2.halted = none := hhalted
    have hawake := ((expand_sound (g := g) n).onStmt)
    have hentry : ((derivedEntry g s).run { st with beside := .empty }).2.halted = none := by
      rw [run_bind] at hvisit
      cases hout : ((derivedEntry g s).run { st with beside := .empty }).1 with
      | none =>
        rw [hout] at hvisit
        exact hvisit
      | some t =>
        rw [hout] at hvisit
        exact (hawake t).awake _ hvisit
    obtain ⟨t, ht, hid⟩ := derivedEntry_kept hkept hentry
    have hleft : ∃ st', ((derivedEntry g s >>= visitKept (expandStmt g n)).run
        { st with beside := .empty }).1 = [((expandStmt g n t).run st').1] :=
      ⟨((derivedEntry g s).run { st with beside := .empty }).2, by rw [run_bind, ht]; rfl⟩
    obtain ⟨st', hleft⟩ := hleft
    have hsame : ((expandStmt g n t).run st').1.id = s.id :=
      (congrArg Stamp.id (expandStmt_stamp n t st')).trans hid
    simp only [withBeside, run_bind, run_get, run_modify, run_pure] at hleft ⊢
    rw [hleft, List.map_append, List.map_append, List.map_singleton, hsame]
    exact (List.sublist_append_right _ _).trans (List.sublist_append_left _ _)

/-- A list is visited up to a statement, and then on from there. -/
theorem run_expandStmts_append (n : Nat) (ss more : List Stmt) (st : Expansion) :
    (expandStmts g (n + 1) (ss ++ more)).run st =
      (((expandStmts g (n + 1) ss).run st).1 ++
          ((expandStmts g (n + 1) more).run ((expandStmts g (n + 1) ss).run st).2).1,
        ((expandStmts g (n + 1) more).run ((expandStmts g (n + 1) ss).run st).2).2) := by
  simp only [expandStmts, List.mapM_append, run_bind, run_pure, bind_assoc, pure_bind,
    List.flatten_append]

theorem run_expandStmts_singleton (n : Nat) (s : Stmt) (st : Expansion) :
    (expandStmts g (n + 1) [s]).run st = (expandEntry g (expandStmt g n) s).run st := by
  simp only [expandStmts, List.mapM_cons, List.mapM_nil, run_bind, run_pure, List.flatten_cons,
    List.flatten_nil, List.append_nil]
  rfl

end Expansion

open Expansion

namespace SourceFile

variable (file : SourceFile) (registry : Registry) (config : Config) (shop : Workshop)
  (hooks : HookCache) (depth : Nat)

/-- The walk through a file when the statements `done` are behind it. -/
def walkTo (done : List Stmt) : Expansion :=
  ((expandStmts (file.setting registry config) depth done).run (.start shop hooks)).2

def isElided (done : List Stmt) (s : Stmt) : Bool :=
  elides (file.setting registry config) (file.walkTo registry config shop hooks depth done) s

def remaining (done : List Stmt) : List Stmt → List Stmt
  | [] => []
  | s :: more =>
    (if file.isElided registry config shop hooks depth done s then [] else [s]) ++
      remaining (done ++ [s]) more

theorem mem_remaining {done before more : List Stmt} {s : Stmt}
    (h : file.isElided registry config shop hooks depth (done ++ before) s = false) :
    s ∈ file.remaining registry config shop hooks depth done (before ++ s :: more) := by
  induction before generalizing done with
  | nil =>
    rw [List.append_nil] at h
    rw [List.nil_append, remaining, h]
    exact List.mem_append_left _ List.mem_cons_self
  | cons t before ih =>
    rw [List.cons_append, remaining]
    exact List.mem_append_right _ (ih (by simpa using h))

variable {file registry config shop hooks depth}

/-- The identities of the statements that are not taken away, in the file when they are visited. -/
theorem remaining_sublist {n : Nat} (done more : List Stmt)
    (hhalted : (file.walkTo registry config shop hooks (n + 1) (done ++ more)).halted = none) :
    ((file.remaining registry config shop hooks (n + 1) done more).map Stmt.id).Sublist
      (((expandStmts (file.setting registry config) (n + 1) more).run
        (file.walkTo registry config shop hooks (n + 1) done)).1.map Stmt.id) := by
  -- along the statements to come: whether a class goes depends on the walk through those behind
  induction more generalizing done with
  | nil => exact List.nil_sublist _
  | cons s more ih =>
    rw [← List.singleton_append, ← List.append_assoc] at hhalted
    have hmore := ih (done ++ [s]) hhalted
    let g := file.setting registry config
    have hnext : file.walkTo registry config shop hooks (n + 1) (done ++ [s]) =
        ((expandEntry g (expandStmt g n) s).run
          (file.walkTo registry config shop hooks (n + 1) done)).2 := by
      rw [walkTo, run_expandStmts_append, run_expandStmts_singleton]
      rfl
    have hawake : (file.walkTo registry config shop hooks (n + 1) (done ++ [s])).halted = none := by
      rw [walkTo, run_expandStmts_append] at hhalted
      exact ((expand_sound (n + 1)).onStmts more).awake _ hhalted
    rw [← List.singleton_append, run_expandStmts_append, run_expandStmts_singleton, ← hnext,
      List.singleton_append, remaining, List.map_append, List.map_append]
    refine List.Sublist.append ?_ hmore
    cases helided : file.isElided registry config shop hooks (n + 1) done s with
    | true => exact List.nil_sublist _
    | false => exact expandEntry_kept helided (hnext ▸ hawake)

/-- The statements of a file that are not taken away are there when the walk has ended. -/
theorem remaining_walk
    (hhalted : (file.walk registry config shop hooks depth).2.halted = none) :
    ((file.remaining registry config shop hooks depth [] file.statements).map Stmt.id).Sublist
      ((file.walk registry config shop hooks depth).1.map Stmt.id) := by
  cases depth with
  | zero => exact absurd hhalted (halt_halted _ _ _)
  | succ n => exact remaining_sublist [] file.statements hhalted

/-- A patch that misses its anchor among the statements when the walk has ended was to stand next to
a class that is gone, or accepts no statement. -/
theorem isElided_of_misses
    (hhalted : (file.walk registry config shop hooks depth).2.halted = none)
    {p : Stmt × (Stmt → Bool)} {done more : List Stmt} {o : Stmt}
    (hmiss : Patcher.Misses file.statements (file.walk registry config shop hooks depth).1 p)
    (hsplit : file.statements = done ++ o :: more) (hdone : ∀ s ∈ done, p.2 s = false)
    (ho : p.2 o = true) : file.isElided registry config shop hooks depth done o = true := by
  have hfind : file.statements.find? p.2 = some o := by
    have hnone : done.find? p.2 = none := List.find?_eq_none.mpr fun s hs => by simp [hdone s hs]
    rw [hsplit, List.find?_append, hnone, List.find?_cons, ho]
    rfl
  refine Bool.of_not_eq_false fun hkept => ?_
  have hmem : o ∈ file.remaining registry config shop hooks depth [] file.statements := by
    rw [hsplit]
    exact file.mem_remaining registry config shop hooks depth hkept
  obtain ⟨s, hs, hid⟩ := List.mem_map.mp
    ((remaining_walk hhalted).subset (List.mem_map_of_mem hmem))
  exact hmiss o hfind s hs hid

variable (file registry config shop hooks depth)

/-- The patches that find no anchor when the walk through a file has ended. -/
def stray : List Stmt :=
  let walked := file.walk registry config shop hooks depth
  (walked.2.patcher.patchAgainst file.statements walked.1).dropped

end SourceFile

/-- The statements of a file are all there after an expansion, in their order and by their identity,
but for classes that their derives took away. A patch is dropped only if the first statement that it
accepts is such a class, or if it accepts none; all others are added and counted. If a dropped patch
is an error, then it is the only one that can follow a walk without errors. -/
theorem expand_keeps_anchors (file : SourceFile) (registry : Registry) (config : Config)
    (shop : Workshop) (hooks : HookCache) (depth : Nat) :
    let walked := file.walk registry config shop hooks depth
    let out := file.expand registry config depth shop hooks
    let dropped := file.stray registry config shop hooks depth
    (∀ counts, out.outcome = .ok counts →
      ((file.remaining registry config shop hooks depth [] file.statements).map Stmt.id).Sublist
          (out.file.statements.map Stmt.id) ∧
        (∃ missed : List (Stmt × (Stmt → Bool)),
          missed.Sublist (Patcher.anchored walked.2.patcher.before ++
              Patcher.anchored walked.2.patcher.after) ∧
            dropped = missed.map (·.1) ∧
            ∀ p ∈ missed, ∀ done o more, file.statements = done ++ o :: more →
              (∀ s ∈ done, p.2 s = false) → p.2 o = true →
              file.isElided registry config shop hooks depth done o = true) ∧
        counts.patches + dropped.length = walked.2.patcher.size) ∧
      (walked.2.halted = none → config.unmatchedAnchor = .fail → ∀ err,
        out.outcome = .error err ↔
          dropped ≠ [] ∧ err = .unresolvedAnchors file.path dropped.length) := by
  intro walked out dropped
  refine ⟨fun counts hok => ?_, fun hhalted hfail err => ?_⟩
  · have hhalted : walked.2.halted = none := SourceFile.halted_of_conclude_ok hok
    obtain ⟨hstatements, hpatches, -⟩ := SourceFile.conclude_of_awake file config hhalted
    obtain ⟨hkept, missed, hmissed, hdropped, hmisses⟩ :=
      walked.2.patcher.patchAgainst_round file.statements walked.1
    refine ⟨?_, ⟨missed, hmissed, hdropped, fun p hp done o more hsplit hdone ho => ?_⟩, ?_⟩
    · rw [show out.file.statements = _ from hstatements]
      exact (SourceFile.remaining_walk hhalted).trans (hkept.map Stmt.id)
    · exact SourceFile.isElided_of_misses hhalted (hmisses p hp) hsplit hdone ho
    · rw [hpatches counts hok]
      exact Nat.sub_add_cancel (Patcher.length_dropped_le _ _ _)
  · obtain ⟨-, -, herror⟩ := SourceFile.conclude_of_awake file config hhalted
    exact (herror err).trans (and_congr_right fun _ => and_iff_right hfail)

section Stray

/-- The file `class A derives Gone {} ;`, of a class and one more statement. -/
def strayFile : SourceFile :=
  ⟨0, default, [.classDecl ⟨10, default⟩ ⟨"A", ["Gone"], .internal⟩ [], Patcher.mark 11], default⟩

def strayRegistry : Registry :=
  { Registry.empty with derives := [("Gone", goneDeclaration)] }

/-- The macro takes the class away. One of its patches is to follow the class, the other to come
before the statement behind the class. -/
def strayHooks : HookCache :=
  ⟨.new ⟨[], none⟩, [(1, ⟨[fun _ => return [.insertAfter (Patcher.mark 20) (·.id = 10),
    .insertBefore (Patcher.mark 21) (·.id = 11), .remove]], []⟩)]⟩

/-- The patch whose anchor is gone is dropped, and the other one stands next to its own. If dropped
patches are errors, then this is the error. -/
theorem expand_keeps_anchors_stray :
    ((strayFile.expand strayRegistry .standard 5 ⟨30, 0, []⟩ strayHooks).outcome = .ok ⟨0, 1, 1⟩ ∧
        ([Patcher.mark 11].map Stmt.id).Sublist
          ((strayFile.expand strayRegistry .standard 5 ⟨30, 0, []⟩ strayHooks).file.statements.map
            Stmt.id) ∧
        1 + (strayFile.stray strayRegistry .standard ⟨30, 0, []⟩ strayHooks 5).length = 2 ∧
        strayFile.stray strayRegistry .standard ⟨30, 0, []⟩ strayHooks 5 = [Patcher.mark 20]) ∧
      (strayFile.expand strayRegistry { Config.standard with unmatchedAnchor := .fail } 5
          ⟨30, 0, []⟩ strayHooks).outcome = .error (.unresolvedAnchors default 1) := by
  have hok : (strayFile.expand strayRegistry .standard 5 ⟨30, 0, []⟩ strayHooks).outcome =
    .ok ⟨0, 1, 1⟩ := rfl
  have hstray : strayFile.stray strayRegistry .standard ⟨30, 0, []⟩ strayHooks 5 =
    [Patcher.mark 20] := rfl
  obtain ⟨hkept, -, hcount⟩ := (expand_keeps_anchors strayFile strayRegistry .standard ⟨30, 0, []⟩
    strayHooks 5).1 _ hok
  have hfails := (expand_keeps_anchors strayFile strayRegistry
    { Config.standard with unmatchedAnchor := .fail } ⟨30, 0, []⟩ strayHooks 5).2 rfl rfl
  exact ⟨⟨hok, hkept, hcount, hstray⟩, (hfails _).mpr ⟨List.cons_ne_nil _ _, rfl⟩⟩

end Stray

end MacroEngine
