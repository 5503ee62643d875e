import MacroEngine.Proofs.Expansion.Visits
import Mathlib.Data.List.InsertIdx

/-!
# Which bound sites of an expanded file ran

A walk visits a site where it stands, and a replacement where it is put. So every bound site of the
expanded file ran, with two exceptions. What hooks put beside a site, or among the patches of the
file, is not visited, whatever bound sites it holds. And a node that is bound as a site of both
kinds runs as one of them only. `expand_ran_iff` says that there are no others.
-/

namespace MacroEngine

namespace Expansion

variable {g : ExpansionSetting}

def additions (p : Patcher) : List Stmt := (p.before ++ p.after).map (·.stmt)

theorem mem_applyBefore {former : List Stmt} {more : List (Stmt × (Stmt → Bool))} {out : Patched}
    {s : Stmt} (h : s ∈ (Patcher.applyBefore former more out).statements) :
    s ∈ out.statements ∨ s ∈ more.map (·.1) := by
  induction more generalizing out with
  | nil => exact .inl h
  | cons p more ih =>
    obtain ⟨s', anchor⟩ := p
    unfold Patcher.applyBefore at h
    split at h
    · rcases ih h with hs | hs
      · rcases List.eq_or_mem_of_mem_insertIdx hs with rfl | hs
        · exact .inr (by simp)
        · exact .inl hs
      · exact .inr (List.mem_cons_of_mem _ hs)
    · exact (ih h).imp_right (List.mem_cons_of_mem _)

theorem mem_applyAfter {former : List Stmt} {counts : List (NodeId × Nat)}
    {more : List (Stmt × (Stmt → Bool))} {out : Patched} {s : Stmt}
    (h : s ∈ (Patcher.applyAfter former counts more out).statements) :
    s ∈ out.statements ∨ s ∈ more.map (·.1) := by
  induction more generalizing out counts with
  | nil => exact .inl h
  | cons p more ih =>
    obtain ⟨s', anchor⟩ := p
    unfold Patcher.applyAfter at h
    split at h
    · rcases ih h with hs | hs
      · rcases List.eq_or_mem_of_mem_insertIdx hs with rfl | hs
        · exact .inr (by simp)
        · exact .inl hs
      · exact .inr (List.mem_cons_of_mem _ hs)
    · exact (ih h).imp_right (List.mem_cons_of_mem _)

theorem mem_of_mem_free {ps : List Patch} {s : Stmt} (h : s ∈ Patcher.free ps) :
    s ∈ ps.map (·.stmt) := by
  obtain ⟨p, hp, rfl⟩ := List.mem_map.mp h
  exact List.mem_map_of_mem (List.mem_filter.mp hp).1

theorem mem_of_mem_anchored {ps : List Patch} {s : Stmt}
    (h : s ∈ (Patcher.anchored ps).map (·.1)) : s ∈ ps.map (·.stmt) := by
  obtain ⟨⟨s', anchor⟩, hp, rfl⟩ := List.mem_map.mp h
  obtain ⟨p, hmem, heq⟩ := List.mem_filterMap.mp hp
  obtain ⟨a, -, heq⟩ := Option.map_eq_some_iff.mp heq
  obtain ⟨rfl, rfl⟩ := Prod.mk.inj heq
  exact List.mem_map_of_mem hmem

theorem mem_foldl_cons {ss top : List Stmt} {s : Stmt}
    (h : s ∈ top.foldl (fun stmts s => s :: stmts) ss) : s ∈ ss ∨ s ∈ top := by
  induction top generalizing ss with
  | nil => exact .inl h
  | cons t top ih =>
    rcases ih h with hs | hs
    · rcases List.mem_cons.mp hs with rfl | hs
      · exact .inr List.mem_cons_self
      · exact .inl hs
    · exact .inr (List.mem_cons_of_mem _ hs)

/-- Patches add their own statements and no others. -/
theorem mem_patchAgainst {p : Patcher} {former ss : List Stmt} {s : Stmt}
    (h : s ∈ (p.patchAgainst former ss).statements) : s ∈ ss ∨ s ∈ additions p := by
  have hbefore : s ∈ p.before.map (·.stmt) → s ∈ additions p := fun hs => by
    simp only [additions, List.map_append]
    exact List.mem_append_left _ hs
  have hafter : s ∈ p.after.map (·.stmt) → s ∈ additions p := fun hs => by
    simp only [additions, List.map_append]
    exact List.mem_append_right _ hs
  rcases mem_applyAfter h with hs | hs
  · rcases List.mem_append.mp hs with hs | hs
    · rcases mem_applyBefore hs with hs | hs
      · exact (mem_foldl_cons hs).imp_right fun hs => hbefore (mem_of_mem_free hs)
      · exact .inr (hbefore (mem_of_mem_anchored hs))
    · exact .inr (hafter (mem_of_mem_free hs))
  · exact .inr (hafter (mem_of_mem_anchored hs))

/-- The statements that hooks added in a walk, beside sites and classes or as patches. -/
def added (st : Expansion) : List Stmt := besides st.runs ++ additions st.patcher

def Bound (registry : Registry) (e : Expr) (d : Declaration) : Prop :=
  ∃ kind name, e.useSite? = some (kind, name) ∧ registry.binding? kind e.id = some d

def RanOtherwise (runs : List HookRun) (e : Expr) : Prop :=
  ∃ d e' beside, .site d e' beside ∈ runs ∧ e'.id = e.id ∧
    e'.useSite?.map Prod.fst ≠ e.useSite?.map Prod.fst

theorem governing?_eq_some_iff {e : Expr} {d : Declaration} :
    governing? g e = some d ↔ Bound g.registry e d := by
  simp only [governing?, Option.bind_eq_some_iff, Bound, Prod.exists]

/-- A bound site whose identity ran was run under its own declaration, or as a site of another
kind. -/
theorem Ran.governed {st : Expansion} (ho : Orderly g st) {e : Expr} {d d' : Declaration}
    (hd : governing? g e = some d) (hran : Ran st.runs d' e.id) :
    Ran st.runs d e.id ∨ RanOtherwise st.runs e := by
  obtain ⟨e', b, hmem, hid⟩ := hran
  by_cases hkind : e'.useSite?.map Prod.fst = e.useSite?.map Prod.fst
  · have hd' := ho.governed d' e' b hmem
    have hsame : ∀ e, governing? g e =
        (e.useSite?.map Prod.fst).bind fun kind => g.registry.binding? kind e.id := by
      intro e
      rw [governing?, Option.bind_map]
      rfl
    rw [hsame, hkind, hid, ← hsame, hd] at hd'
    obtain rfl : d = d' := Option.some.inj hd'
    exact .inl ⟨e', b, hmem, hid⟩
  · exact .inr ⟨d', e', b, hmem, hid, hkind⟩

theorem mem_itemsAll {ss : List Stmt} {i : Item} :
    i ∈ Stmt.itemsAll true ss ↔ ∃ s ∈ ss, i ∈ s.items true := by
  rw [Stmt.itemsAll_eq_flatMap, List.mem_flatMap]

/-- Patches are applied, and those that find no anchor are left to the policy. -/
theorem applyPatches_eq (file : FileView) (policy : MissPolicy) (p : Patcher) (ss : List Stmt) :
    applyPatches file policy p ss =
      let out := p.patchAgainst file.statements ss
      (out.statements, p.size - out.dropped.length,
        if out.dropped.length = 0 then .ok []
        else policy.apply (.unresolvedAnchors file.path out.dropped.length)) := by
  unfold applyPatches
  split
  · rename_i hempty
    obtain ⟨before, after⟩ := p
    rw [Patcher.isEmpty, Bool.and_eq_true, List.isEmpty_iff, List.isEmpty_iff] at hempty
    obtain ⟨rfl, rfl⟩ := hempty
    simp [Patcher.patchAgainst, Patcher.free, Patcher.anchored, Patcher.applyBefore,
      Patcher.applyAfter, Patcher.size]
  · rfl

theorem mem_applyPatches (file : FileView) (policy : MissPolicy) (p : Patcher) (ss : List Stmt)
    (s : Stmt) (h : s ∈ (applyPatches file policy p ss).1) : s ∈ ss ∨ s ∈ additions p := by
  rw [applyPatches_eq] at h
  exact mem_patchAgainst h

end Expansion

theorem MissPolicy.apply_eq_error_iff {policy : MissPolicy} {e err : Error} :
    policy.apply e = .error err ↔ policy = .fail ∧ err = e := by
  cases policy <;> simp [apply, eq_comm]

open Expansion

section File

namespace SourceFile

variable (file : SourceFile) (registry : Registry) (config : Config) (shop : Workshop)
  (hooks : HookCache)

def setting : ExpansionSetting :=
  ⟨⟨file.path, file.statements⟩, registry, config.unresolvedDerive⟩

def walk (depth : Nat) : List Stmt × Expansion :=
  (expandStmts (file.setting registry config) depth file.statements).run (.start shop hooks)

def conclude (walked : List Stmt × Expansion) : Expanded :=
  match walked.2.halted with
  | some e => ⟨{ file with statements := walked.1 }, .error e, walked.2⟩
  | none =>
    match applyPatches ⟨file.path, file.statements⟩ config.unmatchedAnchor walked.2.patcher
      walked.1 with
    | (statements, added, outcome) =>
      match outcome with
      | .error e => ⟨{ file with statements }, .error e, walked.2⟩
      | .ok warnings =>
        ⟨{ file with statements }, .ok ⟨walked.2.siteCount, walked.2.classCount, added⟩,
          { walked.2 with warnings := walked.2.warnings ++ warnings }⟩

theorem expand_eq_conclude (depth : Nat) : file.expand registry config depth shop hooks =
    file.conclude config (file.walk registry config shop hooks depth) := rfl

variable {file config} {walked : List Stmt × Expansion}

theorem conclude_of_halted {e : Error} (h : walked.2.halted = some e) :
    file.conclude config walked = ⟨{ file with statements := walked.1 }, .error e, walked.2⟩ := by
  rw [conclude, h]

theorem conclude_of_patched (h : walked.2.halted = none)
    {patched : List Stmt × Nat × Except Error (List String)}
    (hpatched : applyPatches ⟨file.path, file.statements⟩ config.unmatchedAnchor walked.2.patcher
      walked.1 = patched) :
    file.conclude config walked =
      match patched.2.2 with
      | .error e => ⟨{ file with statements := patched.1 }, .error e, walked.2⟩
      | .ok warnings => ⟨{ file with statements := patched.1 },
          .ok ⟨walked.2.siteCount, walked.2.classCount, patched.2.1⟩,
          { walked.2 with warnings := walked.2.warnings ++ warnings }⟩ := by
  obtain ⟨_, _, outcome⟩ := patched
  cases outcome <;> simp only [conclude, h, hpatched]

/-- An expansion that ends without an error met none on its walk. -/
theorem halted_of_conclude_ok {counts : ExpansionCounts}
    (h : (file.conclude config walked).outcome = .ok counts) : walked.2.halted = none := by
  cases hhalted : walked.2.halted with
  | none => rfl
  | some e =>
    rw [conclude_of_halted hhalted] at h
    cases h

theorem runs_conclude : (file.conclude config walked).final.runs = walked.2.runs := by
  unfold conclude
  split
  · rfl
  · dsimp only
    split <;> rfl

/-- What an expansion comes to when its walk met no error. -/
theorem conclude_of_awake (file : SourceFile) (config : Config) (h : walked.2.halted = none) :
    let patched := walked.2.patcher.patchAgainst file.statements walked.1
    let out := file.conclude config walked
    out.file.statements = patched.statements ∧
      (∀ counts, out.outcome = .ok counts →
        counts.patches = walked.2.patcher.size - patched.dropped.length) ∧
      ∀ err, out.outcome = .error err ↔ patched.dropped ≠ [] ∧ config.unmatchedAnchor = .fail ∧
        err = .unresolvedAnchors file.path patched.dropped.length := by
  intro patched out
  have hverdict (err : Error) : (if patched.dropped.length = 0 then Except.ok []
      else config.unmatchedAnchor.apply (.unresolvedAnchors file.path patched.dropped.length)) =
        .error err ↔ patched.dropped ≠ [] ∧ config.unmatchedAnchor = .fail ∧
          err = .unresolvedAnchors file.path patched.dropped.length := by
    rw [← MissPolicy.apply_eq_error_iff, ne_eq, ← List.length_eq_zero_iff]
    split <;> simp [*]
  have hout : out = _ := conclude_of_patched h (applyPatches_eq _ _ _ _)
  simp only [hout, ← hverdict]
  split <;> rename_i verdict heq <;> rw [show (if patched.dropped.length = 0 then _ else _) = _ from heq]
  · exact ⟨rfl, nofun, fun err => by rw [Except.error.injEq, Except.error.injEq]⟩
  · refine ⟨rfl, fun counts hcounts => ?_, fun err => ⟨nofun, nofun⟩⟩
    rw [← Except.ok.inj hcounts]

end SourceFile

variable {file : SourceFile} {registry : Registry} {config : Config} {depth : Nat}
  {shop : Workshop} {hooks : HookCache} {counts : ExpansionCounts}

/-- What an expansion without an error consists of: a walk, and the patches that it collected. -/
theorem expand_of_ok (hok : (file.expand registry config depth shop hooks).outcome = .ok counts) :
    ∃ g : ExpansionSetting, g.registry = registry ∧
      ∃ walked : List Stmt × Expansion,
        (expandStmts g depth file.statements).run (.start shop hooks) = walked ∧
        walked.2.halted = none ∧
        (file.expand registry config depth shop hooks).final.runs = walked.2.runs ∧
        (file.expand registry config depth shop hooks).final.patcher = walked.2.patcher ∧
        ∀ s ∈ (file.expand registry config depth shop hooks).file.statements,
          s ∈ walked.1 ∨ s ∈ additions walked.2.patcher := by
  refine ⟨file.setting registry config, rfl, file.walk registry config shop hooks depth, rfl, ?_⟩
  rw [file.expand_eq_conclude, SourceFile.conclude] at hok ⊢
  generalize file.walk registry config shop hooks depth = walked at hok ⊢
  cases hhalted : walked.2.halted with
  | some e => simp [hhalted] at hok
  | none =>
    simp only [hhalted] at hok ⊢
    have hmem := mem_applyPatches ⟨file.path, file.statements⟩ config.unmatchedAnchor
      walked.2.patcher walked.1
    generalize applyPatches ⟨file.path, file.statements⟩ config.unmatchedAnchor
      walked.2.patcher walked.1 = out at *
    obtain ⟨patched, added, outcome⟩ := out
    cases outcome with
    | error e => exact absurd hok (by simp)
    | ok warnings => exact ⟨trivial, rfl, rfl, hmem⟩

/-- Every bound site of a file that was expanded ran, or stands in a statement that hooks added, or
ran as a site of another kind. -/
theorem expand_ran (hok : (file.expand registry config depth shop hooks).outcome = .ok counts)
    {e : Expr} {d : Declaration}
    (he : .expr e ∈ (file.expand registry config depth shop hooks).file.items)
    (hd : Bound registry e d) :
    Ran (file.expand registry config depth shop hooks).final.runs d e.id ∨
      StandsIn (added (file.expand registry config depth shop hooks).final) e ∨
      RanOtherwise (file.expand registry config depth shop hooks).final.runs e := by
  obtain ⟨g, rfl, walked, hwalked, hhalted, hruns, hpatcher, hmem⟩ := expand_of_ok hok
  have hsound := (expand_sound (g := g) depth).onStmts file.statements
  have hstart : Orderly g (.start shop hooks) :=
    ⟨fun _ h => absurd h (by simp [Expansion.start]),
      fun _ h => absurd h (by simp [Expansion.start, Beside.empty]),
      fun _ _ _ h => absurd h (by simp [Expansion.start])⟩
  have hstep := hsound.step _ hstart
  have hsettled := hsound.answer _ hstart
  rw [hwalked] at hstep hsettled
  have hgoverned := governing?_eq_some_iff.mpr hd
  rw [hruns, added, hruns, hpatcher]
  obtain ⟨s, hs, hes⟩ := mem_itemsAll.mp he
  rcases hmem s hs with hs | hs
  · have hes' : .expr e ∈ Stmt.itemsAll true walked.1 := mem_itemsAll.mpr ⟨s, hs, hes⟩
    rcases hsettled hhalted _ (fun _ h => h) e hes' with hnone | ⟨d', hran⟩ | hstands
    · rw [hgoverned] at hnone
      exact absurd hnone (by simp)
    · rcases hran.governed (hstep hhalted).orderly hgoverned with hran | hother
      · exact .inl hran
      · exact .inr (.inr hother)
    · exact .inr (.inl (hstands.mono (List.subset_append_left _ _)))
  · exact .inr (.inl ⟨s, List.mem_append_right _ hs, hes⟩)

/-- Every bound site of a file that was expanded ran, if and only if those did that stand in
statements that hooks added, and those whose identity ran as a site of another kind. -/
theorem expand_ran_iff
    (hok : (file.expand registry config depth shop hooks).outcome = .ok counts) :
    (∀ e d, .expr e ∈ (file.expand registry config depth shop hooks).file.items →
        Bound registry e d →
        Ran (file.expand registry config depth shop hooks).final.runs d e.id) ↔
      ∀ e d, .expr e ∈ (file.expand registry config depth shop hooks).file.items →
        Bound registry e d →
        StandsIn (added (file.expand registry config depth shop hooks).final) e ∨
          RanOtherwise (file.expand registry config depth shop hooks).final.runs e →
        Ran (file.expand registry config depth shop hooks).final.runs d e.id := by
  constructor
  · intro h e d he hd _
    exact h e d he hd
  · intro h e d he hd
    rcases expand_ran hok he hd with hran | hexception
    · exact hran
    · exact h e d he hd hexception

end File

section Hoisting

/-- A macro that puts its argument at the top of the file. -/
def hoistDeclaration : Declaration := ⟨1, .function, "hoist", .function false, default, default⟩

def keepDeclaration : Declaration := ⟨2, .function, "keep", .function false, default, default⟩

def keptSite : Expr := .invoke ⟨11, default⟩ "keep" []

def hoistRegistry : Registry :=
  { Registry.empty with bindings :=
      [((.function, 10), hoistDeclaration), ((.function, 11), keepDeclaration)] }

/-- The file `hoist!(keep!());`, expanded. -/
def hoisted : Expanded :=
  SourceFile.expand ⟨0, default, [.expr default (.invoke ⟨10, default⟩ "hoist" [keptSite])], default⟩
    hoistRegistry .standard 5 ⟨20, 0, []⟩
    ⟨.new ⟨[], none⟩, [(1, ⟨[fun view => return match view.node.args? with
      | some (arg :: _) => [.prepend (.expr default arg), .replace (.expr (.null ⟨20, default⟩))]
      | _ => []], []⟩), (2, ⟨[], []⟩)]⟩

/-- The site that was hoisted did not run, for it stands in a statement that a hook added. -/
theorem hoisted_not_ran :
    hoisted.outcome = .ok ⟨1, 0, 1⟩ ∧ .expr keptSite ∈ hoisted.file.items ∧
      Bound hoistRegistry keptSite keepDeclaration ∧
      ¬ Ran hoisted.final.runs keepDeclaration keptSite.id ∧
      ¬ ∀ e d, .expr e ∈ hoisted.file.items → Bound hoistRegistry e d →
        StandsIn (added hoisted.final) e ∨ RanOtherwise hoisted.final.runs e →
        Ran hoisted.final.runs d e.id := by
  have hok : hoisted.outcome = .ok ⟨1, 0, 1⟩ := rfl
  have hstatements : hoisted.file.statements =
    [.expr default keptSite, .expr default (.null ⟨20, default⟩)] := rfl
  have hitems : .expr keptSite ∈ hoisted.file.items := by
    rw [SourceFile.items, hstatements]
    exact mem_itemsAll.mpr ⟨_, List.mem_cons_self, by simp [keptSite, Stmt.items, Expr.items]⟩
  have hbound : Bound hoistRegistry keptSite keepDeclaration := ⟨.function, "keep", rfl, rfl⟩
  have hruns : hoisted.final.runs = [.site hoistDeclaration (.invoke ⟨10, default⟩ "hoist" [keptSite])
    .empty] := rfl
  have hnot : ¬ Ran hoisted.final.runs keepDeclaration keptSite.id := by
    rintro ⟨site, beside, hmem, hid⟩
    rw [hruns] at hmem
    obtain ⟨-, rfl, -⟩ := HookRun.site.inj (List.mem_singleton.mp hmem)
    exact absurd hid (by decide)
  exact ⟨hok, hitems, hbound, hnot, fun hadded =>
    hnot ((expand_ran_iff hok).mpr hadded keptSite keepDeclaration hitems hbound)⟩

end Hoisting

end MacroEngine
