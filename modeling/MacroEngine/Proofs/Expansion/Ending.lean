import MacroEngine.Proofs.Expansion.BoundSites
import MacroEngine.Proofs.Expansion.Depth
import Mathlib.Data.Finset.Card
import Mathlib.Data.Finset.Lattice.Fold
import Mathlib.Data.Finset.SDiff

/-!
# When an expansion ends

What becomes of a site is visited again, but a site that is being expanded is not expanded inside
itself, so sites nest no deeper than there are bindings. What becomes of a class is visited as well,
and nothing keeps a derive from putting a class with derives into it. `expansionEnds_iff` says that
this is all there is: an expansion ends, from some depth on with the same answer and not for want of
depth, exactly if there is a bound on the number of classes that run through their derives.
-/

namespace MacroEngine

namespace Expansion

variable {g : ExpansionSetting}

/-- An error other than that of a walk that met the bound of its depth. -/
def Proper (e : Error) : Prop := ∀ path, e ≠ .endlessExpansion path

theorem Exhausted.of_halt {st : Expansion} {e : Error} (he : Proper e) (hst : ¬ Exhausted st) :
    ¬ Exhausted { st with halted := st.halted.or (some e) } := by
  rintro ⟨path, hpath⟩
  cases hh : st.halted with
  | none =>
    simp only [hh, Option.none_or, Option.some.injEq] at hpath
    exact he path hpath
  | some e' => exact hst ⟨path, by simpa [hh] using hpath⟩

theorem Exhausted.congr {st st' : Expansion} (h : st'.halted = st.halted) :
    Exhausted st' ↔ Exhausted st := by
  simp only [Exhausted, h]

section Errors

variable {st : Expansion} {e : Error}

theorem hooksFor_proper {d : Declaration} (h : ((Walk.hooksFor d).run st).1 = .error e) :
    Proper e := by
  simp only [Walk.hooksFor, run_bind, run_get, run_work, run_modify, run_pure] at h
  rintro path rfl
  cases hload : ((st.hooks.hooksFor d).run st.shop).1.1 <;> simp [hload, Except.mapError] at h

theorem hooksForAll_proper {ds : List Declaration} (h : ((hooksForAll ds).run st).1 = .error e) :
    Proper e := by
  induction ds generalizing st with
  | nil => cases h
  | cons d ds ih =>
    rw [hooksForAll, run_bind] at h
    cases hhooks : ((Walk.hooksFor d).run st).1 with
    | error e' =>
      rw [hhooks] at h
      obtain rfl : e' = e := Except.error.inj h
      exact hooksFor_proper hhooks
    | ok hooks =>
      simp only [hhooks, run_bind] at h
      cases hmore : ((hooksForAll ds).run ((Walk.hooksFor d).run st).2).1 with
      | error e' =>
        rw [hmore] at h
        obtain rfl : e' = e := Except.error.inj h
        exact ih hmore
      | ok more =>
        rw [hmore] at h
        cases h

theorem reportUnresolved_proper {policy : MissPolicy} {className : String} {names : List String}
    (h : ((reportUnresolved policy className names).run st).1 = .error e) : Proper e := by
  induction names generalizing st with
  | nil => cases h
  | cons name names ih =>
    rw [reportUnresolved] at h
    cases policy with
    | fail =>
      obtain rfl : Error.unresolvedDerive className name = e := Except.error.inj h
      exact fun _ => nofun
    | ignore | warn => exact ih h

theorem transformSite_proper {file : FileView} {d : Declaration} {hooks : Hooks} {site : Expr}
    {patcher : Patcher} {shop : Workshop}
    (h : ((transformSite file d hooks site patcher).run shop).1.1 = .error e) : Proper e := by
  rw [transformSite, StateT.run_bind] at h
  generalize (Folded.through file d hooks.transform _).run shop = out at h
  obtain ⟨⟨node, beside, patcher⟩, shop⟩ := out
  cases node with
  | expr e' => cases h
  | void span => cases h
  | stmt s =>
    cases s with
    | expr stamp e' => cases h
    | _ =>
      cases h
      exact fun _ => nofun

end Errors

theorem run_unless_halted {α : Type} (a : α) (x : Walk α) (st : Expansion) :
    (do if ← Walk.isHalted then return a else x : Walk α).run st =
      if st.halted.isSome then (a, st) else x.run st := by
  rw [run_bind, run_isHalted, run_ite]
  rfl

/-- What running a site does, to the walk and in what it answers. -/
theorem expandSite_step (d : Declaration) (e : Expr) (st : Expansion) :
    Onward g st ((expandSite g d e).run st).2 ∧
      ((expandSite g d e).run st).2.halted = st.halted ∧
      ∀ err, ((expandSite g d e).run st).1.2 = .error err → Proper err := by
  have hhooks := hooksFor_aside d st
  have hloads := hooksFor_loadsOn d st
  unfold expandSite
  rw [run_bind]
  cases hfound : ((Walk.hooksFor d).run st).1 with
  | error err =>
    refine ⟨.of_aside hhooks hloads, hhooks.2.2.2, fun err' h => ?_⟩
    obtain rfl : err = err' := Except.error.inj h
    exact hooksFor_proper hfound
  | ok hooks =>
    generalize ((Walk.hooksFor d).run st).2 = st₁ at hhooks hloads
    simp only [run_bind, run_get, run_work, run_modify]
    cases hout : ((transformSite g.file d hooks e st₁.patcher).run st₁.shop).1.1 with
    | error err =>
      refine ⟨.of_aside hhooks hloads, hhooks.2.2.2, fun err' h => ?_⟩
      obtain rfl : err = err' := Except.error.inj h
      exact transformSite_proper hout
    | ok out =>
      have hcount : List.countP (fun run => !run.isSite) (.site d e out.2 :: st₁.runs) =
          List.countP (fun run => !run.isSite) st₁.runs :=
        List.countP_cons_of_neg (by simp [HookRun.isSite])
      exact ⟨(Onward.of_aside hhooks hloads).trans ⟨rfl, hcount.ge, fun _ => hcount, fun _ h => h⟩,
        hhooks.2.2.2, nofun⟩

/-- What running a class does: it fails, or leaves the class as it is, or the class counts as one
more that ran. -/
theorem expandClass_step (s : Stmt) (st : Expansion) :
    Onward g st ((expandClass g s).run st).2 ∧
      ((expandClass g s).run st).2.halted = st.halted ∧
      ((∃ err, ((expandClass g s).run st).1 = .error err ∧ Proper err) ∨
        ∃ out, ((expandClass g s).run st).1 = .ok out ∧
          (out = some s ∨ st.classCount < ((expandClass g s).run st).2.classCount)) := by
  cases s with
  | classDecl stamp head members =>
    have hreport := reportUnresolved_aside g.unresolvedDerive head.name
      (g.registry.unresolvedDerives head) st
    have hreportLoads := reportUnresolved_loadsOn g.unresolvedDerive head.name
      (g.registry.unresolvedDerives head) st
    simp only [expandClass, run_bind]
    cases hmissed : ((reportUnresolved g.unresolvedDerive head.name
        (g.registry.unresolvedDerives head)).run st).1 with
    | error err =>
      exact ⟨.of_aside hreport hreportLoads, hreport.2.2.2,
        .inl ⟨err, rfl, reportUnresolved_proper hmissed⟩⟩
    | ok =>
      generalize ((reportUnresolved g.unresolvedDerive head.name
        (g.registry.unresolvedDerives head)).run st).2 = st₁ at hreport hreportLoads
      cases hderives : g.registry.deriveDeclarations head with
      | nil => exact ⟨.of_aside hreport hreportLoads, hreport.2.2.2, .inr ⟨_, rfl, .inl rfl⟩⟩
      | cons d ds =>
        have hhooks := hreport.trans (hooksForAll_aside (d :: ds) st₁)
        have hloads : LoadsOn st _ := fun table h =>
          hooksForAll_loadsOn (d :: ds) st₁ table (hreportLoads table h)
        simp only [run_bind]
        cases hfound : ((hooksForAll (d :: ds)).run st₁).1 with
        | error err =>
          exact ⟨.of_aside hhooks hloads, hhooks.2.2.2,
            .inl ⟨err, rfl, hooksForAll_proper hfound⟩⟩
        | ok derives =>
          generalize ((hooksForAll (d :: ds)).run st₁).2 = st₂ at hhooks hloads
          have hmore (b : Beside) : st.classCount < List.countP (fun run => !run.isSite)
              (.derives (.classDecl stamp head members) b :: st₂.runs) := by
            rw [List.countP_cons_of_pos rfl]
            exact Nat.lt_succ_of_le (Onward.of_aside (g := g) hhooks hloads).classes
          exact ⟨⟨hhooks.2.1, (hmore _).le, fun hno => by simp [hno] at hderives, hloads⟩,
            hhooks.2.2.2, .inr ⟨_, rfl, .inr (hmore _)⟩⟩
  | _ => exact ⟨.refl st, rfl, .inr ⟨_, rfl, .inl rfl⟩⟩

/-- What is left of a statement when its derives have run: nothing, the statement itself, or what a
class that ran has become. -/
theorem derivedEntry_step (s : Stmt) (st : Expansion) :
    Onward g st ((derivedEntry g s).run st).2 ∧
      (¬ Exhausted st → ¬ Exhausted ((derivedEntry g s).run st).2) ∧
      (((derivedEntry g s).run st).1 = none ∨ ((derivedEntry g s).run st).1 = some s ∨
        st.classCount < ((derivedEntry g s).run st).2.classCount) := by
  unfold derivedEntry
  rw [run_ite]
  split
  · obtain ⟨honward, hhalted, hout⟩ := expandClass_step (g := g) s st
    rw [run_bind]
    generalize (expandClass g s).run st = out at *
    obtain ⟨out, st'⟩ := out
    rcases hout with ⟨err, rfl, herr⟩ | ⟨out, rfl, hout⟩
    · refine ⟨honward.congr honward.expanding rfl rfl honward.loader, fun hst => ?_, .inl rfl⟩
      exact Exhausted.of_halt herr (mt (Exhausted.congr hhalted).mp hst)
    · exact ⟨honward, mt (Exhausted.congr hhalted).mp, .inr (hout.imp_left fun h => h)⟩
  · exact ⟨.refl st, id, .inr (.inl rfl)⟩

/-- No part of a walk takes back what `Onward` says. -/
def Goes (g : ExpansionSetting) (α : Type) (X : ℕ → Walk α) : Prop :=
  ∀ n st, Onward g st ((X n).run st).2

theorem Goes.composes : Composes (Goes g) where
  pure _ _ st := .refl st
  bind hx hf n st := (hx n st).trans (hf _ n _)

def children (g : ExpansionSetting) (n : ℕ) : ChildMap Walk :=
  ⟨expandExpr g n, expandStmt g n, expandStmts g n⟩

theorem expandEntry_onward {visit : Stmt → Walk Stmt}
    (hvisit : ∀ s st, Onward g st ((visit s).run st).2) (s : Stmt) (st : Expansion) :
    Onward g st ((expandEntry g visit s).run st).2 := by
  rw [expandEntry, run_unless_halted]
  split
  · exact .refl st
  · have hentry := (derivedEntry_step (g := g) s { st with beside := .empty }).1
    have hkept (out : Option Stmt) (st' : Expansion) :
        Onward g st' ((visitKept visit out).run st').2 := by
      cases out with
      | none => exact .refl st'
      | some s' => exact hvisit s' st'
    have hall := hentry.trans (hkept ((derivedEntry g s).run { st with beside := .empty }).1 _)
    exact hall.congr hall.expanding rfl rfl hall.loader

theorem expandOpen_onward {visit inside : Expr → Walk Expr}
    (hvisit : ∀ e st, Onward g st ((visit e).run st).2)
    (hinside : ∀ e st, Onward g st ((inside e).run st).2) (d : Declaration) (e : Expr)
    (st : Expansion) : Onward g st ((expandOpen g visit inside d e).run st).2 := by
  have hafter (out : Expr × Except Error Unit) (st' : Expansion) :
      Onward g st' ((afterSite visit inside e.id out).run st').2 := by
    obtain ⟨e', outcome⟩ := out
    cases outcome with
    | error err => exact ⟨rfl, le_rfl, fun _ => rfl, fun _ h => h⟩
    | ok =>
      simp only [afterSite, run_ite]
      split
      · exact hvisit e' st'
      · exact hinside e' st'
  let opened : Expansion := { st with expanding := e.id :: st.expanding }
  have hall := (expandSite_step (g := g) d e opened).1.trans
    (hafter ((expandSite g d e).run opened).1 _)
  exact hall.congr (congrArg (List.drop 1) hall.expanding) rfl rfl hall.loader

/-- Visits take nothing back. -/
theorem children_go (n : ℕ) : (∀ e st, Onward g st ((expandExpr g n e).run st).2) ∧
    (∀ s st, Onward g st ((expandStmt g n s).run st).2) ∧
      ∀ ss st, Onward g st ((expandStmts g n ss).run st).2 := by
  induction n with
  | zero =>
    refine ⟨fun _ _ => ?_, fun _ _ => ?_, fun _ _ => ?_⟩ <;>
      exact ⟨rfl, le_rfl, fun _ => rfl, fun _ h => h⟩
  | succ n ih =>
    have hvisits (size : ℕ) : Visits (Goes g) (fun _ => children g n) size :=
      ⟨fun e _ _ => ih.1 e, fun s _ _ => ih.2.1 s, fun ss _ _ => ih.2.2 ss⟩
    have hexpr (e : Expr) (st : Expansion) :
        Onward g st ((e.mapChildren (children g n)).run st).2 := Goes.composes.expr (hvisits _) 0 st
    refine ⟨fun e st => ?_, fun s st => Goes.composes.stmt (hvisits _) 0 st, fun ss st => ?_⟩
    · rw [expandExpr, run_unless_halted]
      split
      · exact .refl st
      · split
        · exact hexpr e st
        · rename_i d hd
          rw [run_bind, run_get, run_ite]
          split
          · exact hexpr e st
          · exact expandOpen_onward ih.1 hexpr d e st
    · rw [expandStmts]
      exact Goes.composes.map List.flatten (Goes.composes.mapM (P := Goes g)
        fun s _ _ => expandEntry_onward ih.2.1 s) 0 st

/-- A part of a walk, at each bound, that takes nothing back. Begun while the sites `opened` are
being expanded and when at least `c` classes have run, it ends if no more than `k` classes run. -/
structure Part (g : ExpansionSetting) (k : ℕ) (opened : List NodeId) (c : ℕ) (α : Type)
    (X : ℕ → Walk α) : Prop where
  goes : Goes g α X
  ends : ∀ st, st.expanding = opened → c ≤ st.classCount → ¬ Exhausted st →
    Ends k fun n => (X n).run st

namespace Part

variable {k c : ℕ} {opened : List NodeId} {α : Type}

theorem composes : Composes (Part g k opened c) where
  pure _ := ⟨fun _ st => .refl st, fun _ _ _ hst => .const hst⟩
  bind hx hf := {
    goes := Goes.composes.bind hx.goes fun a => (hf a).goes
    ends := fun st hopened hc hst =>
      Ends.bind (fun n a => ((hf a.1).goes n a.2).classes) (hx.ends st hopened hc hst) fun N hN =>
        (hf _).ends _ ((hx.goes N st).expanding.trans hopened)
          (hc.trans (hx.goes N st).classes) hN }

/-- What happens at one bound does not matter. -/
theorem of_succ {X : ℕ → Walk α} (h : Part g k opened c α fun n => X (n + 1)) (h₀ : Goes g α X) :
    Part g k opened c α X :=
  ⟨h₀, fun st hopened hc hst => .of_succ (h.ends st hopened hc hst)⟩

/-- Too many classes have run already. -/
theorem of_lt {X : ℕ → Walk α} (h : k < c) (hX : Goes g α X) : Part g k opened c α X := by
  refine ⟨hX, fun st _ hc _ => ?_⟩
  rintro ⟨N, hN⟩
  exact absurd (hN N le_rfl) (h.trans_le (hc.trans (hX N st).classes)).not_ge

theorem unless_halted {X : ℕ → Walk α} (a : α) (h : Part g k opened c α X) :
    Part g k opened c α fun n => do if ← Walk.isHalted then return a else X n where
  goes n st := by
    rw [run_unless_halted]
    split
    · exact .refl st
    · exact h.goes n st
  ends st hopened hc hst := by
    simp only [run_unless_halted]
    cases st.halted.isSome with
    | true => exact .const hst
    | false => exact h.ends st hopened hc hst

/-- Whether a site is being expanded is known. -/
theorem unless_opened {X Y : ℕ → Walk α} {id : NodeId} (hX : Part g k opened c α X)
    (hY : id ∉ opened → Part g k opened c α Y) (hgoes : Goes g α Y) :
    Part g k opened c α fun n => do if (← get).expanding.contains id then X n else Y n where
  goes n st := by
    rw [run_bind, run_get, run_ite]
    split
    · exact hX.goes n st
    · exact hgoes n st
  ends st hopened hc hst := by
    by_cases hid : st.expanding.contains id
    · simpa only [run_bind, run_get, hid, if_true] using hX.ends st hopened hc hst
    · simpa only [run_bind, run_get, hid, Bool.false_eq_true, if_false] using
        (hY (by simpa [hopened] using hid)).ends st hopened hc hst

/-- One statement of a list. The statement itself is visited if no derives run; if some do, one more
class has run, and it may be any statement that is visited. -/
theorem entry {visit : ℕ → Stmt → Walk Stmt} {s : Stmt}
    (hvisit : ∀ n s st, Onward g st ((visit n s).run st).2)
    (hself : Part g k opened c Stmt fun n => visit n s)
    (hany : ∀ s', Part g k opened (c + 1) Stmt fun n => visit n s') :
    Part g k opened c (List Stmt) fun n => expandEntry g (visit n) s where
  goes n := expandEntry_onward (hvisit n) s
  ends st hopened hc hst := by
    have hkept (out : Option Stmt) (st' : Expansion) (hopened : st'.expanding = opened)
        (hst' : ¬ Exhausted st')
        (hout : (out = none ∨ out = some s) ∧ c ≤ st'.classCount ∨ c + 1 ≤ st'.classCount) :
        Ends k fun n => (visitKept (visit n) out).run st' := by
      rcases hout with ⟨rfl | rfl, hc'⟩ | hc'
      · exact .const hst'
      · exact (composes.map (fun s => [s]) hself).ends st' hopened hc' hst'
      · cases out with
        | none => exact .const hst'
        | some s' => exact (composes.map (fun s => [s]) (hany s')).ends st' hopened hc' hst'
    let inner : Expansion := { st with beside := .empty }
    obtain ⟨honward, hproper, hout⟩ := derivedEntry_step (g := g) s inner
    have hends := hkept ((derivedEntry g s).run inner).1 _ (honward.expanding.trans hopened)
      (hproper hst) (by
        rcases hout with hout | hout | hout
        · exact .inl ⟨.inl hout, hc.trans honward.classes⟩
        · exact .inl ⟨.inr hout, hc.trans honward.classes⟩
        · exact .inr (Nat.succ_le_of_lt (hc.trans_lt hout)))
    simp only [expandEntry, run_unless_halted]
    cases st.halted.isSome with
    | true => exact .const hst
    | false =>
      exact hends.map (fun a => (a.2.beside.before ++ a.1 ++ a.2.beside.after,
        { a.2 with beside := st.beside })) (fun _ => rfl) fun _ => rfl

/-- A site that runs. What stands there then is visited while the site counts as being expanded. -/
theorem site {visit inside : ℕ → Expr → Walk Expr} {d : Declaration} {e : Expr}
    (hvisit : ∀ e', Part g k (e.id :: opened) c Expr fun n => visit n e')
    (hinside : ∀ e', Part g k (e.id :: opened) c Expr fun n => inside n e') :
    Part g k opened c Expr fun n => expandOpen g (visit n) (inside n) d e where
  goes n := expandOpen_onward (fun e' => (hvisit e').goes n) (fun e' => (hinside e').goes n) d e
  ends st hopened hc hst := by
    let begun : Expansion := { st with expanding := e.id :: st.expanding }
    obtain ⟨honward, hhalted, hproper⟩ := expandSite_step (g := g) d e begun
    have hafter (out : Expr × Except Error Unit) (hout : ∀ err, out.2 = .error err → Proper err)
        (st' : Expansion) (hopened : st'.expanding = e.id :: opened) (hc' : c ≤ st'.classCount)
        (hst' : ¬ Exhausted st') :
        Ends k fun n => (afterSite (visit n) (inside n) e.id out).run st' := by
      obtain ⟨e', outcome⟩ := out
      cases outcome with
      | error err => exact .const (Exhausted.of_halt (hout err rfl) hst')
      | ok =>
        simp only [afterSite, run_ite]
        split
        · exact (hvisit e').ends st' hopened hc' hst'
        · exact (hinside e').ends st' hopened hc' hst'
    have hends := hafter _ hproper _ (honward.expanding.trans (congrArg (e.id :: ·) hopened))
      (hc.trans honward.classes) (mt (Exhausted.congr hhalted).mp hst)
    exact hends.map (fun a => (a.1, { a.2 with expanding := a.2.expanding.drop 1 }))
      (fun _ => rfl) fun _ => rfl

end Part

def AllParts (g : ExpansionSetting) (k : ℕ) (opened : List NodeId) (c : ℕ) : Prop :=
  ∀ size, Visits (Part g k opened c) (children g) size

variable {k c : ℕ} {opened : List NodeId}

theorem Visits.mono {P : (α : Type) → (ℕ → Walk α) → Prop} {f : ℕ → ChildMap Walk}
    {size size' : ℕ} (h : Visits P f size) (hle : size' ≤ size) : Visits P f size' :=
  ⟨fun e he => h.onExpr e (he.trans_le hle), fun s hs => h.onStmt s (hs.trans_le hle),
    fun ss hss => h.onStmts ss (hss.trans_le hle)⟩

/-- What is visited is a tree, until a site or a class runs: then one more site is being expanded,
or one more class has run. -/
theorem AllParts.step (hmore : AllParts g k opened (c + 1))
    (hopen : ∀ e d, governing? g e = some d → e.id ∉ opened → AllParts g k (e.id :: opened) c) :
    AllParts g k opened c := by
  intro size
  induction size with
  | zero => exact ⟨fun _ h => absurd h (by omega), fun _ h => absurd h (by omega),
      fun _ h => absurd h (by omega)⟩
  | succ size ih =>
    refine ⟨fun e he => .of_succ ?_ fun n => (children_go n).1 e,
      fun s hs => .of_succ ?_ fun n => (children_go n).2.1 s,
      fun ss hss => .of_succ ?_ fun n => (children_go n).2.2 ss⟩
    · have hinside := Part.composes.expr (ih.mono (Nat.le_of_lt_succ he))
      refine Part.unless_halted e ?_
      cases hd : governing? g e with
      | none => exact hinside
      | some d =>
        refine Part.unless_opened hinside (fun hid => ?_) fun n => ?_
        · have hall := hopen e d hd hid
          exact .site (fun e' => (hall _).onExpr e' (Nat.lt_succ_self _))
            fun e' => Part.composes.expr (hall _)
        · exact expandOpen_onward (children_go n).1
            (fun e' => Goes.composes.expr (f := fun _ => children g n)
              ⟨fun e _ _ => (children_go n).1 e, fun s _ _ => (children_go n).2.1 s,
                fun ss _ _ => (children_go n).2.2 ss⟩ 0) d e
    · exact Part.composes.stmt (ih.mono (Nat.le_of_lt_succ hs))
    · refine Part.composes.map List.flatten (Part.composes.mapM fun s hs => ?_)
      refine .entry (fun n => (children_go n).2.1) (ih.onStmt s ?_)
        fun s' => (hmore _).onStmt s' (Nat.lt_succ_self _)
      exact (List.sizeOf_lt_of_mem hs).trans_le (Nat.le_of_lt_succ hss)

def boundIds (g : ExpansionSetting) : Finset NodeId :=
  (g.registry.bindings.map fun entry => entry.1.2).toFinset

theorem mem_boundIds {e : Expr} {d : Declaration} (h : governing? g e = some d) :
    e.id ∈ boundIds g := by
  obtain ⟨⟨kind, name⟩, -, hbound⟩ := Option.bind_eq_some_iff.mp h
  exact List.mem_toFinset.mpr (List.mem_map.mpr ⟨_, Table.mem_of_get? hbound, rfl⟩)

/-- Only as many sites can be opened inside each other as there are bindings, and only `k` classes
run, so the trees between them are all visited. -/
theorem allParts (opened : List NodeId) (c : ℕ) : AllParts g k opened c := by
  generalize hleft : (boundIds g \ opened.toFinset).card = left
  induction left using Nat.strong_induction_on generalizing opened c with
  | _ left ihleft =>
    generalize hmore : k + 1 - c = more
    induction more generalizing c with
    | zero =>
      exact fun _ => ⟨fun e _ => .of_lt (by omega) fun n => (children_go n).1 e,
        fun s _ => .of_lt (by omega) fun n => (children_go n).2.1 s,
        fun ss _ => .of_lt (by omega) fun n => (children_go n).2.2 ss⟩
    | succ more ihmore =>
      refine .step (ihmore (c + 1) (by omega)) fun e d hd hid => ihleft _ ?_ _ _ rfl
      rw [← hleft]
      refine Finset.card_lt_card ((Finset.ssubset_iff_of_subset ?_).mpr ⟨e.id, ?_, ?_⟩)
      · exact Finset.sdiff_subset_sdiff le_rfl (by simp)
      · simp [mem_boundIds hd, hid]
      · simp

/-- The walk through a file ends if no more than some number of classes run. -/
theorem settles_of_runsAtMost {ss : List Stmt} {shop : Workshop} {hooks : HookCache}
    (h : RunsAtMost k fun n => (expandStmts g n ss).run (.start shop hooks)) :
    Settles fun n => (expandStmts g n ss).run (.start shop hooks) :=
  ((allParts [] 0 _).onStmts ss (Nat.lt_succ_self _)).ends _ rfl (Nat.zero_le _) nofun h

end Expansion

open Expansion

section Files

variable (file : SourceFile) (registry : Registry) (config : Config) (shop : Workshop)
  (hooks : HookCache)

namespace SourceFile

/-- From some depth on expanding the file comes to the same, and not for want of depth. -/
def ExpansionEnds : Prop :=
  ∃ N, (∀ n ≥ N, file.expand registry config n shop hooks =
      file.expand registry config N shop hooks) ∧
    ∀ path, (file.expand registry config N shop hooks).outcome ≠ .error (.endlessExpansion path)

variable {file registry config shop hooks}

theorem applyPatches_proper {view : FileView} {policy : MissPolicy} {patcher : Patcher}
    {ss : List Stmt} {e : Error} (h : (applyPatches view policy patcher ss).2.2 = .error e) :
    Proper e := by
  unfold applyPatches at h
  rintro path rfl
  split at h
  · cases h
  · dsimp only at h
    split at h
    · cases h
    · cases policy <;> cases h

theorem outcome_conclude_of_halted {walked : List Stmt × Expansion} {e : Error}
    (h : walked.2.halted = some e) : (file.conclude config walked).outcome = .error e := by
  rw [conclude, h]

theorem classCount_conclude (walked : List Stmt × Expansion) :
    (file.conclude config walked).final.classCount = walked.2.classCount := by
  rw [Expansion.classCount, runs_conclude, Expansion.classCount]

/-- A walk that did not meet the bound of its depth comes to no error of that kind. -/
theorem conclude_proper {walked : List Stmt × Expansion} (h : ¬ Exhausted walked.2)
    (path : SourcePath) :
    (file.conclude config walked).outcome ≠ .error (.endlessExpansion path) := by
  unfold conclude
  intro hout
  split at hout
  · rename_i e he
    cases hout
    exact h ⟨path, he⟩
  · dsimp only at hout
    split at hout
    · rename_i e he
      cases hout
      exact applyPatches_proper he path rfl
    · cases hout

/-- An expansion ends if there is a bound on the number of classes that run. -/
theorem expansionEnds_of_classCount {k : ℕ}
    (h : ∀ n, (file.walk registry config shop hooks n).2.classCount ≤ k) :
    file.ExpansionEnds registry config shop hooks := by
  obtain ⟨N, hsame, hproper⟩ :=
    settles_of_runsAtMost (g := file.setting registry config) ⟨0, fun n _ => h n⟩
  refine ⟨N, fun n hn => ?_, fun path => ?_⟩
  · exact congrArg (file.conclude config) (hsame n hn)
  · exact conclude_proper hproper path

/-- Without derive names that mean something no class runs, whatever hooks put in place of sites. -/
theorem classCount_of_underived (h : registry.derives = []) (n : ℕ) :
    (file.expand registry config n shop hooks).final.classCount = 0 := by
  have honward := (children_go (g := file.setting registry config) n).2.2 file.statements
    (.start shop hooks)
  rw [expand_eq_conclude, classCount_conclude]
  exact honward.underived fun head =>
    List.filterMap_eq_nil_iff.mpr fun name _ => by simp [Registry.derive?, setting, h]

end SourceFile

/-- An expansion ends if and only if there is a bound on the number of classes that run through
their derives. -/
theorem expansionEnds_iff : file.ExpansionEnds registry config shop hooks ↔
    ∃ k, ∀ n, (file.expand registry config n shop hooks).final.classCount ≤ k := by
  constructor
  · rintro ⟨N, hsame, -⟩
    let count (n : ℕ) : ℕ := (file.expand registry config n shop hooks).final.classCount
    refine ⟨(Finset.range (N + 1)).sup count, fun n => ?_⟩
    rcases Nat.lt_or_ge n N with hn | hn
    · exact Finset.le_sup (f := count) (Finset.mem_range.mpr (by omega))
    · rw [hsame n hn]
      exact Finset.le_sup (f := count) (Finset.mem_range.mpr (by omega))
  · rintro ⟨k, hk⟩
    refine SourceFile.expansionEnds_of_classCount (k := k) fun n => ?_
    rw [← SourceFile.classCount_conclude, ← SourceFile.expand_eq_conclude]
    exact hk n

end Files

section Rally

def pingDeclaration : Declaration := ⟨1, .function, "ping", .function false, default, default⟩

def pongDeclaration : Declaration := ⟨2, .function, "pong", .function false, default, default⟩

def pingSite : Expr := .invoke ⟨11, default⟩ "ping" []

def pongSite : Expr := .invoke ⟨12, default⟩ "pong" []

def rallySetting : ExpansionSetting :=
  ⟨⟨default, []⟩, { Registry.empty with
    bindings := [((.function, 11), pingDeclaration), ((.function, 12), pongDeclaration)] }, .fail⟩

/-- Each of the macros puts the site of the other one in the place of its own. -/
def rallyHooks : HookCache :=
  ⟨.new ⟨[], none⟩, [(1, ⟨[fun _ => return [.replace (.expr pongSite)]], []⟩),
    (2, ⟨[fun _ => return [.replace (.expr pingSite)]], []⟩)]⟩

/-- A file with one of the sites, `ping!();`. -/
def rallyFile : SourceFile := ⟨0, default, [.expr ⟨10, default⟩ pingSite], default⟩

/-- Sites that are expanded to each other do not go on for ever. -/
theorem expansionEnds_rally :
    rallyFile.ExpansionEnds rallySetting.registry .standard ⟨20, 0, []⟩ rallyHooks ∧
      (rallyFile.expand rallySetting.registry .standard 6 ⟨20, 0, []⟩ rallyHooks).final.siteCount = 2 :=
  ⟨(expansionEnds_iff _ _ _ _ _).mpr ⟨0, fun n => (SourceFile.classCount_of_underived rfl n).le⟩, rfl⟩

end Rally

section Nesting

def nestDeclaration : Declaration := ⟨1, .derive, "Nest", .function false, default, default⟩

def plainClass : Stmt := .classDecl ⟨10, default⟩ ⟨"A", ["Nest"], .internal⟩ []

/-- `class A derives Nest { m() { class A derives Nest {} } }`. -/
def nestedClass : Stmt :=
  .classDecl ⟨10, default⟩ ⟨"A", ["Nest"], .internal⟩
    [.method default ⟨"m", [], false⟩ ⟨default, [plainClass]⟩]

def nestRegistry : Registry :=
  { Registry.empty with derives := [("Nest", nestDeclaration)] }

/-- The macro puts the nested class in place of a class. -/
def nestHooks : HookCache :=
  ⟨.new ⟨[], none⟩, [(1, ⟨[fun _ => return [.replace (.stmt nestedClass)]], []⟩)]⟩

def nestFile : SourceFile := ⟨0, default, [plainClass], default⟩

/-- However deep the walk, there is one more class at the bottom. -/
theorem expandStmts_nest (n : ℕ) (st : Expansion) (hhooks : st.hooks = nestHooks)
    (hhalted : st.halted = none) :
    ((expandStmts (nestFile.setting nestRegistry .standard) n [plainClass]).run st).2.halted =
      some (.endlessExpansion nestFile.path) := by
  obtain ⟨shop, hooks, patcher, beside, expanding, runs, warnings, halted⟩ := st
  obtain rfl : hooks = nestHooks := hhooks
  obtain rfl : halted = none := hhalted
  induction n using Nat.twoStepInduction generalizing shop patcher beside expanding runs warnings with
  | zero => rfl
  | one => rfl
  | more n ih _ => exact ih shop patcher _ expanding _ warnings

/-- A derive that puts a class like its own into the class never comes to an end. -/
theorem not_expansionEnds_nest :
    ¬ nestFile.ExpansionEnds nestRegistry .standard ⟨20, 0, []⟩ nestHooks := by
  rintro ⟨N, -, hproper⟩
  exact hproper nestFile.path
    (SourceFile.outcome_conclude_of_halted (expandStmts_nest N (.start ⟨20, 0, []⟩ nestHooks) rfl rfl))

end Nesting

end MacroEngine
