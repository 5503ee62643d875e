import MacroEngine.Proofs.Expansion.Asking
import MacroEngine.Proofs.Expansion.Parts

/-!
# The calls that a walk makes

A walk visits the parts of a node one after the other, each in the state that the ones before it
lead to, and it runs a site or a class before it visits what the run leaves. `Makes` says which
calls a call makes and in which state, and `Comes` follows chains of calls, with the sites that the
calls of the chain have opened and not yet left. Every run that a walk notes was such a call, so a
chain leads to every point where hooks run. The sites opened along a chain are those that the walk
has noted as being expanded; no two of them have one identity, and all are bound.
-/

namespace MacroEngine

open Expansion

/-- A call that a walk makes. The first argument of a visit bounds its depth. -/
inductive Call where
  | expr (n : ℕ) (e : Expr)
  | stmt (n : ℕ) (s : Stmt)
  | list (n : ℕ) (ss : List Stmt)
  /-- A statement of a list is visited. -/
  | entry (n : ℕ) (s : Stmt)
  /-- A class is run through its derives. -/
  | derives (s : Stmt)
  /-- A site is run through its hooks. -/
  | site (d : Declaration) (e : Expr)

def Part.call (n : ℕ) : Part → Call
  | .expr e => .expr n e
  | .stmt s => .stmt n s
  | .list ss => .list n ss

def visits (n : ℕ) (ps : List Part) : List Call := ps.map (Part.call n)

def entries (n : ℕ) (ss : List Stmt) : List Call := ss.map (.entry n)

section After

variable (g : ExpansionSetting)

def Call.after (st : Expansion) : Call → Expansion
  | .expr n e => ((expandExpr g n e).run st).2
  | .stmt n s => ((expandStmt g n s).run st).2
  | .list n ss => ((expandStmts g n ss).run st).2
  | .entry n s => ((expandEntry g (expandStmt g n) s).run st).2
  | .derives s => ((expandClass g s).run st).2
  | .site d e => ((expandSite g d e).run st).2

def afterAll (calls : List Call) (st : Expansion) : Expansion := calls.foldl (Call.after g) st

variable {g}

theorem run_mapM {α β : Type} (f : α → Walk β) (as : List α) (st : Expansion) :
    ((as.mapM f).run st).2 = as.foldl (fun st a => ((f a).run st).2) st := by
  induction as generalizing st with
  | nil => rfl
  | cons a as ih =>
    rw [List.mapM_cons, List.foldl_cons, ← ih]
    rfl

theorem afterAll_append (calls more : List Call) (st : Expansion) :
    afterAll g (calls ++ more) st = afterAll g more (afterAll g calls st) := List.foldl_append

theorem afterAll_exprs (n : ℕ) (es : List Expr) (st : Expansion) :
    ((es.mapM (expandExpr g n)).run st).2 = afterAll g (visits n (es.map .expr)) st := by
  rw [run_mapM, afterAll, visits, List.map_map, List.foldl_map]
  rfl

/-- The parts of an expression are visited one after the other, and nothing else is done. -/
theorem Expr.after_mapChildren (n : ℕ) (e : Expr) (st : Expansion) :
    ((e.mapChildren (children g n)).run st).2 = afterAll g (visits n e.parts) st := by
  cases e with
  | array s es => exact afterAll_exprs n es st
  | invoke s name es => exact afterAll_exprs n es st
  | object s ps =>
    refine (run_mapM _ ps st).trans ?_
    rw [afterAll, visits, Expr.parts, List.map_map, List.foldl_map]
    rfl
  | call s c as => exact afterAll_exprs n as _
  | _ => rfl

theorem Member.after_mapChildren (n : ℕ) (m : Member) (st : Expansion) :
    ((m.mapChildren (children g n)).run st).2 = afterAll g (visits n m.parts) st := by
  cases m with
  | field s name init => cases init <;> rfl
  | method s head b => rfl

theorem Stmt.after_mapChildren (n : ℕ) (s : Stmt) (st : Expansion) :
    ((s.mapChildren (children g n)).run st).2 = afterAll g (visits n s.parts) st := by
  cases s with
  | classDecl stamp head ms =>
    refine (run_mapM _ ms st).trans ?_
    simp only [Member.after_mapChildren, Stmt.parts]
    induction ms generalizing st with
    | nil => rfl
    | cons m ms ih =>
      rw [List.foldl_cons, ih, List.flatMap_cons, visits, visits, visits, List.map_append,
        afterAll_append]
  | binding _ _ _ init _ => cases init <;> rfl
  | ret _ value => cases value <;> rfl
  | ifElse _ _ _ alternative => cases alternative <;> rfl
  | _ => rfl

theorem after_entries (n : ℕ) (ss : List Stmt) (st : Expansion) :
    Call.after g st (.list (n + 1) ss) = afterAll g (entries n ss) st := by
  rw [afterAll, entries, List.foldl_map]
  exact run_mapM (expandEntry g (expandStmt g n)) ss st

end After

section Calls

variable {g : ExpansionSetting}

/-- A call is reached among others in the state that the ones before it lead to. -/
def Reached (g : ExpansionSetting) (calls : List Call) (st : Expansion) (c : Call)
    (st' : Expansion) : Prop :=
  ∃ before after, calls = before ++ c :: after ∧ st' = afterAll g before st

/-- The walk when a site is noted as being expanded. -/
def Expansion.opening (st : Expansion) (id : NodeId) : Expansion :=
  { st with expanding := id :: st.expanding }

/-- The walk when a statement of a list is visited, with nothing beside it yet. -/
def Expansion.aloof (st : Expansion) : Expansion := { st with beside := .empty }

/-- A call makes another one, and has opened some sites itself by then. -/
inductive Makes (g : ExpansionSetting) :
    Call → Expansion → List NodeId → Call → Expansion → Prop where
  /-- Of an expression that is no bound site, or an open one, the parts are visited. -/
  | exprPart {n : ℕ} {e : Expr} {st st' : Expansion} {c : Call} (hawake : st.halted = none)
      (hplain : governing? g e = none ∨ e.id ∈ st.expanding)
      (hpart : Reached g (visits n e.parts) st c st') : Makes g (.expr (n + 1) e) st [] c st'
  /-- A bound site that is not open is opened and run. -/
  | site {n : ℕ} {d : Declaration} {e : Expr} {st : Expansion} (hawake : st.halted = none)
      (hbound : governing? g e = some d) (hclosed : e.id ∉ st.expanding) :
      Makes g (.expr (n + 1) e) st [e.id] (.site d e) (st.opening e.id)
  /-- Another expression that the run leaves is visited. -/
  | replacement {n : ℕ} {d : Declaration} {e left : Expr} {st st' : Expansion}
      (hawake : st.halted = none) (hbound : governing? g e = some d) (hclosed : e.id ∉ st.expanding)
      (hrun : (expandSite g d e).run (st.opening e.id) = ((left, .ok ()), st'))
      (hid : left.id ≠ e.id) : Makes g (.expr (n + 1) e) st [e.id] (.expr n left) st'
  /-- If the site keeps its identity its parts are visited. -/
  | kept {n : ℕ} {d : Declaration} {e left : Expr} {st st' st'' : Expansion} {c : Call}
      (hawake : st.halted = none) (hbound : governing? g e = some d) (hclosed : e.id ∉ st.expanding)
      (hrun : (expandSite g d e).run (st.opening e.id) = ((left, .ok ()), st'))
      (hid : left.id = e.id) (hpart : Reached g (visits n left.parts) st' c st'') :
      Makes g (.expr (n + 1) e) st [e.id] c st''
  | stmtPart {n : ℕ} {s : Stmt} {st st' : Expansion} {c : Call}
      (hpart : Reached g (visits n s.parts) st c st') : Makes g (.stmt (n + 1) s) st [] c st'
  | entry {n : ℕ} {ss : List Stmt} {st st' : Expansion} {c : Call}
      (hentry : Reached g (entries n ss) st c st') : Makes g (.list (n + 1) ss) st [] c st'
  /-- A class is run. -/
  | derives {n : ℕ} {s : Stmt} {st : Expansion} (hawake : st.halted = none)
      (hderived : s.isDerivedClass = true) : Makes g (.entry n s) st [] (.derives s) st.aloof
  /-- What is left of a statement is visited. -/
  | left {n : ℕ} {s left : Stmt} {st st' : Expansion} (hawake : st.halted = none)
      (hleft : (derivedEntry g s).run st.aloof = (some left, st')) :
      Makes g (.entry n s) st [] (.stmt n left) st'

/-- Calls lead from one to another, and have opened some sites by then, the last one first. -/
inductive Comes (g : ExpansionSetting) (c : Call) (st : Expansion) :
    List NodeId → Call → Expansion → Prop where
  | refl : Comes g c st [] c st
  | call {opened own : List NodeId} {c' c'' : Call} {st' st'' : Expansion}
      (hcomes : Comes g c st opened c' st') (hmakes : Makes g c' st' own c'' st'') :
      Comes g c st (own ++ opened) c'' st''

theorem Comes.head {c c' c'' : Call} {st st' st'' : Expansion} {own opened : List NodeId}
    (hmakes : Makes g c st own c' st') (hcomes : Comes g c' st' opened c'' st'') :
    Comes g c st (opened ++ own) c'' st'' := by
  induction hcomes with
  | refl => simpa using Comes.call .refl hmakes
  | call _ hmakes' ih =>
    rw [List.append_assoc]
    exact .call ih hmakes'

/-! ## The sites that are being expanded -/

/-- A call leaves the sites that are being expanded as they are, whatever becomes of it. -/
theorem Call.after_expanding (c : Call) (st : Expansion) :
    (c.after g st).expanding = st.expanding := by
  cases c with
  | expr n e => exact ((children_go n).1 e st).expanding
  | stmt n s => exact ((children_go n).2.1 s st).expanding
  | list n ss => exact ((children_go n).2.2 ss st).expanding
  | entry n s => exact (expandEntry_onward (children_go n).2.1 s st).expanding
  | derives s => exact (expandClass_step s st).1.expanding
  | site d e => exact (expandSite_step d e st).1.expanding

theorem expandSite_expanding {d : Declaration} {e : Expr} {st st' : Expansion}
    {out : Expr × Except Error Unit} (h : (expandSite g d e).run st = (out, st')) :
    st'.expanding = st.expanding := by
  have hafter := Call.after_expanding (g := g) (.site d e) st
  rwa [Call.after, h] at hafter

theorem afterAll_expanding (calls : List Call) (st : Expansion) :
    (afterAll g calls st).expanding = st.expanding := by
  induction calls generalizing st with
  | nil => rfl
  | cons c calls ih => exact (ih _).trans (c.after_expanding st)

theorem Reached.expanding {calls : List Call} {c : Call} {st st' : Expansion}
    (h : Reached g calls st c st') : st'.expanding = st.expanding := by
  obtain ⟨before, _, _, rfl⟩ := h
  exact afterAll_expanding before st

structure Stacked (g : ExpansionSetting) (opened : List NodeId) : Prop where
  nodup : opened.Nodup
  bound : ∀ id ∈ opened, id ∈ boundIds g

theorem Stacked.nil : Stacked g [] := ⟨List.nodup_nil, fun _ h => absurd h List.not_mem_nil⟩

theorem Stacked.cons {opened : List NodeId} (h : Stacked g opened) {d : Declaration} {e : Expr}
    (hbound : governing? g e = some d) (hclosed : e.id ∉ opened) : Stacked g (e.id :: opened) :=
  ⟨List.nodup_cons.mpr ⟨hclosed, h.nodup⟩, List.forall_mem_cons.mpr ⟨mem_boundIds hbound, h.bound⟩⟩

/-- There are no more of them than bound identities. -/
theorem Stacked.length_le {opened : List NodeId} (h : Stacked g opened) :
    opened.length ≤ (boundIds g).card := by
  rw [← List.toFinset_card_of_nodup h.nodup]
  exact Finset.card_le_card fun id hid => h.bound id (List.mem_toFinset.mp hid)

/-- What a call opens is noted in front of what was open. -/
theorem Makes.expanding {c c' : Call} {st st' : Expansion} {own : List NodeId}
    (h : Makes g c st own c' st') : st'.expanding = own ++ st.expanding := by
  cases h with
  | exprPart _ _ hpart => exact hpart.expanding
  | site => rfl
  | replacement _ _ _ hrun _ => exact expandSite_expanding hrun
  | kept _ _ _ hrun _ hpart => exact hpart.expanding.trans (expandSite_expanding hrun)
  | stmtPart hpart => exact hpart.expanding
  | entry hentry => exact hentry.expanding
  | derives => rfl
  | @left n s left st st' _ hleft =>
    have hstep := (derivedEntry_step (g := g) s st.aloof).1.expanding
    rwa [hleft] at hstep

/-- A call opens nothing, or a bound site that was not open. -/
theorem Makes.stacked {c c' : Call} {st st' : Expansion} {own : List NodeId}
    (h : Makes g c st own c' st') (hst : Stacked g st.expanding) :
    Stacked g (own ++ st.expanding) := by
  cases h with
  | site _ hbound hclosed => exact hst.cons hbound hclosed
  | replacement _ hbound hclosed => exact hst.cons hbound hclosed
  | kept _ hbound hclosed => exact hst.cons hbound hclosed
  | _ => exact hst

theorem Reached.mem {calls : List Call} {c : Call} {st st' : Expansion}
    (h : Reached g calls st c st') : c ∈ calls := by
  obtain ⟨before, after, rfl, -⟩ := h
  exact List.mem_append_right before List.mem_cons_self

/-- Among the visits of parts no site is run. -/
theorem site_notMem_visits (n : ℕ) (ps : List Part) (d : Declaration) (e : Expr) :
    .site d e ∉ visits n ps := by
  intro hmem
  obtain ⟨p, -, hp⟩ := List.mem_map.mp hmem
  cases p <;> cases hp

theorem site_notMem_entries (n : ℕ) (ss : List Stmt) (d : Declaration) (e : Expr) :
    .site d e ∉ entries n ss := by
  intro hmem
  obtain ⟨s, -, hs⟩ := List.mem_map.mp hmem
  cases hs

/-- A site that is run was not open, and is opened for the run. -/
theorem Makes.of_site {c : Call} {st st' : Expansion} {own : List NodeId} {d : Declaration}
    {e : Expr} (h : Makes g c st own (.site d e) st') :
    own = [e.id] ∧ e.id ∉ st.expanding ∧ governing? g e = some d := by
  cases h with
  | site _ hbound hclosed => exact ⟨rfl, hclosed, hbound⟩
  | exprPart _ _ hpart => exact absurd hpart.mem (site_notMem_visits _ _ d e)
  | kept _ _ _ _ _ hpart => exact absurd hpart.mem (site_notMem_visits _ _ d e)
  | stmtPart hpart => exact absurd hpart.mem (site_notMem_visits _ _ d e)
  | entry hentry => exact absurd hentry.mem (site_notMem_entries _ _ d e)

/-- Along a chain of calls the sites opened are those that are being expanded. -/
theorem Comes.stacked {c c' : Call} {st st' : Expansion} {opened : List NodeId}
    (h : Comes g c st opened c' st') (hst : Stacked g st.expanding) :
    st'.expanding = opened ++ st.expanding ∧ Stacked g (opened ++ st.expanding) := by
  induction h with
  | refl => exact ⟨rfl, hst⟩
  | call _ hmakes ih =>
    obtain ⟨hexpanding, hstacked⟩ := ih
    rw [← hexpanding] at hstacked
    have hmore := hmakes.stacked hstacked
    rw [List.append_assoc, ← hexpanding]
    exact ⟨hmakes.expanding, hmore⟩

/-! ## Every run is a call -/

inductive Call.Notes : Call → HookRun → Prop where
  | site (d : Declaration) (e : Expr) (b : Beside) : Notes (.site d e) (.site d e b)
  | derives (s : Stmt) (b : Beside) : Notes (.derives s) (.derives s b)

def Leads (g : ExpansionSetting) (c : Call) (st : Expansion) (run : HookRun) : Prop :=
  ∃ opened c' st', Comes g c st opened c' st' ∧ c'.Notes run

theorem Leads.head {c c' : Call} {st st' : Expansion} {own : List NodeId} {run : HookRun}
    (hmakes : Makes g c st own c' st') (h : Leads g c' st' run) : Leads g c st run := by
  obtain ⟨opened, c'', st'', hcomes, hnotes⟩ := h
  exact ⟨opened ++ own, c'', st'', hcomes.head hmakes, hnotes⟩

/-- Whatever a call has noted, calls lead there. -/
def Traced (g : ExpansionSetting) (c : Call) : Prop :=
  ∀ st, ∀ run ∈ (c.after g st).runs, run ∈ st.runs ∨ Leads g c st run

theorem traced_site (d : Declaration) (e : Expr) : Traced g (.site d e) := by
  intro st run hrun
  have hturn := expandSite_turn (g := g) d e st
  rw [Call.after] at hrun
  generalize (expandSite g d e).run st = out at hturn hrun
  cases hturn with
  | error h => exact .inl (h.2.2.1 ▸ hrun)
  | ran _ h =>
    obtain rfl | hrun := List.mem_cons.mp hrun
    · exact .inr ⟨[], _, st, .refl, .site d e _⟩
    · exact .inl (h.2.2.1 ▸ hrun)

theorem traced_derives (s : Stmt) : Traced g (.derives s) := by
  intro st run hrun
  have hturn := expandClass_turn (g := g) s st
  rw [Call.after] at hrun
  generalize (expandClass g s).run st = out at hturn hrun
  cases hturn with
  | error h => exact .inl (h.2.2.1 ▸ hrun)
  | underived _ h => exact .inl (h.2.2.1 ▸ hrun)
  | ran _ h =>
    obtain rfl | hrun := List.mem_cons.mp hrun
    · exact .inr ⟨[], _, st, .refl, .derives s _⟩
    · exact .inl (h.2.2.1 ▸ hrun)

/-- What a sequence of calls has noted, one of them has. -/
theorem traced_all {calls : List Call} (hcalls : ∀ c ∈ calls, Traced g c) {st : Expansion}
    {run : HookRun} (hrun : run ∈ (afterAll g calls st).runs) :
    run ∈ st.runs ∨ ∃ c st', Reached g calls st c st' ∧ Leads g c st' run := by
  induction calls generalizing st with
  | nil => exact .inl hrun
  | cons c calls ih =>
    obtain ⟨hc, hcalls⟩ := List.forall_mem_cons.mp hcalls
    rcases ih hcalls hrun with hrun | ⟨c', st', ⟨before, after, rfl, rfl⟩, hleads⟩
    · exact (hc st run hrun).imp_right fun hleads => ⟨c, st, ⟨[], calls, rfl, rfl⟩, hleads⟩
    · exact .inr ⟨c', _, ⟨c :: before, after, rfl, rfl⟩, hleads⟩

theorem traced_entry {n : ℕ} (hstmt : ∀ s, Traced g (.stmt n s)) (s : Stmt) :
    Traced g (.entry n s) := by
  intro st run hrun
  rw [Call.after, expandEntry, run_unless_halted] at hrun
  split at hrun
  · exact .inl hrun
  rename_i hnot
  have hawake : st.halted = none := by simpa using hnot
  have hderived : run ∈ ((derivedEntry g s).run st.aloof).2.runs →
      run ∈ st.runs ∨ Leads g (.entry n s) st run := by
    intro hrun
    unfold derivedEntry at hrun
    rw [run_ite] at hrun
    split at hrun
    · rename_i hclass
      have hout : run ∈ (Call.after g st.aloof (.derives s)).runs := by
        rw [run_bind] at hrun
        rw [Call.after]
        generalize (expandClass g s).run st.aloof = out at hrun
        obtain ⟨_ | _, _⟩ := out <;> exact hrun
      exact (traced_derives s _ run hout).imp_right (Leads.head (.derives hawake hclass))
    · exact .inl hrun
  have hinner : run ∈ ((derivedEntry g s >>= visitKept (expandStmt g n)).run st.aloof).2.runs := hrun
  rw [run_bind] at hinner
  cases hleft : ((derivedEntry g s).run st.aloof).1 with
  | none =>
    rw [hleft] at hinner
    exact hderived hinner
  | some left =>
    rw [hleft] at hinner
    rcases hstmt left _ run hinner with hrun | hleads
    · exact hderived hrun
    · exact .inr (hleads.head (.left hawake (Prod.ext hleft rfl)))

theorem traced_expr {n : ℕ} (hexpr : ∀ e, Traced g (.expr n e))
    (hparts : ∀ ps, ∀ c ∈ visits n ps, Traced g c) (e : Expr) : Traced g (.expr (n + 1) e) := by
  intro st run hrun
  rw [Call.after, expandExpr, run_unless_halted] at hrun
  split at hrun
  · exact .inl hrun
  rename_i hnot
  have hawake : st.halted = none := by simpa using hnot
  have hinside (hplain : governing? g e = none ∨ e.id ∈ st.expanding)
      (hrun : run ∈ ((e.mapChildren (children g n)).run st).2.runs) :
      run ∈ st.runs ∨ Leads g (.expr (n + 1) e) st run := by
    rw [Expr.after_mapChildren] at hrun
    refine (traced_all (hparts e.parts) hrun).imp_right ?_
    rintro ⟨c, st', hpart, hleads⟩
    exact hleads.head (.exprPart hawake hplain hpart)
  cases hbound : governing? g e with
  | none =>
    rw [hbound] at hrun
    exact hinside (.inl hbound) hrun
  | some d =>
    rw [hbound] at hrun
    dsimp only at hrun
    rw [run_bind, run_get, run_ite] at hrun
    split at hrun
    · rename_i hopen
      exact hinside (.inr (by simpa using hopen)) hrun
    · rename_i hclosed
      have hclosed : e.id ∉ st.expanding := by simpa using hclosed
      have hsite (hrun : run ∈ (Call.after g (st.opening e.id) (.site d e)).runs) :
          run ∈ st.runs ∨ Leads g (.expr (n + 1) e) st run :=
        (traced_site d e _ run hrun).imp_right (Leads.head (.site hawake hbound hclosed))
      have hafter : run ∈ ((afterSite (expandExpr g n) (Expr.mapChildren (children g n)) e.id
          ((expandSite g d e).run (st.opening e.id)).1).run
            ((expandSite g d e).run (st.opening e.id)).2).2.runs := hrun
      cases hout : (expandSite g d e).run (st.opening e.id) with
      | mk out st' =>
      obtain ⟨left, outcome⟩ := out
      rw [Call.after, hout] at hsite
      rw [hout] at hafter
      cases outcome with
      | error err => exact hsite hafter
      | ok =>
        simp only [afterSite, run_ite] at hafter
        split at hafter
        · rename_i hid
          rcases hexpr left st' run hafter with hrun | hleads
          · exact hsite hrun
          · exact .inr (hleads.head (.replacement hawake hbound hclosed hout hid))
        · rename_i hid
          rw [Expr.after_mapChildren] at hafter
          rcases traced_all (hparts left.parts) hafter with hrun | ⟨c, st'', hpart, hleads⟩
          · exact hsite hrun
          · exact .inr (hleads.head (.kept hawake hbound hclosed hout (not_not.mp hid) hpart))

/-- Every run that a visit has noted was such a call. -/
theorem traced (n : ℕ) : (∀ e, Traced g (.expr n e)) ∧ (∀ s, Traced g (.stmt n s)) ∧
    ∀ ss, Traced g (.list n ss) := by
  induction n with
  | zero => exact ⟨fun _ _ _ h => .inl h, fun _ _ _ h => .inl h, fun _ _ _ h => .inl h⟩
  | succ n ih =>
    have hparts (ps : List Part) (c : Call) (hc : c ∈ visits n ps) : Traced g c := by
      obtain ⟨p, -, rfl⟩ := List.mem_map.mp hc
      cases p with
      | expr e => exact ih.1 e
      | stmt s => exact ih.2.1 s
      | list ss => exact ih.2.2 ss
    refine ⟨traced_expr ih.1 hparts, fun s st run hrun => ?_, fun ss st run hrun => ?_⟩
    · have hall : run ∈ (afterAll g (visits n s.parts) st).runs := by
        rwa [← Stmt.after_mapChildren]
      refine (traced_all (hparts s.parts) hall).imp_right ?_
      rintro ⟨c, st', hpart, hleads⟩
      exact hleads.head (.stmtPart hpart)
    · rw [after_entries] at hrun
      have hentries (c : Call) (hc : c ∈ entries n ss) : Traced g c := by
        obtain ⟨s, -, rfl⟩ := List.mem_map.mp hc
        exact traced_entry ih.2.1 s
      refine (traced_all hentries hrun).imp_right ?_
      rintro ⟨c, st', hentry, hleads⟩
      exact hleads.head (.entry hentry)

end Calls

end MacroEngine
