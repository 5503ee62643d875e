import MacroEngine.Proofs.Expansion.Ending
import MacroEngine.Proofs.Expansion.Surroundings

/-!
# How a walk keeps what hooks ask for

A walk puts aside what hooks ask to have next to their sites, until it has visited the statement
around them; a statement list that it meets in between has its own. `Asks` says of a part of a walk
that what it answers, what it asks for and the runs in it stand in a relation, and has a rule for
each way to put parts together. By these rules a walk of any depth expands what it visits as the
structure of the tree says, and `expand_surroundings` says so of a file.
-/

namespace MacroEngine

open Expansion

section Walk

variable {g : ExpansionSetting} {opened : List NodeId} {α β : Type}
  {R : α → List Edit → List HookRun → Prop} {S : β → List Edit → List HookRun → Prop}

structure Expansion.Notes (st st' : Expansion) (own : List Edit) (all : List HookRun) : Prop where
  beside : st'.beside = st.beside ++ .requested own
  runs : st'.runs = all.reverse ++ st.runs
  expanding : st'.expanding = st.expanding

theorem Expansion.Notes.of_aside {st st' : Expansion} (h : Aside st st') : st.Notes st' [] [] :=
  ⟨h.1.trans (Beside.append_empty _).symm, h.2.2.1, h.2.1⟩

theorem Expansion.Notes.trans {st st₁ st₂ : Expansion} {own more : List Edit}
    {all later : List HookRun} (h : st.Notes st₁ own all) (h' : st₁.Notes st₂ more later) :
    st.Notes st₂ (own ++ more) (all ++ later) where
  beside := by rw [h'.beside, h.beside, Beside.append_assoc, Beside.requested_append]
  runs := by rw [h'.runs, h.runs, List.reverse_append, List.append_assoc]
  expanding := h'.expanding.trans h.expanding

/-- A part of a walk that takes no error back; while some sites are open it does not end without an
error unless what it answers, asks for and runs stand in a relation. -/
structure Asks (opened : List NodeId) (x : Walk α) (R : α → List Edit → List HookRun → Prop) :
    Prop where
  awake : ∀ st, (x.run st).2.halted = none → st.halted = none
  asks : ∀ st, st.expanding = opened → (x.run st).2.halted = none →
    ∃ own all, R (x.run st).1 own all ∧ st.Notes (x.run st).2 own all

namespace Asks

theorem pure {a : α} (h : R a [] []) : Asks opened (Pure.pure a) R :=
  ⟨fun _ hh => hh, fun _ _ _ => ⟨[], [], h, .of_aside ⟨rfl, rfl, rfl, rfl⟩⟩⟩

theorem bind {x : Walk α} {f : α → Walk β} (hx : Asks opened x R)
    (hf : ∀ a, Asks opened (f a) fun b more later =>
      ∀ own all, R a own all → S b (own ++ more) (all ++ later)) : Asks opened (x >>= f) S where
  awake st hh := hx.awake st ((hf _).awake _ hh)
  asks st hopened hh := by
    obtain ⟨own, all, hR, hnotes⟩ := hx.asks st hopened ((hf _).awake _ hh)
    obtain ⟨more, later, hS, hnotes'⟩ := (hf _).asks _ (hnotes.expanding.trans hopened) hh
    exact ⟨own ++ more, all ++ later, hS own all hR, hnotes.trans hnotes'⟩

theorem mono {R' : α → List Edit → List HookRun → Prop} {x : Walk α} (hx : Asks opened x R)
    (h : ∀ a own all, R a own all → R' a own all) : Asks opened x R' where
  awake := hx.awake
  asks st hopened hh := by
    obtain ⟨own, all, hR, hnotes⟩ := hx.asks st hopened hh
    exact ⟨own, all, h _ own all hR, hnotes⟩

theorem map {x : Walk α} {f : α → β} (hx : Asks opened x R)
    (hf : ∀ a own all, R a own all → S (f a) own all) :
    Asks opened (x >>= fun a => Pure.pure (f a)) S where
  awake := hx.awake
  asks := (hx.mono hf).asks

theorem of_halted {x : Walk α} (h : ∀ st, (x.run st).2.halted ≠ none) : Asks opened x R :=
  ⟨fun st hh => absurd hh (h st), fun st _ hh => absurd hh (h st)⟩

theorem unless_halted {x : Walk α} (a : α) (hx : Asks opened x R) :
    Asks opened (do if ← Walk.isHalted then return a else x) R where
  awake st hh := by
    rw [run_unless_halted] at hh
    split at hh
    · exact hh
    · exact hx.awake st hh
  asks st hopened hh := by
    rw [run_unless_halted] at hh ⊢
    split at hh
    · rename_i hsome
      rw [show st.halted = none from hh] at hsome
      cases hsome
    · rename_i hnot
      rw [if_neg hnot]
      exact hx.asks st hopened hh

/-- A list is visited from left to right: each node with its parts, and as many as there were. -/
theorem mapM {γ δ : Type} {f : γ → Walk α} {parts : γ → List Part} {parts' : α → List Part}
    {shape : γ → δ} {shape' : α → δ} (cs : List γ)
    (hf : ∀ c, Asks opened (f c) fun a own all =>
      shape' a = shape c ∧ PartsExpand g opened (parts c) (parts' a) own all) :
    Asks opened (cs.mapM f) fun as own all => as.map shape' = cs.map shape ∧
      PartsExpand g opened (cs.flatMap parts) (as.flatMap parts') own all := by
  induction cs with
  | nil => exact .pure ⟨rfl, .nil⟩
  | cons c cs ih =>
    rw [List.mapM_cons]
    refine (hf c).bind fun a => ih.map fun as more later hmore own all ha => ⟨?_, ?_⟩
    · rw [List.map_cons, List.map_cons, ha.1, hmore.1]
    · exact ha.2.append hmore.2

/-- A list that holds an expression in each place. -/
theorem mapM_exprs {γ δ : Type} {f : γ → Walk α} {expr : γ → Expr} {expr' : α → Expr}
    {shape : γ → δ} {shape' : α → δ} (cs : List γ)
    (hf : ∀ c, Asks opened (f c) fun a own all =>
      shape' a = shape c ∧ ExprExpands g opened (expr c) (expr' a) own all) :
    Asks opened (cs.mapM f) fun as own all => as.map shape' = cs.map shape ∧
      PartsExpand g opened (cs.map fun c => .expr (expr c)) (as.map fun a => .expr (expr' a)) own
        all := by
  simp only [List.map_eq_flatMap (f := fun c => Part.expr _)]
  exact mapM cs fun c => (hf c).mono fun _ _ _ h => ⟨h.1, .single h.2⟩

end Asks

section Children

structure AsksChildren (g : ExpansionSetting) (opened : List NodeId) (f : ChildMap Walk) :
    Prop where
  onExpr : ∀ e, Asks opened (f.onExpr e) (ExprExpands g opened e)
  onStmt : ∀ s, Asks opened (f.onStmt s) (StmtExpands g opened s)
  onStmts : ∀ ss, Asks opened (f.onStmts ss) fun ss' own all =>
    own = [] ∧ ListExpands g opened ss ss' all

variable {f : ChildMap Walk}

theorem AsksChildren.block (h : AsksChildren g opened f) (b : Block) :
    Asks opened (b.mapChildren f) fun b' own all =>
      ∃ ss', b' = ⟨b.stamp, ss'⟩ ∧ own = [] ∧ ListExpands g opened b.stmts ss' all :=
  (h.onStmts b.stmts).map fun ss' _ _ hss => ⟨ss', rfl, hss⟩

theorem AsksChildren.exprs (h : AsksChildren g opened f) (es : List Expr) :
    Asks opened (es.mapM f.onExpr) fun es' own all =>
      es'.map (fun _ => (default : Expr)) = es.map (fun _ => default) ∧
        PartsExpand g opened (es.map .expr) (es'.map .expr) own all :=
  .mapM_exprs es fun e => (h.onExpr e).mono fun _ _ _ he => ⟨rfl, he⟩

/-- The parts of an expression are visited, and it stays the same node. -/
theorem AsksChildren.expr (h : AsksChildren g opened f) (e : Expr) :
    Asks opened (e.mapChildren f) fun e' own all =>
      e'.hollow = e.hollow ∧ PartsExpand g opened e.parts e'.parts own all := by
  cases e with
  | ident | number | str | bool | null | this | template | tagged => exact .pure ⟨rfl, .nil⟩
  | array s es | invoke s n es =>
    refine (h.exprs es).map fun es' own all hes => ⟨?_, hes.2⟩
    simp only [Expr.hollow_array, Expr.hollow_invoke, hes.1]
  | object s ps =>
    have hps (p : String × Expr) : Asks opened (do return (p.1, ← f.onExpr p.2)) fun p' own all =>
        (p'.1, (default : Expr)) = (p.1, default) ∧ ExprExpands g opened p.2 p'.2 own all :=
      (h.onExpr p.2).map fun e' own all he => ⟨rfl, he⟩
    refine (Asks.mapM_exprs ps hps).map fun ps' own all hps => ⟨?_, hps.2⟩
    rw [Expr.hollow_object, Expr.hollow_object, hps.1]
  | paren s e | member s e | unary s o e | await s e | arrowExpr s p a e =>
    exact (h.onExpr e).bind fun _ => .pure fun _ _ he => ⟨rfl, .expr he .nil⟩
  | call s c as =>
    refine (h.onExpr c).bind fun c' => (h.exprs as).map fun as' more later has own all hc =>
      ⟨?_, .expr hc has.2⟩
    simp only [Expr.hollow_call, has.1]
  | binary s o l r | assign s l r =>
    exact (h.onExpr l).bind fun _ => (h.onExpr r).bind fun _ => .pure fun _ _ hr _ _ hl =>
      ⟨rfl, .expr hl (.expr hr .nil)⟩
  | arrow s p a b | function s head b =>
    refine (h.block b).bind fun b' => .pure ?_
    rintro _ all ⟨ss', rfl, rfl, hss⟩
    exact ⟨rfl, .list hss .nil⟩

theorem AsksChildren.member (h : AsksChildren g opened f) (m : Member) :
    Asks opened (m.mapChildren f) fun m' own all =>
      m'.hollow = m.hollow ∧ PartsExpand g opened m.parts m'.parts own all := by
  cases m with
  | field s n init =>
    cases init with
    | none => exact .pure ⟨rfl, .nil⟩
    | some e => exact (h.onExpr e).bind fun _ => .pure fun _ _ he => ⟨rfl, .expr he .nil⟩
  | method s head b =>
    refine (h.block b).bind fun b' => .pure ?_
    rintro _ all ⟨ss', rfl, rfl, hss⟩
    exact ⟨rfl, .list hss .nil⟩

/-- The parts of a statement are visited, and it stays the same node. -/
theorem AsksChildren.stmt (h : AsksChildren g opened f) (s : Stmt) :
    Asks opened (s.mapChildren f) (StmtExpands g opened s) := by
  cases s with
  | importNames | empty => exact .pure (.inside rfl .nil)
  | function s head b | block s b | defer s b =>
    refine (h.block b).bind fun b' => .pure ?_
    rintro _ all ⟨ss', rfl, rfl, hss⟩
    exact .inside rfl (.list hss .nil)
  | classDecl s head ms =>
    refine (Asks.mapM ms h.member).map fun ms' own all hms => .inside ?_ hms.2
    rw [Stmt.hollow_classDecl, Stmt.hollow_classDecl, hms.1]
  | binding s k n init v =>
    cases init with
    | none => exact .pure (.inside rfl .nil)
    | some e => exact (h.onExpr e).bind fun _ => .pure fun _ _ he => .inside rfl (.expr he .nil)
  | ret s value =>
    cases value with
    | none => exact .pure (.inside rfl .nil)
    | some e => exact (h.onExpr e).bind fun _ => .pure fun _ _ he => .inside rfl (.expr he .nil)
  | expr s e | throwExpr s e =>
    exact (h.onExpr e).bind fun _ => .pure fun _ _ he => .inside rfl (.expr he .nil)
  | ifElse s c t alternative =>
    refine (h.onExpr c).bind fun c' => (h.block t).bind fun t' => ?_
    cases alternative with
    | none =>
      refine .pure ?_
      rintro _ _ ⟨ss', rfl, rfl, hss⟩ own all hc
      exact .inside rfl (.expr hc (.list hss .nil))
    | some e =>
      refine (h.onStmt e).bind fun e' => .pure ?_
      rintro _ _ he _ _ ⟨ss', rfl, rfl, hss⟩ own all hc
      rw [List.nil_append]
      exact .inside rfl (.expr hc (.list hss (.stmt he .nil)))
  | whileLoop s c b | forOf s k n c b =>
    refine (h.onExpr c).bind fun c' => (h.block b).bind fun b' => .pure ?_
    rintro _ _ ⟨ss', rfl, rfl, hss⟩ own all hc
    exact .inside rfl (.expr hc (.list hss .nil))
  | tryFinally s b b' =>
    refine (h.block b).bind fun _ => (h.block b').bind fun _ => .pure ?_
    rintro _ _ ⟨fs', rfl, rfl, hfs⟩ _ _ ⟨ss', rfl, rfl, hss⟩
    exact .inside rfl (.list hss (.list hfs .nil))

end Children

section Site

variable {d : Declaration} {e : Expr}

/-- What running a site leads to: an error, or a run that is noted. -/
inductive SiteTurn (g : ExpansionSetting) (d : Declaration) (e : Expr) (st : Expansion) :
    (Expr × Except Error Unit) × Expansion → Prop where
  | error {e' : Expr} {err : Error} {st' : Expansion} (h : Aside st st') :
      SiteTurn g d e st ((e', .error err), st')
  | ran {asked : List Edit} {left : Expr} {st' : Expansion} (hruns : RunsSite g d e asked left)
      (h : Aside st st') : SiteTurn g d e st ((left, .ok ()),
        { st' with
          runs := .site d e (.requested asked) :: st'.runs
          beside := st'.beside ++ .requested asked })

theorem expandSite_turn (d : Declaration) (e : Expr) (st : Expansion) :
    SiteTurn g d e st ((expandSite g d e).run st) := by
  have haside := hooksFor_aside d st
  have hof (hooks : Hooks) (h : ((Walk.hooksFor d).run st).1 = .ok hooks) := hooksFor_hooksOf h
  unfold expandSite
  rw [run_bind]
  generalize (Walk.hooksFor d).run st = found at haside hof
  obtain ⟨err | hooks, st₁⟩ := found
  · exact .error haside
  · obtain ⟨asked, node, shop', hturns, houtcome, -⟩ :=
      transformSite_takesTurns g.file d hooks e st₁.patcher st₁.shop
    simp only [run_bind, run_get, run_work, run_modify]
    generalize (transformSite g.file d hooks e st₁.patcher).run st₁.shop = out at houtcome
    obtain ⟨⟨outcome, patcher⟩, shop⟩ := out
    cases houtcome with
    | error _ => exact .error haside
    | ok hstands =>
      exact .ran ⟨hooks, st₁.shop, node, shop', hof hooks rfl, hturns, hstands⟩ haside

/-- A run asks for what its hooks ask for. -/
theorem expandSite_asks : Asks opened (expandSite g d e) fun out own all =>
    out.2 = .ok () → RunsSite g d e own out.1 ∧ all = [.site d e (.requested own)] where
  awake st hh := by
    rwa [(expandSite_step d e st).2.1] at hh
  asks st _ _ := by
    have hturn := expandSite_turn (g := g) d e st
    generalize (expandSite g d e).run st = out at hturn
    cases hturn with
    | error h => exact ⟨[], [], nofun, .of_aside h⟩
    | @ran asked _ _ hruns h =>
      exact ⟨asked, [.site d e (.requested asked)], fun _ => ⟨hruns, rfl⟩,
        (Notes.of_aside h).trans ⟨rfl, rfl, rfl⟩⟩

/-- What a site that ran leaves is expanded while the site is open. -/
theorem afterSite_asks {visit inside : Expr → Walk Expr} {site : NodeId}
    (hvisit : ∀ e, Asks (site :: opened) (visit e) (ExprExpands g (site :: opened) e))
    (hinside : ∀ e, Asks (site :: opened) (inside e) fun e' own all =>
      e'.hollow = e.hollow ∧ PartsExpand g (site :: opened) e.parts e'.parts own all)
    (out : Expr × Except Error Unit) :
    Asks (site :: opened) (afterSite visit inside site out) fun e' own all =>
      out.2 = .ok () ∧ ExprExpands g (site :: opened) out.1 e' own all := by
  obtain ⟨e, err | ok⟩ := out
  · exact .of_halted (halt_halted err e)
  · simp only [afterSite]
    split
    · exact (hvisit e).mono fun _ _ _ h => ⟨trivial, h⟩
    · rename_i hid
      have hopen : e.id ∈ site :: opened := by
        rw [Decidable.not_not.mp hid]
        exact List.mem_cons_self
      exact (hinside e).mono fun _ _ _ h => ⟨trivial, .inside (.inr hopen) h.1 h.2⟩

/-- Something is done while a site is open. -/
theorem Asks.opening {x : Walk α} {site : NodeId} (hx : Asks (site :: opened) x R) :
    Asks opened (do
      Walk.enter site
      let out ← x
      Walk.leave
      return out) R where
  awake st hh := hx.awake { st with expanding := site :: st.expanding } hh
  asks st hopened hh := by
    obtain ⟨own, all, hR, hnotes⟩ :=
      hx.asks { st with expanding := site :: st.expanding } (congrArg (site :: ·) hopened) hh
    exact ⟨own, all, hR, hnotes.beside, hnotes.runs, congrArg (List.drop 1) hnotes.expanding⟩

/-- Whether a site is open is known. -/
theorem Asks.unless_open {site : NodeId} {x y : Walk α}
    (hawake : ∀ st, (y.run st).2.halted = none → st.halted = none)
    (hx : Asks opened x fun a own all => site ∈ opened → R a own all)
    (hy : site ∉ opened → Asks opened y R) :
    Asks opened (do if (← get).expanding.contains site then x else y) R where
  awake st hh := by
    rw [run_bind, run_get, run_ite] at hh
    split at hh
    · exact hx.awake st hh
    · exact hawake st hh
  asks st hopened hh := by
    rw [run_bind, run_get, run_ite, hopened] at hh ⊢
    simp only [List.contains_iff_mem] at hh ⊢
    by_cases hsite : site ∈ opened
    · rw [if_pos hsite] at hh ⊢
      obtain ⟨own, all, hR, hnotes⟩ := hx.asks st hopened hh
      exact ⟨own, all, hR hsite, hnotes⟩
    · rw [if_neg hsite] at hh ⊢
      exact (hy hsite).asks st hopened hh

/-- A bound site that is not open runs, and what it leaves is expanded. -/
theorem expandOpen_asks {visit inside : Expr → Walk Expr} (hbound : governing? g e = some d)
    (hclosed : e.id ∉ opened)
    (hvisit : ∀ e', Asks (e.id :: opened) (visit e') (ExprExpands g (e.id :: opened) e'))
    (hinside : ∀ e', Asks (e.id :: opened) (inside e') fun e'' own all =>
      e''.hollow = e'.hollow ∧ PartsExpand g (e.id :: opened) e'.parts e''.parts own all) :
    Asks opened (expandOpen g visit inside d e) (ExprExpands g opened e) := by
  refine Asks.opening (expandSite_asks.bind fun out => ?_)
  refine (afterSite_asks hvisit hinside out).mono fun e' own all hleft asked runs hran => ?_
  obtain ⟨hruns, rfl⟩ := hran hleft.1
  exact .site hbound hclosed hruns hleft.2

end Site

section Entry

/-- What is left of a statement of a list when its derives have run, and what they asked for. -/
inductive Derived (g : ExpansionSetting) (s : Stmt) :
    Option Stmt → List Edit → List HookRun → Prop where
  | plain (hnone : Underived g s) : Derived g s (some s) [] []
  | ran {kept : Option Stmt} {asked : List Edit} (hruns : RunsClass g s asked kept) :
      Derived g s kept asked [.derives s (.requested asked)]

theorem expandClass_asks (s : Stmt) : Asks opened (expandClass g s) fun out own all =>
    ∀ kept, out = .ok kept → Derived g s kept own all where
  awake st hh := by
    rwa [(expandClass_step s st).2.1] at hh
  asks st _ _ := by
    have hturn := expandClass_turn (g := g) s st
    generalize (expandClass g s).run st = out at hturn
    cases hturn with
    | error h => exact ⟨[], [], nofun, .of_aside h⟩
    | underived hnone h =>
      refine ⟨[], [], fun kept hkept => ?_, .of_aside h⟩
      obtain rfl := Except.ok.inj hkept
      exact .plain hnone
    | @ran asked _ _ hruns h =>
      refine ⟨asked, [.derives s (.requested asked)], fun kept hkept => ?_,
        (Notes.of_aside h).trans ⟨rfl, rfl, rfl⟩⟩
      obtain rfl := Except.ok.inj hkept
      exact .ran hruns

theorem derivedEntry_asks (s : Stmt) : Asks opened (derivedEntry g s) (Derived g s) := by
  unfold derivedEntry
  split
  · refine (expandClass_asks s).bind fun out => ?_
    cases out with
    | error err => exact .of_halted (halt_halted err none)
    | ok kept =>
      refine .pure fun own all hkept => ?_
      rw [List.append_nil, List.append_nil]
      exact hkept kept rfl
  · rename_i hplain
    exact .pure (.plain (.of_not_derived (Bool.eq_false_of_not_eq_true hplain)))

/-- What stands in the place of a statement, and what is asked for next to it. -/
theorem visited_asks {visit : Stmt → Walk Stmt}
    (hvisit : ∀ s, Asks opened (visit s) (StmtExpands g opened s)) (s : Stmt) :
    Asks opened (derivedEntry g s >>= visitKept visit) fun ss own all =>
      ∃ kept : Option Stmt, ss = kept.toList ∧ EntryExpands g opened s kept own all := by
  refine (derivedEntry_asks s).bind fun kept => ?_
  cases kept with
  | none =>
    refine .pure fun asked _ hderived => ⟨none, rfl, ?_⟩
    cases hderived with
    | ran hruns =>
      rw [List.append_nil]
      exact .removed hruns
  | some left =>
    refine (hvisit left).map fun s' own all hleft asked _ hderived => ⟨some s', rfl, ?_⟩
    cases hderived with
    | plain hnone => exact .plain hnone hleft
    | ran hruns => exact .derived hruns hleft

/-- What is asked for meanwhile is put next to what is visited, and nowhere else. -/
theorem withBeside_asks {R : List Stmt → List Edit → List HookRun → Prop} {x : Walk (List Stmt)}
    (hx : Asks opened x R) : Asks opened (withBeside x) fun ss own all => own = [] ∧
      ∃ visited asked, R visited asked all ∧
        ss = asked.filterMap Edit.beforeSite? ++ visited ++ asked.filterMap Edit.afterSite? where
  awake st hh := hx.awake { st with beside := .empty } hh
  asks st hopened hh := by
    obtain ⟨asked, all, hR, hnotes⟩ := hx.asks { st with beside := .empty } hopened hh
    have hbeside : (x.run { st with beside := .empty }).2.beside = .requested asked := hnotes.beside
    refine ⟨[], all, ⟨rfl, _, asked, hR, ?_⟩, (Beside.append_empty _).symm, hnotes.runs,
      hnotes.expanding⟩
    simp only [withBeside, run_bind, run_get, run_modify, run_pure, hbeside]
    rfl

/-- A list is expanded statement by statement. -/
theorem entries_asks {visit : Stmt → Walk Stmt}
    (hvisit : ∀ s, Asks opened (visit s) (StmtExpands g opened s)) (ss : List Stmt) :
    Asks opened (ss.mapM (expandEntry g visit)) fun sss own all =>
      own = [] ∧ ListExpands g opened ss sss.flatten all := by
  induction ss with
  | nil => exact .pure ⟨rfl, .nil⟩
  | cons s ss ih =>
    rw [List.mapM_cons]
    refine (Asks.unless_halted _ (withBeside_asks (visited_asks hvisit s))).bind fun ss' =>
      ih.map fun sss more later hmore => ?_
    rintro _ all ⟨rfl, _, asked, ⟨kept, rfl, hs⟩, rfl⟩
    obtain ⟨rfl, hlist⟩ := hmore
    exact ⟨rfl, by rw [List.flatten_cons]; exact .cons hs hlist⟩

end Entry

/-- A walk expands what it visits. -/
theorem expand_asks (n : Nat) (opened : List NodeId) :
    AsksChildren g opened ⟨expandExpr g n, expandStmt g n, expandStmts g n⟩ := by
  -- for any open sites, since there is one more while what a site left is visited
  induction n generalizing opened with
  | zero =>
    refine ⟨fun e => ?_, fun s => ?_, fun ss => ?_⟩
    · exact .of_halted (halt_halted _ e)
    · exact .of_halted (halt_halted _ s)
    · exact .of_halted (halt_halted _ ss)
  | succ n ih =>
    refine ⟨fun e => ?_, (ih opened).stmt, fun ss => ?_⟩
    · refine .unless_halted e ?_
      cases hbound : governing? g e with
      | none => exact ((ih opened).expr e).mono fun _ _ _ h => .inside (.inl hbound) h.1 h.2
      | some d =>
        have hsound := expand_sound (g := g) n
        have hawake := (expandOpen_sound hsound.onExpr hsound.expr hbound).awake
        refine .unless_open hawake ?_ fun hclosed => ?_
        · exact ((ih opened).expr e).mono fun _ _ _ h hopen => .inside (.inr hopen) h.1 h.2
        · exact expandOpen_asks hbound hclosed (ih _).onExpr (ih _).expr
    · exact (entries_asks (ih opened).onStmt ss).map fun _ _ _ h => h

end Walk

section Files

end Files

section Nested

end Nested

end MacroEngine
