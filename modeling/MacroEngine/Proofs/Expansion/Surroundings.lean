import MacroEngine.Proofs.Edits.Derives
import MacroEngine.Proofs.Edits.Sites
import MacroEngine.Proofs.Expansion.BoundSites
import MacroEngine.Proofs.Expansion.Parts

/-!
# What stands next to a statement

Hooks ask for statements before and after the statement that holds their site. `ListExpands` says
what becomes of a statement list, by the structure of the tree alone: in the place of each statement
stands what was asked for before it, then the statement or what its derives left of it, then what
was asked for after it. Asked for are the edits of the hooks that ran on the statement itself and on
the sites in it, but not in the statement lists that it holds, for these are lists of their own.
Nothing that is asked for is lost on the way: `ListExpands.noneLost`.
-/

namespace MacroEngine

open Expansion

namespace Expansion

/-- A site ran: what its hooks asked for, and the expression that they left. -/
def RunsSite (g : ExpansionSetting) (d : Declaration) (e : Expr) (asked : List Edit) (left : Expr) :
    Prop :=
  ∃ hooks shop node shop', HooksOf d hooks ∧
    TakeTurns g.file d hooks.transform (.expr e) shop asked node shop' ∧ node.StandsAs left

end Expansion

mutual

/-- An expression is expanded while some sites are open: what becomes of it, what is asked for in it
outside the statement lists that it holds, and the runs in it. -/
inductive ExprExpands (g : ExpansionSetting) :
    List NodeId → Expr → Expr → List Edit → List HookRun → Prop where
  /-- Of an expression that is no bound site, or an open one, the parts are expanded. -/
  | inside {opened : List NodeId} {e e' : Expr} {own : List Edit} {all : List HookRun}
      (hplain : governing? g e = none ∨ e.id ∈ opened) (hsame : e'.hollow = e.hollow)
      (hparts : PartsExpand g opened e.parts e'.parts own all) : ExprExpands g opened e e' own all
  /-- A bound site runs, and what it leaves is expanded while it is open. -/
  | site {opened : List NodeId} {d : Declaration} {e left e' : Expr} {asked own : List Edit}
      {all : List HookRun} (hbound : governing? g e = some d) (hclosed : e.id ∉ opened)
      (hruns : RunsSite g d e asked left) (hleft : ExprExpands g (e.id :: opened) left e' own all) :
      ExprExpands g opened e e' (asked ++ own) (.site d e (.requested asked) :: all)

/-- A statement is expanded, apart from what comes next to it. -/
inductive StmtExpands (g : ExpansionSetting) :
    List NodeId → Stmt → Stmt → List Edit → List HookRun → Prop where
  | inside {opened : List NodeId} {s s' : Stmt} {own : List Edit} {all : List HookRun}
      (hsame : s'.hollow = s.hollow) (hparts : PartsExpand g opened s.parts s'.parts own all) :
      StmtExpands g opened s s' own all

/-- Parts are expanded one after the other. What is asked for in a statement list stays there. -/
inductive PartsExpand (g : ExpansionSetting) :
    List NodeId → List Part → List Part → List Edit → List HookRun → Prop where
  | nil {opened : List NodeId} : PartsExpand g opened [] [] [] []
  | expr {opened : List NodeId} {e e' : Expr} {ps ps' : List Part} {own more : List Edit}
      {all later : List HookRun} (he : ExprExpands g opened e e' own all)
      (hmore : PartsExpand g opened ps ps' more later) :
      PartsExpand g opened (.expr e :: ps) (.expr e' :: ps') (own ++ more) (all ++ later)
  | stmt {opened : List NodeId} {s s' : Stmt} {ps ps' : List Part} {own more : List Edit}
      {all later : List HookRun} (hs : StmtExpands g opened s s' own all)
      (hmore : PartsExpand g opened ps ps' more later) :
      PartsExpand g opened (.stmt s :: ps) (.stmt s' :: ps') (own ++ more) (all ++ later)
  | list {opened : List NodeId} {ss ss' : List Stmt} {ps ps' : List Part} {own : List Edit}
      {all later : List HookRun} (hss : ListExpands g opened ss ss' all)
      (hmore : PartsExpand g opened ps ps' own later) :
      PartsExpand g opened (.list ss :: ps) (.list ss' :: ps') own (all ++ later)

/-- A statement of a list is expanded: what is left of it, and what is asked for. -/
inductive EntryExpands (g : ExpansionSetting) :
    List NodeId → Stmt → Option Stmt → List Edit → List HookRun → Prop where
  | plain {opened : List NodeId} {s s' : Stmt} {own : List Edit} {all : List HookRun}
      (hnone : Underived g s) (hs : StmtExpands g opened s s' own all) :
      EntryExpands g opened s (some s') own all
  /-- What the derives of a class leave is expanded. -/
  | derived {opened : List NodeId} {s left s' : Stmt} {asked own : List Edit} {all : List HookRun}
      (hruns : RunsClass g s asked (some left)) (hleft : StmtExpands g opened left s' own all) :
      EntryExpands g opened s (some s') (asked ++ own) (.derives s (.requested asked) :: all)
  | removed {opened : List NodeId} {s : Stmt} {asked : List Edit}
      (hruns : RunsClass g s asked none) :
      EntryExpands g opened s none asked [.derives s (.requested asked)]

/-- The statements of a list are expanded one after the other, each with what is asked for before
and after it next to it, or in its place if it is gone. -/
inductive ListExpands (g : ExpansionSetting) :
    List NodeId → List Stmt → List Stmt → List HookRun → Prop where
  | nil {opened : List NodeId} : ListExpands g opened [] [] []
  | cons {opened : List NodeId} {s : Stmt} {kept : Option Stmt} {ss ss' : List Stmt}
      {own : List Edit} {all later : List HookRun} (hs : EntryExpands g opened s kept own all)
      (hmore : ListExpands g opened ss ss' later) :
      ListExpands g opened (s :: ss)
        (own.filterMap Edit.beforeSite? ++ kept.toList ++ own.filterMap Edit.afterSite? ++ ss')
        (all ++ later)

end

theorem PartsExpand.append {g : ExpansionSetting} {opened : List NodeId} {ps ps' qs qs' : List Part}
    {own more : List Edit} {all later : List HookRun} :
    PartsExpand g opened ps ps' own all → PartsExpand g opened qs qs' more later →
      PartsExpand g opened (ps ++ qs) (ps' ++ qs') (own ++ more) (all ++ later)
  | .nil, h => h
  | .expr he hps, h => by
    rw [List.append_assoc, List.append_assoc]
    exact .expr he (hps.append h)
  | .stmt hs hps, h => by
    rw [List.append_assoc, List.append_assoc]
    exact .stmt hs (hps.append h)
  | .list hss hps, h => by
    rw [List.append_assoc]
    exact .list hss (hps.append h)

theorem PartsExpand.single {g : ExpansionSetting} {opened : List NodeId} {e e' : Expr}
    {own : List Edit} {all : List HookRun} (h : ExprExpands g opened e e' own all) :
    PartsExpand g opened [.expr e] [.expr e'] own all := by
  simpa only [List.append_nil] using PartsExpand.expr h .nil

section Lost

variable {g : ExpansionSetting} {opened : List NodeId} {own more : List Edit}
  {all later : List HookRun} {items items' : List Item}

/-- Whatever runs put beside is asked for still, or stands among the nodes. -/
def NoneLost (all : List HookRun) (own : List Edit) (items : List Item) : Prop :=
  ∀ s ∈ besides all, s ∈ (Beside.requested own).before ∨ s ∈ (Beside.requested own).after ∨
    .stmt s ∈ items

theorem NoneLost.nil : NoneLost [] own items := fun _ hs => absurd hs List.not_mem_nil

theorem NoneLost.mono (h : NoneLost all own items) (hsub : items ⊆ items') :
    NoneLost all own items' := fun s hs => (h s hs).imp_right (Or.imp_right fun hs => hsub hs)

theorem NoneLost.append (h : NoneLost all own items) (h' : NoneLost later more items') :
    NoneLost (all ++ later) (own ++ more) (items ++ items') := by
  intro s hs
  rw [besides, List.flatMap_append, List.mem_append] at hs
  rw [Beside.requested_append]
  rcases hs with hs | hs
  · exact (h s hs).imp (List.mem_append_left _) (Or.imp (List.mem_append_left _)
      (List.mem_append_left _))
  · exact (h' s hs).imp (List.mem_append_right _) (Or.imp (List.mem_append_right _)
      (List.mem_append_right _))

/-- A run puts beside what its hooks asked for. -/
theorem NoneLost.single {asked : List Edit} {run : HookRun}
    (hrun : run.beside = .requested asked) : NoneLost [run] asked items := by
  intro s hs
  rw [besides, List.flatMap_singleton, hrun, List.mem_append] at hs
  exact hs.imp_right .inl

theorem NoneLost.run {asked : List Edit} {run : HookRun} (hrun : run.beside = .requested asked)
    (h : NoneLost all own items) : NoneLost (run :: all) (asked ++ own) items := by
  have hself : NoneLost [run] asked [] := .single hrun
  exact hself.append h

/-- What is asked for next to a statement stands in the statement's list. -/
theorem NoneLost.entry {kept : Option Stmt}
    (h : NoneLost all own (Stmt.itemsAll true kept.toList)) :
    NoneLost all [] (Stmt.itemsAll true
      (own.filterMap Edit.beforeSite? ++ kept.toList ++ own.filterMap Edit.afterSite?)) := by
  have hmem {s : Stmt} {ss : List Stmt} (hs : s ∈ ss) : .stmt s ∈ Stmt.itemsAll true ss :=
    mem_itemsAll.mpr ⟨s, hs, s.mem_items_self true⟩
  intro s hs
  simp only [itemsAll_append, List.mem_append]
  rcases h s hs with hs | hs | hs
  · exact .inr (.inr (.inl (.inl (hmem hs))))
  · exact .inr (.inr (.inr (hmem hs)))
  · exact .inr (.inr (.inl (.inr hs)))

mutual

theorem ExprExpands.noneLost {opened : List NodeId} {e e' : Expr} {own : List Edit}
    {all : List HookRun} : ExprExpands g opened e e' own all → NoneLost all own (e'.items true)
  | .inside _ _ hparts => by
    rw [Expr.items_eq_parts]
    exact hparts.noneLost.mono (List.subset_cons_self _ _)
  | .site _ _ _ hleft => hleft.noneLost.run rfl

theorem StmtExpands.noneLost {opened : List NodeId} {s s' : Stmt} {own : List Edit}
    {all : List HookRun} : StmtExpands g opened s s' own all → NoneLost all own (s'.items true)
  | .inside _ hparts => by
    rw [Stmt.items_eq_parts]
    exact hparts.noneLost.mono (List.subset_cons_self _ _)

theorem PartsExpand.noneLost {opened : List NodeId} {ps ps' : List Part} {own : List Edit}
    {all : List HookRun} :
    PartsExpand g opened ps ps' own all → NoneLost all own (ps'.flatMap Part.items)
  | .nil => .nil
  | .expr he hmore => he.noneLost.append hmore.noneLost
  | .stmt hs hmore => hs.noneLost.append hmore.noneLost
  | .list hss hmore => hss.noneLost.append hmore.noneLost

theorem EntryExpands.noneLost {opened : List NodeId} {s : Stmt} {kept : Option Stmt}
    {own : List Edit} {all : List HookRun} :
    EntryExpands g opened s kept own all → NoneLost all own (Stmt.itemsAll true kept.toList)
  | .plain _ hs => hs.noneLost.mono (List.subset_append_left _ _)
  | .derived _ hleft => (hleft.noneLost.mono (List.subset_append_left _ _)).run rfl
  | .removed _ => .single rfl

/-- No statement that a run put beside is missing from an expanded list. -/
theorem ListExpands.noneLost {opened : List NodeId} {ss ss' : List Stmt} {all : List HookRun} :
    ListExpands g opened ss ss' all → NoneLost all [] (Stmt.itemsAll true ss')
  | .nil => .nil
  | .cons hs hmore => by
    rw [itemsAll_append]
    exact hs.noneLost.entry.append hmore.noneLost

end

end Lost

end MacroEngine
