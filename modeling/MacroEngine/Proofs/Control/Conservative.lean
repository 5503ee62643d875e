import MacroEngine.Proofs.Control.Covering

/-!
# Lowering a body is a conservative edit

Every `return` of a lowered body is right behind a cleanup, as far as it can be reached without entering
a function or a deferred block, and what lowering put in can be taken out again: the blocks that have new
identities go, and the registrations become deferred statements. Then the statements of the body are
back, with their identities and spans.
-/

namespace MacroEngine.Control

open Lowering

section Lists

variable (inDefers : Bool)

mutual

/-- The statement lists in a statement that can be reached without entering a function, a method or a
class, and with `inDefers` those in deferred blocks. An alternative counts as a list of its own. -/
def listsIn : Stmt → List (List Stmt)
  | .ifElse _ _ t none => listsOf t
  | .ifElse _ _ t (some e) => listsOf t ++ [e] :: listsIn e
  | .whileLoop _ _ b | .forOf _ _ _ _ b | .block _ b => listsOf b
  | .tryFinally _ b f => listsOf b ++ listsOf f
  | .defer _ b => if inDefers then listsOf b else []
  | _ => []

def listsAll : List Stmt → List (List Stmt)
  | [] => []
  | s :: ss => listsIn s ++ listsAll ss

def listsOf : Block → List (List Stmt)
  | ⟨_, ss⟩ => ss :: listsAll ss

end

end Lists

/-- Right in front of each `return` of the list stands a cleanup. -/
def Guarded (isAsync : Bool) (ss : List Stmt) : Prop :=
  ∀ before s v after, ss = before ++ .ret s v :: after →
    ∃ before' run, before = before' ++ [run] ∧ IsCleanupOf isAsync run

section Guarded

variable {isAsync : Bool} {fresh : NodeId} {s run : Stmt} {ss ss' : List Stmt}

theorem guarded_nil : Guarded isAsync [] := fun before _ _ _ h => by cases before <;> cases h

theorem Guarded.cons (h : Guarded isAsync ss) (hs : s.isReturn = false) :
    Guarded isAsync (s :: ss) := by
  intro before s₁ v after heq
  cases before with
  | nil =>
    cases heq
    cases hs
  | cons first before =>
    obtain ⟨rfl, rfl⟩ := List.cons.inj heq
    obtain ⟨before', run, rfl, hrun⟩ := h before s₁ v after rfl
    exact ⟨s :: before', run, rfl, hrun⟩

theorem Guarded.ret {s : Stamp} {v : Option Expr} (h : Guarded isAsync ss)
    (hrun : IsCleanupOf isAsync run) : Guarded isAsync (run :: .ret s v :: ss) := by
  intro before s₁ v₁ after heq
  cases before with
  | nil =>
    cases heq
    cases hrun.isCleanup
  | cons first before =>
    obtain ⟨rfl, hrest⟩ := List.cons.inj heq
    cases before with
    | nil => exact ⟨[], run, rfl, hrun⟩
    | cons second before =>
      obtain ⟨rfl, rfl⟩ := List.cons.inj hrest
      obtain ⟨before', run', rfl, hrun'⟩ := h before s₁ v₁ after rfl
      exact ⟨run :: .ret s v :: before', run', rfl, hrun'⟩

theorem Guarded.append (h : Guarded isAsync ss) (h' : Guarded isAsync ss') :
    Guarded isAsync (ss ++ ss') := by
  intro before s v after heq
  rcases List.append_eq_append_iff.mp heq with ⟨more, rfl, hmore⟩ | ⟨more, rfl, hmore⟩
  · obtain ⟨before', run, rfl, hrun⟩ := h' more s v after hmore
    exact ⟨ss ++ before', run, by rw [List.append_assoc], hrun⟩
  · cases more with
    | nil =>
      obtain ⟨before', run, hnil, -⟩ := h' [] s v after hmore.symm
      cases before' <;> cases hnil
    | cons first more =>
      obtain ⟨rfl, -⟩ := List.cons.inj hmore
      exact h before s v more rfl

theorem IsCleanup.isReturn (h : IsCleanup s) : s.isReturn = false := by
  cases h
  rfl

/-- The lists in a cleanup hold no `return`. -/
theorem IsCleanup.lists (h : IsCleanup s) : ∀ l ∈ listsIn false s, Guarded isAsync l := by
  cases h
  simp only [listsIn, listsOf, listsAll, List.append_nil, List.nil_append, List.forall_mem_cons]
  exact ⟨(guarded_nil.cons rfl).cons rfl, guarded_nil.cons rfl, by simp⟩

theorem CoversIn.isReturn (h : CoversIn isAsync fresh s s') : s'.isReturn = false := by
  cases h with
  | same hs => cases s <;> simp_all [holdsNothing, Stmt.isReturn]
  | _ => rfl

mutual

/-- In a list that is covered, every list is guarded. -/
theorem CoversAll.guarded : ∀ {ss ss' : List Stmt}, CoversAll isAsync fresh ss ss' →
    ∀ l ∈ ss' :: listsAll false ss', Guarded isAsync l
  | _, _, .nil => by
    simpa [listsAll] using guarded_nil
  | _, _, .ret hrun hss => by
    have ih := hss.guarded
    simp only [listsAll, listsIn, List.nil_append, List.forall_mem_cons,
      List.forall_mem_append] at ih ⊢
    exact ⟨ih.1.ret hrun.toIsCleanupOf, hrun.isCleanup.lists, ih.2⟩
  | _, _, .cons hs hss => by
    have ih := hss.guarded
    simp only [listsAll, List.forall_mem_cons, List.forall_mem_append] at ih ⊢
    exact ⟨ih.1.cons hs.isReturn, hs.guarded, ih.2⟩

theorem CoversIn.guarded : ∀ {s s' : Stmt}, CoversIn isAsync fresh s s' →
    ∀ l ∈ listsIn false s', Guarded isAsync l
  | s, _, .same hs => by
    cases s <;> simp_all [holdsNothing, listsIn]
  | _, _, .ifElse ht | _, _, .whileLoop ht | _, _, .forOf ht | _, _, .block ht => by
    simpa only [listsIn, listsOf] using ht.guarded
  | _, _, .elseReturn ht hrun _ => by
    simp only [listsIn, listsOf, listsAll, List.append_nil, List.forall_mem_cons,
      List.forall_mem_append]
    exact ⟨List.forall_mem_cons.mp ht.guarded, guarded_nil.cons rfl,
      guarded_nil.ret hrun.toIsCleanupOf, hrun.isCleanup.lists⟩
  | _, _, .elseIn ht he => by
    simp only [listsIn, listsOf, List.forall_mem_cons, List.forall_mem_append]
    exact ⟨List.forall_mem_cons.mp ht.guarded, guarded_nil.cons he.isReturn, he.guarded⟩
  | _, _, .tryFinally ht hu => by
    simp only [listsIn, listsOf, List.forall_mem_cons, List.forall_mem_append]
    exact ⟨List.forall_mem_cons.mp ht.guarded, List.forall_mem_cons.mp hu.guarded⟩

end

end Guarded

section Restore

variable (fresh : NodeId)

/-- Whether the statement is a block that was made when identities were given from `fresh` on. -/
def isAdded : Stmt → Bool
  | .block s _ => decide (fresh ≤ s.id)
  | _ => false

/-- The statement of a block with one statement, if the block was added. -/
def unwrapped : Stmt → Stmt
  | .block s ⟨b, [e]⟩ => if fresh ≤ s.id then e else .block s ⟨b, [e]⟩
  | e => e

mutual

/-- The statement without the blocks that were added to the lists in it; an alternative that was put
in a block is taken out of it. -/
def uncovered : Stmt → Stmt
  | .ifElse s c t none => .ifElse s c (uncoveredBlock t) none
  | .ifElse s c t (some e) => .ifElse s c (uncoveredBlock t) (some (unwrapped fresh (uncovered e)))
  | .whileLoop s c b => .whileLoop s c (uncoveredBlock b)
  | .forOf s k n i b => .forOf s k n i (uncoveredBlock b)
  | .block s b => .block s (uncoveredBlock b)
  | .tryFinally s b f => .tryFinally s (uncoveredBlock b) (uncoveredBlock f)
  | s => s

/-- The list without the blocks that were added to it and to the lists in it. -/
def uncoveredAll : List Stmt → List Stmt
  | [] => []
  | s :: ss => if isAdded fresh s then uncoveredAll ss else uncovered s :: uncoveredAll ss

def uncoveredBlock : Block → Block
  | ⟨s, ss⟩ => ⟨s, uncoveredAll ss⟩

end

/-- The deferred statement that a registration stands for, if the registration was added. -/
def unregistered : Stmt → Stmt
  | .expr s (.call s₁ c [.arrow s₂ ps a b]) =>
    if fresh ≤ s.id then .defer s b else .expr s (.call s₁ c [.arrow s₂ ps a b])
  | s => s

def restored (ss : List Stmt) : List Stmt := (uncoveredAll fresh ss).map (unregistered fresh)

def anonymous : Stmt → Stmt
  | .defer s b => (Stmt.defer s b).withId 0
  | s => s

def OldBlocks (items : List Item) : Prop := ∀ s b, .stmt (.block s b) ∈ items → ¬fresh ≤ s.id

end Restore

section Restored

variable {isAsync : Bool} {fresh : NodeId} {s s' : Stmt} {ss ss' : List Stmt}

@[simp] theorem isAdded_ret (s : Stamp) (v : Option Expr) : isAdded fresh (.ret s v) = false := rfl

theorem oldBlocks_append {is js : List Item} :
    OldBlocks fresh (is ++ js) ↔ OldBlocks fresh is ∧ OldBlocks fresh js := by
  simp only [OldBlocks, List.mem_append, or_imp, forall_and]

theorem OldBlocks.tail {i : Item} {is : List Item} (h : OldBlocks fresh (i :: is)) :
    OldBlocks fresh is := fun s b hmem => h s b (List.mem_cons_of_mem _ hmem)

theorem OldBlocks.isAdded (h : OldBlocks fresh (s.items true)) : isAdded fresh s = false := by
  cases s with
  | block s b => exact decide_eq_false (h s b List.mem_cons_self)
  | _ => rfl

theorem unwrapped_of_not_isAdded (h : isAdded fresh s = false) : unwrapped fresh s = s := by
  unfold unwrapped
  split
  · exact if_neg (of_decide_eq_false h)
  · rfl

theorem Inserted.isAdded (h : Inserted isAsync fresh s) : isAdded fresh s = true := by
  obtain ⟨⟨⟨_⟩, -⟩, hle⟩ := h
  exact decide_eq_true hle

theorem CoversIn.isAdded (h : CoversIn isAsync fresh s s') :
    Control.isAdded fresh s' = Control.isAdded fresh s := by
  cases h <;> rfl

mutual

/-- What covering put in is taken out again. -/
theorem CoversAll.uncovered : ∀ {ss ss' : List Stmt}, CoversAll isAsync fresh ss ss' →
    OldBlocks fresh (Stmt.itemsAll true ss) → uncoveredAll fresh ss' = ss
  | _, _, .nil, _ => by simp [uncoveredAll]
  | _, _, .ret hrun hss, h => by
    have ih := hss.uncovered (oldBlocks_append.mp h).2
    simp [uncoveredAll, hrun.isAdded, Control.uncovered, ih]
  | _, _, .cons hs hss, h => by
    obtain ⟨hfirst, hrest⟩ := oldBlocks_append.mp h
    simp [uncoveredAll, hs.isAdded, hfirst.isAdded, hs.uncovered hfirst, hss.uncovered hrest]

theorem CoversIn.uncovered : ∀ {s s' : Stmt}, CoversIn isAsync fresh s s' →
    OldBlocks fresh (s.items true) → Control.uncovered fresh s' = s
  | s, _, .same hs, _ => by
    cases s <;> simp_all [holdsNothing, Control.uncovered]
  | _, _, .ifElse ht, h | _, _, .whileLoop ht, h | _, _, .forOf ht, h => by
    have ih := ht.uncovered (oldBlocks_append.mp h.tail).2
    simp only [Control.uncovered, uncoveredBlock, ih]
  | _, _, .block ht, h => by
    simp only [Control.uncovered, uncoveredBlock, ht.uncovered h.tail]
  | _, _, .elseReturn ht hrun hs₂, h => by
    have ih := ht.uncovered (oldBlocks_append.mp (oldBlocks_append.mp h.tail).2).1
    simp [Control.uncovered, uncoveredBlock, uncoveredAll, unwrapped, ih, hrun.isAdded, hs₂]
  | _, _, .elseIn ht he, h => by
    obtain ⟨hthen, helse⟩ := oldBlocks_append.mp (oldBlocks_append.mp h.tail).2
    simp only [Control.uncovered, uncoveredBlock, ht.uncovered hthen, he.uncovered helse,
      unwrapped_of_not_isAdded helse.isAdded]
  | _, _, .tryFinally ht hu, h => by
    obtain ⟨hblock, hfinally⟩ := oldBlocks_append.mp h.tail
    simp only [Control.uncovered, uncoveredBlock, ht.uncovered hblock, hu.uncovered hfinally]

end

theorem uncoveredAll_append_inserted {run : Stmt} (hrun : Inserted isAsync fresh run)
    (ss : List Stmt) : uncoveredAll fresh (ss ++ [run]) = uncoveredAll fresh ss := by
  induction ss with
  | nil => simp [uncoveredAll, hrun.isAdded]
  | cons s ss ih => simp only [List.cons_append, uncoveredAll, ih]

theorem Registered.oldBlocks (h : Registered isAsync fresh ss ss')
    (hss : OldBlocks fresh (Stmt.itemsAll true ss)) :
    OldBlocks fresh (Stmt.itemsAll true ss') := by
  induction h with
  | nil => exact hss
  | register _ _ _ ih =>
    obtain ⟨hdefer, hrest⟩ := oldBlocks_append.mp hss
    refine oldBlocks_append.mpr ⟨?_, ih hrest⟩
    intro s b hmem
    refine hdefer.tail s b ?_
    simpa [Stmt.items, Expr.items, Expr.itemsAll, bodyItems_true] using hmem
  | keep _ _ ih =>
    obtain ⟨hfirst, hrest⟩ := oldBlocks_append.mp hss
    exact oldBlocks_append.mpr ⟨hfirst, ih hrest⟩

theorem unregistered_of_lt (h : s.id < fresh) : unregistered fresh s = s := by
  unfold unregistered
  split
  · exact if_neg (Nat.not_le.mpr h)
  · rfl

/-- Each registration is turned back into a deferred statement of its block. -/
theorem Registered.unregistered (h : Registered isAsync fresh ss ss')
    (hss : ∀ s ∈ ss, s.id < fresh) :
    (ss'.map (Control.unregistered fresh)).map anonymous = ss.map anonymous := by
  induction h with
  | nil => rfl
  | register hs₁ hspan _ ih =>
    obtain ⟨-, hrest⟩ := List.forall_mem_cons.mp hss
    simp only [List.map_cons, ih hrest, Control.unregistered, if_pos hs₁, anonymous, Stmt.withId,
      Stmt.withStamp, Stmt.span, Stmt.stamp]
    rw [hspan]
  | keep _ _ ih =>
    obtain ⟨hfirst, hrest⟩ := List.forall_mem_cons.mp hss
    simp only [List.map_cons, ih hrest, unregistered_of_lt hfirst]

end Restored

section Lowers

variable {isAsync : Bool} {fresh : NodeId} {ss inner : List Stmt}

theorem Lowers.guarded (h : Lowers isAsync fresh ss inner) :
    ∀ l ∈ inner :: listsAll false inner, Guarded isAsync l := by
  cases h with
  | leaves _ hss _ => exact hss.guarded
  | @falls _ covered run _ hss _ hrun =>
    have ih := hss.guarded
    rw [List.forall_mem_cons] at ih ⊢
    have hlists : ∀ l : List Stmt,
        listsAll false (l ++ [run]) = listsAll false l ++ listsIn false run := by
      intro l
      induction l with
      | nil => simp [listsAll]
      | cons s l ih => simp [listsAll, ih]
    rw [hlists, List.forall_mem_append]
    exact ⟨ih.1.append (guarded_nil.cons hrun.isCleanup.isReturn), ih.2, hrun.isCleanup.lists⟩

theorem IsCleanup.isExit {s : Stmt} (h : IsCleanup s) : s.isExit = false := by
  cases h
  rfl

/-- A cleanup stands at the end if control gets there, and only then. -/
theorem Lowers.endsWithCleanup (h : Lowers isAsync fresh ss inner) :
    (∃ run, inner.getLast? = some run ∧ IsCleanupOf isAsync run) ↔
      ¬∃ s, ss.getLast? = some s ∧ s.isExit = true := by
  rw [← Option.map_eq_some_iff, ← exitsAt]
  cases h with
  | leaves hrs hss hexit =>
    refine iff_of_false ?_ (not_not_intro hexit)
    rintro ⟨run, hlast, hrun⟩
    have hexits := hss.exits.trans (hrs.exits.trans hexit)
    rw [exitsAt, hlast, Option.map_some, hrun.isCleanup.isExit] at hexits
    cases hexits
  | falls _ _ hexit hrun =>
    exact iff_of_true ⟨_, List.getLast?_concat, hrun.toIsCleanupOf⟩ hexit

/-- What lowering put in is taken out again. -/
theorem Lowers.restored (h : Lowers isAsync fresh ss inner)
    (hss : ∀ s, .stmt s ∈ Stmt.itemsAll true ss → s.id < fresh) :
    (Control.restored fresh inner).map anonymous = ss.map anonymous := by
  have hblocks : OldBlocks fresh (Stmt.itemsAll true ss) :=
    fun s b hmem => Nat.not_le.mpr (hss (.block s b) hmem)
  have hdirect : ∀ s ∈ ss, s.id < fresh := by
    intro s hs
    refine hss s ?_
    rw [Stmt.itemsAll_eq_flatMap]
    exact List.mem_flatMap.mpr ⟨s, hs, s.mem_items_self true⟩
  cases h with
  | leaves hrs hcovered _ =>
    rw [Control.restored, hcovered.uncovered (hrs.oldBlocks hblocks), hrs.unregistered hdirect]
  | falls hrs hcovered _ hrun =>
    rw [Control.restored, uncoveredAll_append_inserted hrun,
      hcovered.uncovered (hrs.oldBlocks hblocks), hrs.unregistered hdirect]

end Lowers

/-- Lowering a function body with deferred statements of its own is a conservative edit. The body gets
the frame, and the count is the number of those statements. Between the frame stand its statements with
registrations and cleanups: every `return` outside functions and deferred blocks is right behind a
cleanup, a cleanup stands at the end just if the last statement is no `return` and no `throw`, and each
cleanup awaits the actions just if the function is asynchronous. Without the cleanups, and with the
registrations turned back, they are the statements of the body. -/
theorem functionBody_conservative (isAsync : Bool) {body : Block}
    (hdefer : body.stmts.any Stmt.isDefer = true) (next : NodeId) :
    ∃ inner stmts, ((functionBody isAsync body).run next).1 =
        (⟨body.stamp, stmts⟩, some (deferCount body.stmts)) ∧
      Frames isAsync inner stmts ∧
      (∀ l ∈ inner :: listsAll false inner, Guarded isAsync l) ∧
      ((∃ run, inner.getLast? = some run ∧ IsCleanupOf isAsync run) ↔
        ¬∃ s, body.stmts.getLast? = some s ∧ s.isExit = true) ∧
      Lowers isAsync next body.stmts inner ∧
      ((∀ s, .stmt s ∈ body.items true → s.id < next) →
        (restored next inner).map anonymous = body.stmts.map anonymous) := by
  obtain ⟨inner, hlowers, hframes⟩ := lowered_frames isAsync next body.stmts next (Nat.le_refl next)
  refine ⟨inner, _, ?_, hframes, hlowers.guarded, hlowers.endsWithCleanup, hlowers, fun hold => ?_⟩
  · unfold functionBody
    rw [if_pos hdefer]
    rfl
  · obtain ⟨stamp, ss⟩ := body
    exact hlowers.restored hold

/-- A body with a deferred block that is left where it stands, with a `return` in it. -/
def leftBehind : Block :=
  ⟨⟨1, ⟨0, 0⟩⟩, [.defer ⟨2, ⟨0, 0⟩⟩ ⟨⟨3, ⟨0, 0⟩⟩, []⟩,
    .ifElse ⟨4, ⟨0, 0⟩⟩ (.ident ⟨5, ⟨0, 0⟩⟩ "x") ⟨⟨6, ⟨0, 0⟩⟩,
      [.defer ⟨7, ⟨0, 0⟩⟩ ⟨⟨8, ⟨0, 0⟩⟩, [.ret ⟨9, ⟨0, 0⟩⟩ none]⟩]⟩ none]⟩

theorem functionBody_conservative_leftBehind : leftBehind.stmts.any Stmt.isDefer = true ∧
    ∃ inner stmts, ((functionBody false leftBehind).run 10).1 = (⟨leftBehind.stamp, stmts⟩, some 1) ∧
      Frames false inner stmts ∧
      (∃ run, inner.getLast? = some run ∧ IsCleanupOf false run) ∧
      (restored 10 inner).map anonymous = leftBehind.stmts.map anonymous := by
  have hdefer : leftBehind.stmts.any Stmt.isDefer = true := rfl
  obtain ⟨inner, stmts, hrun, hframes, -, hend, -, hrestored⟩ :=
    functionBody_conservative false hdefer 10
  refine ⟨hdefer, inner, stmts, hrun, hframes, hend.mpr ?_, hrestored ?_⟩
  · rintro ⟨s, hs, hexit⟩
    obtain rfl := Option.some.inj hs
    cases hexit
  · simp [leftBehind, Block.items, Stmt.itemsAll, Stmt.items, Expr.items, Stmt.id, Stmt.stamp]

/-- A `return` in a deferred block that is left where it stands has no cleanup in front of it. -/
theorem not_guarded_in_defers : ¬∀ (isAsync : Bool) (body : Block) (next : NodeId),
    body.stmts.any Stmt.isDefer = true → ∃ inner stmts,
      ((functionBody isAsync body).run next).1 =
        (⟨body.stamp, stmts⟩, some (deferCount body.stmts)) ∧
      Frames isAsync inner stmts ∧
      ∀ l ∈ inner :: listsAll true inner, Guarded isAsync l := by
  intro hguarded
  obtain ⟨inner, stmts, hrun, hframes, hlists⟩ := hguarded false leftBehind 10 rfl
  have hmem : [.ret ⟨9, ⟨0, 0⟩⟩ none] ∈ inner :: listsAll true inner := by
    cases hframes
    cases hrun
    simp [listsAll, listsIn, listsOf]
  obtain ⟨before', run, hnil, -⟩ := hlists _ hmem [] _ _ [] rfl
  cases before' <;> cases hnil

end MacroEngine.Control
