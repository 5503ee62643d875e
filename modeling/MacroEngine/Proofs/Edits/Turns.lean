import MacroEngine.Proofs.Placement

/-!
# Hooks take their turns

The hooks of a declaration take their turns at a node. Each of them is shown what the ones before it
left, and what it asks for is carried out before the next one's turn. `TakeTurns` says so without
the record that the turns are kept in: what is left of the node, and all that was asked for, in
order. The record agrees with it, and the node keeps its place however often it is replaced.
-/

namespace MacroEngine

namespace Edit

def beforeSite? : Edit → Option Stmt
  | .before s => some s
  | _ => none

def afterSite? : Edit → Option Stmt
  | .after s => some s
  | _ => none

/-- What the edits of one hook leave of the node that it was shown. -/
inductive Leaves (shown : Node) (edits : List Edit) : Node → Prop where
  | removed (hremove : .remove ∈ edits) : Leaves shown edits (.void shown.span)
  /-- The first replacement stands in the place of the node. -/
  | replaced {earlier later : List Edit} {node : Node} (hnot : .remove ∉ edits)
      (hedits : edits = earlier ++ .replace node :: later) (hfirst : ∀ n, .replace n ∉ earlier) :
      Leaves shown edits (node.withSpan shown.span)
  | kept (hnot : .remove ∉ edits) (hnone : ∀ n, .replace n ∉ edits) : Leaves shown edits shown

theorem Leaves.span {shown node : Node} {edits : List Edit} (h : Leaves shown edits node) :
    node.span = shown.span := by
  cases h with
  | removed _ => rfl
  | replaced _ _ _ => exact Node.span_withSpan _ _
  | kept _ _ => rfl

theorem any_isRemoval_iff {edits : List Edit} : edits.any isRemoval = true ↔ .remove ∈ edits := by
  rw [List.any_eq_true]
  refine ⟨?_, fun h => ⟨.remove, h, rfl⟩⟩
  rintro ⟨e, he, hremoval⟩
  cases e with
  | remove => exact he
  | _ => cases hremoval

theorem replacement?_eq_some_iff {e : Edit} {node : Node} :
    e.replacement? = some node ↔ e = .replace node := by
  cases e <;> simp [replacement?]

/-- What is carried out is what the edits leave. -/
theorem leaves_commitNode (shown : Node) (edits : List Edit) :
    Leaves shown edits (commitNode shown edits) := by
  unfold commitNode
  split
  · rename_i hremove
    exact .removed (any_isRemoval_iff.mp hremove)
  · rename_i hnot
    have hnot' : .remove ∉ edits := mt any_isRemoval_iff.mpr hnot
    cases hfound : edits.findSome? replacement? with
    | none =>
      refine .kept hnot' fun n hn => ?_
      simpa [replacement?] using List.findSome?_eq_none_iff.mp hfound _ hn
    | some node =>
      obtain ⟨earlier, e, later, hedits, he, hfirst⟩ := List.findSome?_eq_some_iff.mp hfound
      obtain rfl := replacement?_eq_some_iff.mp he
      refine .replaced hnot' hedits fun n hn => ?_
      simpa [replacement?] using hfirst _ hn

end Edit

namespace Beside

def requested (edits : List Edit) : Beside :=
  ⟨edits.filterMap Edit.beforeSite?, edits.filterMap Edit.afterSite?⟩

theorem requested_append (edits more : List Edit) :
    requested (edits ++ more) = requested edits ++ requested more :=
  congrArg₂ Beside.mk List.filterMap_append List.filterMap_append

theorem requested_singleton (e : Edit) : requested [e] = e.beside := by cases e <;> rfl

theorem foldl_beside (edits : List Edit) (b : Beside) :
    edits.foldl (fun b e => b ++ e.beside) b = b ++ requested edits := by
  induction edits generalizing b with
  | nil => exact (append_empty b).symm
  | cons e edits ih =>
    rw [List.foldl_cons, ih, append_assoc, ← requested_singleton, ← requested_append]
    rfl

end Beside

/-- The patches that edits ask for come behind those there were, each kind in its order. -/
structure Patcher.Receives (p : Patcher) (edits : List Edit) (p' : Patcher) : Prop where
  top : free p'.before = free p.before ++ edits.filterMap Edit.atTop?
  before : anchored p'.before = anchored p.before ++ edits.filterMap Edit.beforeAnchor?
  bottom : free p'.after = free p.after ++ edits.filterMap Edit.atEnd?
  after : anchored p'.after = anchored p.after ++ edits.filterMap Edit.afterAnchor?

theorem Patcher.receives_foldl (edits : List Edit) (p : Patcher) :
    p.Receives edits (edits.foldl Edit.patch p) := by
  obtain ⟨htop, hbefore, hbottom, hafter⟩ := foldl_patch edits p
  exact ⟨htop, hbefore, hbottom, hafter⟩

variable (file : FileView) (d : Declaration)

/-- Hooks take their turns at a node, in a workshop: what they ask for, what is left of the node, and
the workshop then. -/
inductive TakeTurns :
    List TransformHook → Node → Workshop → List Edit → Node → Workshop → Prop where
  | done {node : Node} {shop : Workshop} : TakeTurns [] node shop [] node shop
  | turn {hook : TransformHook} {more : List TransformHook} {node left last : Node}
      {shop shop' final : Workshop} {edits asked : List Edit}
      (hasked : (hook ⟨node, d, file.path, file.statements⟩).run shop = (edits, shop'))
      (hleaves : Edit.Leaves node edits left) (hmore : TakeTurns more left shop' asked last final) :
      TakeTurns (hook :: more) node shop (edits ++ asked) last final

variable {file d}

/-- A node keeps its place in any number of turns. -/
theorem TakeTurns.span {hooks : List TransformHook} {node last : Node} {shop final : Workshop}
    {asked : List Edit} (h : TakeTurns file d hooks node shop asked last final) :
    last.span = node.span := by
  induction h with
  | done => rfl
  | turn _ hleaves _ ih => exact ih.trans hleaves.span

structure Folded.Comes (f f' : Folded) (asked : List Edit) : Prop where
  beside : f'.beside = f.beside ++ .requested asked
  patcher : f'.patcher = asked.foldl Edit.patch f.patcher

theorem Folded.Comes.refl (f : Folded) : f.Comes f [] := ⟨(Beside.append_empty _).symm, rfl⟩

theorem Folded.Comes.trans {f f₁ f₂ : Folded} {asked more : List Edit} (h : f.Comes f₁ asked)
    (h' : f₁.Comes f₂ more) : f.Comes f₂ (asked ++ more) where
  beside := by rw [h'.beside, h.beside, Beside.append_assoc, Beside.requested_append]
  patcher := by rw [h'.patcher, h.patcher, List.foldl_append]

theorem Folded.comes_commit (f : Folded) (edits : List Edit) : f.Comes (f.commit edits) edits :=
  ⟨Beside.foldl_beside _ _, rfl⟩

variable (file d)

/-- Folding a node through hooks lets them take their turns. -/
theorem Folded.through_takesTurns (hooks : List TransformHook) (f : Folded) (shop : Workshop) :
    ∃ asked,
      TakeTurns file d hooks f.node shop asked ((Folded.through file d hooks f).run shop).1.node
        ((Folded.through file d hooks f).run shop).2 ∧
      f.Comes ((Folded.through file d hooks f).run shop).1 asked := by
  induction hooks generalizing f shop with
  | nil => exact ⟨[], .done, .refl f⟩
  | cons hook more ih =>
    let view : SiteView := ⟨f.node, d, file.path, file.statements⟩
    obtain ⟨asked, hturns, hcomes⟩ := ih (f.commit ((hook view).run shop).1) ((hook view).run shop).2
    have hleaves : Edit.Leaves f.node ((hook view).run shop).1
        (f.commit ((hook view).run shop).1).node := Edit.leaves_commitNode _ _
    exact ⟨_, .turn rfl hleaves hturns, (f.comes_commit _).trans hcomes⟩

end MacroEngine
