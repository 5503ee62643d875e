import Mathlib.Data.List.Forall2
import MacroEngine.Edits
import MacroEngine.Proofs.Order.Lowered

/-!
# Hooks that do not look at numbers

A hook is blind to the identities of nodes if it asks for the same edits, up to a renumbering, when
it is shown the same site and the same statements with other identities. It may build nodes, and
their identities are renumbered too. Its anchors accept the same statements. What stands in the
workshop beside the next identity makes no difference to what it asks for. A site that is folded
through blind hooks comes to the same, with other numbers.
-/

namespace MacroEngine

inductive Edit.Corresponds (ρ : Nat → Nat) : Edit → Edit → Prop
  | replace (node : Node) : Corresponds ρ (.replace node) (.replace (node.renumber ρ))
  | remove : Corresponds ρ .remove .remove
  | before (s : Stmt) : Corresponds ρ (.before s) (.before (s.renumber ρ))
  | after (s : Stmt) : Corresponds ρ (.after s) (.after (s.renumber ρ))
  | prepend (s : Stmt) : Corresponds ρ (.prepend s) (.prepend (s.renumber ρ))
  | append (s : Stmt) : Corresponds ρ (.append s) (.append (s.renumber ρ))
  | insertBefore (s : Stmt) {anchor anchor' : Stmt → Bool}
    (accepts : ∀ t : Stmt, anchor' (t.renumber ρ) = anchor t) :
    Corresponds ρ (.insertBefore s anchor) (.insertBefore (s.renumber ρ) anchor')
  | insertAfter (s : Stmt) {anchor anchor' : Stmt → Bool}
    (accepts : ∀ t : Stmt, anchor' (t.renumber ρ) = anchor t) :
    Corresponds ρ (.insertAfter s anchor) (.insertAfter (s.renumber ρ) anchor')

/-- Two hooks ask for the same at sites that are the same up to a renumbering of nodes, those that
exist as well as those that are built next. -/
def TransformHook.Alike (hook hook' : TransformHook) : Prop :=
  ∀ (ρ : Nat → Nat) (view : SiteView) (w w' : Workshop),
    (∀ i : Nat, ρ (w.nextId + i) = w'.nextId + i) →
    List.Forall₂ (Edit.Corresponds ρ) ((hook view).run w).1 ((hook' (view.renumber ρ)).run w').1 ∧
      ∃ used : Nat, ((hook view).run w).2.nextId = w.nextId + used ∧
        ((hook' (view.renumber ρ)).run w').2.nextId = w'.nextId + used

/-- A body registers hooks that ask for the same, wherever it runs and whatever the identity of its
declaration is. Registering hooks is all that it does, so it builds no nodes. -/
def MacroBody.Blind (body : MacroBody) : Prop :=
  ∀ (ρ : Nat → Nat) (d : Declaration) (w w' : Workshop),
    List.Forall₂ TransformHook.Alike ((body d).run w).1.transform
      ((body (d.renumber ρ)).run w').1.transform ∧
      ((body d).run w).2.nextId = w.nextId

/-- A hook puts no class that lists other names in place of what it is shown, unless it is shown
such a class. -/
def TransformHook.Keeps (names : String → Prop) (hook : TransformHook) : Prop :=
  ∀ (view : SiteView) (w : Workshop), view.node.Within names →
    (∀ s ∈ view.statements, s.Within names) →
      ∀ edit ∈ ((hook view).run w).1, ∀ node, edit.replacement? = some node → node.Within names

/-- A body registers hooks that keep to some names. -/
def MacroBody.Keeps (names : String → Prop) (body : MacroBody) : Prop :=
  ∀ (d : Declaration) (w : Workshop), ∀ hook ∈ ((body d).run w).1.transform, hook.Keeps names

theorem MacroBody.keeps_of_forall {names : String → Prop} (h : ∀ name, names name)
    (body : MacroBody) : body.Keeps names :=
  fun _ _ _ _ _ _ _ _ _ _ node _ => node.within_of_forall h

/-- Hooks that ask for the same, and keep to some names. -/
structure Hooks.Alike (names : String → Prop) (hooks hooks' : Hooks) : Prop where
  transform : List.Forall₂ TransformHook.Alike hooks.transform hooks'.transform
  keeps : ∀ hook ∈ hooks.transform, hook.Keeps names

namespace Beside

variable (ρ : NodeId → NodeId)

def renumber (b : Beside) : Beside :=
  ⟨b.before.map (Stmt.renumber ρ), b.after.map (Stmt.renumber ρ)⟩

theorem renumber_append (b c : Beside) : (b ++ c).renumber ρ = b.renumber ρ ++ c.renumber ρ := by
  change renumber ρ (append b c) = append (b.renumber ρ) (c.renumber ρ)
  simp [append, renumber]

end Beside

structure Patch.Corresponds (ρ : Nat → Nat) (p p' : Patch) : Prop where
  stmt : p'.stmt = p.stmt.renumber ρ
  anchor : Option.Rel (fun a a' => ∀ t : Stmt, a' (t.renumber ρ) = a t) p.anchor p'.anchor

structure Patcher.Corresponds (ρ : Nat → Nat) (p p' : Patcher) : Prop where
  before : List.Forall₂ (Patch.Corresponds ρ) p.before p'.before
  after : List.Forall₂ (Patch.Corresponds ρ) p.after p'.after

structure Folded.Corresponds (ρ : Nat → Nat) (names : String → Prop) (f f' : Folded) : Prop where
  node : f'.node = f.node.renumber ρ
  within : f.node.Within names
  beside : f'.beside = f.beside.renumber ρ
  patcher : f.patcher.Corresponds ρ f'.patcher

section Commit

variable {ρ : Nat → Nat} {edits edits' : List Edit}

theorem Edit.commitNode_corresponds (h : List.Forall₂ (Edit.Corresponds ρ) edits edits')
    (node : Node) :
    Edit.commitNode (node.renumber ρ) edits' = (Edit.commitNode node edits).renumber ρ := by
  have hremoval : edits'.any Edit.isRemoval = edits.any Edit.isRemoval := by
    induction h with
    | nil => rfl
    | cons hedit _ ih =>
      rw [List.any_cons, List.any_cons, ih]
      cases hedit <;> rfl
  have hreplacement : edits'.findSome? Edit.replacement? =
      (edits.findSome? Edit.replacement?).map (Node.renumber ρ) := by
    clear hremoval
    induction h with
    | nil => rfl
    | cons hedit _ ih => cases hedit <;> first | exact ih | rfl
  rw [Edit.commitNode, Edit.commitNode, hremoval, hreplacement, Node.span_renumber]
  split
  · rfl
  · cases edits.findSome? Edit.replacement? with
    | none => rfl
    | some replacement => exact (Node.withSpan_renumber ρ _ replacement).symm

theorem Edit.beside_corresponds {edit edit' : Edit} (h : Edit.Corresponds ρ edit edit') :
    edit'.beside = edit.beside.renumber ρ := by
  cases h <;> rfl

theorem Edit.patch_corresponds {p p' : Patcher} {edit edit' : Edit}
    (hp : p.Corresponds ρ p') (h : Edit.Corresponds ρ edit edit') :
    (Edit.patch p edit).Corresponds ρ (Edit.patch p' edit') := by
  have hback : ∀ {ps ps' : List Patch} {q q' : Patch}, List.Forall₂ (Patch.Corresponds ρ) ps ps' →
      q.Corresponds ρ q' → List.Forall₂ (Patch.Corresponds ρ) (ps ++ [q]) (ps' ++ [q']) :=
    fun hps hq => List.rel_append hps (.cons hq .nil)
  cases h with
  | prepend s => exact ⟨hback hp.before ⟨rfl, .none⟩, hp.after⟩
  | append s => exact ⟨hp.before, hback hp.after ⟨rfl, .none⟩⟩
  | insertBefore s accepts => exact ⟨hback hp.before ⟨rfl, .some accepts⟩, hp.after⟩
  | insertAfter s accepts => exact ⟨hp.before, hback hp.after ⟨rfl, .some accepts⟩⟩
  | _ => exact hp

theorem Edit.within_commitNode {names : String → Prop} {node : Node} (h : node.Within names)
    (hedits : ∀ edit ∈ edits, ∀ node, edit.replacement? = some node → node.Within names) :
    (Edit.commitNode node edits).Within names := by
  unfold Edit.commitNode
  split
  · trivial
  · cases hfound : edits.findSome? Edit.replacement? with
    | none => exact h
    | some replacement =>
      obtain ⟨edit, hedit, hreplacement⟩ := List.exists_of_findSome?_eq_some hfound
      exact (Node.within_withSpan _ _).mpr (hedits edit hedit replacement hreplacement)

theorem Folded.commit_corresponds {names : String → Prop} {f f' : Folded}
    (hf : f.Corresponds ρ names f') (h : List.Forall₂ (Edit.Corresponds ρ) edits edits')
    (hedits : ∀ edit ∈ edits, ∀ node, edit.replacement? = some node → node.Within names) :
    (f.commit edits).Corresponds ρ names (f'.commit edits') where
  node := by
    rw [Folded.commit, Folded.commit, hf.node]
    exact Edit.commitNode_corresponds h f.node
  within := Edit.within_commitNode hf.within hedits
  beside := by
    have hbeside := hf.beside
    rw [Folded.commit, Folded.commit]
    generalize f.beside = b at hbeside ⊢
    generalize f'.beside = b' at hbeside ⊢
    clear hedits
    dsimp only
    induction h generalizing b b' with
    | nil => exact hbeside
    | cons hedit _ ih =>
      refine ih _ _ ?_
      dsimp only
      rw [hbeside, Edit.beside_corresponds hedit, Beside.renumber_append]
  patcher := by
    have hpatcher := hf.patcher
    rw [Folded.commit, Folded.commit]
    generalize f.patcher = p at hpatcher ⊢
    generalize f'.patcher = p' at hpatcher ⊢
    clear hedits
    dsimp only
    induction h generalizing p p' with
    | nil => exact hpatcher
    | cons hedit _ ih => exact ih _ _ (Edit.patch_corresponds hpatcher hedit)

end Commit

namespace Work

def inStep (ρ : Nat → Nat) (bound : Nat) : Lockstep Work :=
  .state fun w w' => Aligned ρ bound w.nextId w'.nextId

variable {ρ : Nat → Nat} {bound : Nat}

theorem build_inStep {α β : Type} {V : α → β → Prop} {x : Fresh α} {y : Fresh β}
    (h : (Fresh.inStep ρ bound).holds V x y) : (inStep ρ bound).holds V (build x) (build y) :=
  fun w w' hw => h w.nextId w'.nextId hw

theorem hook_inStep {hook hook' : TransformHook} (h : hook.Alike hook') {names : String → Prop}
    (hkeeps : hook.Keeps names) (view : SiteView) (hnode : view.node.Within names)
    (hstatements : ∀ s ∈ view.statements, s.Within names) :
    (inStep ρ bound).holds (fun edits edits' => List.Forall₂ (Edit.Corresponds ρ) edits edits' ∧
        ∀ edit ∈ edits, ∀ node, edit.replacement? = some node → node.Within names)
      (hook view) (hook' (view.renumber ρ)) := by
  intro w w' hw
  obtain ⟨hedits, used, hused, hused'⟩ := h ρ view w w' hw.carries
  refine ⟨⟨hedits, hkeeps view w hnode hstatements⟩, ?_⟩
  simpa only [hused, hused'] using hw.add used

end Work

section Through

open Work

variable {ρ : Nat → Nat} {bound : Nat} {names : String → Prop}

def FileView.renumber (ρ : NodeId → NodeId) (file : FileView) : FileView :=
  ⟨file.path, file.statements.map (Stmt.renumber ρ)⟩

variable {file : FileView} (hfile : ∀ s ∈ file.statements, s.Within names)

include hfile

theorem Folded.through_inStep (d : Declaration) {hooks hooks' : List TransformHook}
    (h : List.Forall₂ TransformHook.Alike hooks hooks') (hkeeps : ∀ hook ∈ hooks, hook.Keeps names)
    {f f' : Folded} (hf : f.Corresponds ρ names f') :
    (inStep ρ bound).holds (Folded.Corresponds ρ names) (Folded.through file d hooks f)
      (Folded.through (file.renumber ρ) (d.renumber ρ) hooks' f') := by
  induction h generalizing f f' with
  | nil => exact (inStep ρ bound).pure hf
  | cons hhook _ ih =>
    obtain ⟨hkeep, hkeeps⟩ := List.forall_mem_cons.mp hkeeps
    rw [Folded.through, Folded.through, hf.node]
    refine (inStep ρ bound).bind (hook_inStep hhook hkeep ⟨f.node, d, file.path, file.statements⟩
      hf.within hfile) fun edits edits' hedits => ?_
    exact ih hkeeps (Folded.commit_corresponds hf hedits.1 hedits.2)

/-- What becomes of a site: the same error, or expressions and statements that correspond. -/
abbrev SiteAlike (ρ : NodeId → NodeId) (names : String → Prop) :
    Except Error (Expr × Beside) → Except Error (Expr × Beside) → Prop :=
  ExceptRel (SendsOn (fun r => r.1.Within names) fun r => (r.1.renumber ρ, r.2.renumber ρ))

theorem transformSite_inStep (d : Declaration) {hooks hooks' : Hooks} (h : hooks.Alike names hooks')
    {site : Expr} (hsite : site.Within names) {patcher patcher' : Patcher}
    (hpatcher : patcher.Corresponds ρ patcher') :
    (inStep ρ bound).holds
      (fun out out' => SiteAlike ρ names out.1 out'.1 ∧ out.2.Corresponds ρ out'.2)
      (transformSite file d hooks site patcher)
      (transformSite (file.renumber ρ) (d.renumber ρ) hooks' (site.renumber ρ) patcher') := by
  have hstart : Folded.Corresponds ρ names ⟨.expr site, .empty, patcher⟩
      ⟨.expr (site.renumber ρ), .empty, patcher'⟩ := ⟨rfl, hsite, rfl, hpatcher⟩
  refine (inStep ρ bound).bind
    (Folded.through_inStep hfile d h.transform h.keeps hstart) fun f f' hf => ?_
  obtain ⟨node, beside, patcher⟩ := f
  obtain ⟨_, _, patcher'⟩ := f'
  obtain ⟨rfl, hnode, rfl, hpatcher⟩ := hf
  cases node with
  | expr e => exact (inStep ρ bound).pure ⟨.ok ⟨hnode, rfl⟩, hpatcher⟩
  | void span =>
    have hvoid : (inStep ρ bound).holds (SendsOn (Expr.Within names) (Expr.renumber ρ))
      (build Fresh.voidZero) (build Fresh.voidZero) :=
      Lockstep.sendsOn (build_inStep Fresh.voidZero_inStep) fun _ => trivial
    refine (inStep ρ bound).bindOn hvoid fun e he => (inStep ρ bound).pure ⟨.ok ⟨?_, ?_⟩, hpatcher⟩
    · exact (e.within_withSpan _).mpr he
    · simp
  | stmt s =>
    cases s with
    | expr _ e => exact (inStep ρ bound).pure ⟨.ok ⟨hnode, rfl⟩, hpatcher⟩
    | binding _ _ _ init _ => cases init <;> exact (inStep ρ bound).pure ⟨.error _, hpatcher⟩
    | ret _ value => cases value <;> exact (inStep ρ bound).pure ⟨.error _, hpatcher⟩
    | ifElse _ _ _ alternative =>
      cases alternative <;> exact (inStep ρ bound).pure ⟨.error _, hpatcher⟩
    | _ => exact (inStep ρ bound).pure ⟨.error _, hpatcher⟩

omit hfile

def DerivesAlike (ρ : NodeId → NodeId) (names : String → Prop)
    (derives derives' : List (Declaration × Hooks)) : Prop :=
  List.Forall₂ (fun a b => b.1 = a.1.renumber ρ ∧ a.2.Alike names b.2) derives derives'

include hfile

theorem Folded.throughDerives_inStep {derives derives' : List (Declaration × Hooks)}
    (h : DerivesAlike ρ names derives derives') {f f' : Folded} (hf : f.Corresponds ρ names f') :
    (inStep ρ bound).holds (Folded.Corresponds ρ names) (Folded.throughDerives file derives f)
      (Folded.throughDerives (file.renumber ρ) derives' f') := by
  induction h generalizing f f' with
  | nil => exact (inStep ρ bound).pure hf
  | @cons derive derive' _ _ hderive _ ih =>
    obtain ⟨d, hooks⟩ := derive
    obtain ⟨_, hooks'⟩ := derive'
    obtain ⟨rfl, hhooks⟩ := hderive
    refine (inStep ρ bound).bind
      (Folded.through_inStep hfile d hhooks.transform hhooks.keeps hf) fun f f' hf => ?_
    rw [hf.node, Node.isVoid_renumber]
    split
    · exact (inStep ρ bound).pure hf
    · exact ih hf

theorem transformClass_inStep {derives derives' : List (Declaration × Hooks)}
    (h : DerivesAlike ρ names derives derives') {cls : Stmt} (hcls : cls.Within names)
    {patcher patcher' : Patcher} (hpatcher : patcher.Corresponds ρ patcher') :
    (inStep ρ bound).holds
      (fun out out' => SendsOn (fun s => ∀ t ∈ s, t.Within names) (Option.map (Stmt.renumber ρ))
          out.1 out'.1 ∧ out'.2.1 = out.2.1.renumber ρ ∧ out.2.2.Corresponds ρ out'.2.2)
      (transformClass file derives cls patcher)
      (transformClass (file.renumber ρ) derives' (cls.renumber ρ) patcher') := by
  have hstart : Folded.Corresponds ρ names ⟨.stmt cls, .empty, patcher⟩
      ⟨.stmt (cls.renumber ρ), .empty, patcher'⟩ := ⟨rfl, hcls, rfl, hpatcher⟩
  refine (inStep ρ bound).bind (Folded.throughDerives_inStep hfile h hstart) fun f f' hf => ?_
  obtain ⟨node, beside, patcher⟩ := f
  obtain ⟨_, _, patcher'⟩ := f'
  obtain ⟨rfl, hnode, rfl, hpatcher⟩ := hf
  cases node with
  | stmt s =>
    exact (inStep ρ bound).pure ⟨⟨fun t ht => Option.mem_some.mp ht ▸ hnode, rfl⟩, rfl, hpatcher⟩
  | void span =>
    exact (inStep ρ bound).pure ⟨⟨fun _ ht => absurd ht (Option.not_mem_none _), rfl⟩, rfl, hpatcher⟩
  | expr e =>
    have hstmt : (inStep ρ bound).holds (SendsOn (Stmt.Within names) (Stmt.renumber ρ))
      (build (Fresh.exprStmt e)) (build (Fresh.exprStmt (e.renumber ρ))) :=
      Lockstep.sendsOn (build_inStep (Fresh.exprStmt_inStep e)) fun _ => hnode
    refine (inStep ρ bound).bindOn hstmt fun s hs => ?_
    refine (inStep ρ bound).pure ⟨⟨fun t ht => ?_, ?_⟩, rfl, hpatcher⟩
    · exact Option.mem_some.mp ht ▸ (s.within_withStamp _).mpr hs
    · simp

end Through

end MacroEngine
