import Mathlib.Data.List.Forall2
import MacroEngine.Edits
import MacroEngine.Proofs.Order.Lockstep

/-!
# Hooks that do not look at what was written

The log of a workshop is the one thing in it that check hooks may touch: they ask for no edits, so
they build no nodes and hoist nothing. A pure transform hook does not look at the log. It may number
the nodes that it builds, but otherwise what it asks for depends on what it is shown. So a site that
is folded through pure hooks comes to the same whatever was written before, and whichever check hooks
were registered beside them.
-/

namespace MacroEngine

/-- Two workshops are the same but for what was written. -/
structure Workshop.Agrees (w w' : Workshop) : Prop where
  nextId : w'.nextId = w.nextId
  hoisted : w'.hoisted = w.hoisted

namespace Workshop.Agrees

variable {w w₁ w₂ : Workshop}

theorem refl (w : Workshop) : w.Agrees w := ⟨rfl, rfl⟩

theorem symm (h : w.Agrees w₁) : w₁.Agrees w := ⟨h.nextId.symm, h.hoisted.symm⟩

theorem trans (h : w.Agrees w₁) (h' : w₁.Agrees w₂) : w.Agrees w₂ :=
  ⟨h'.nextId.trans h.nextId, h'.hoisted.trans h.hoisted⟩

end Workshop.Agrees

def Work.abreast : Lockstep Work := .state Workshop.Agrees

/-- What the work comes to does not depend on what was written. -/
def Work.Unmoved {α : Type} (x : Work α) : Prop := Work.abreast.holds Eq x x

def TransformHook.Pure (hook : TransformHook) : Prop := ∀ view, Work.Unmoved (hook view)

/-- A check hook that does nothing to the workshop but write. -/
def CheckHook.EditFree (check : CheckHook) : Prop :=
  ∀ (view : CheckView) (w : Workshop), w.Agrees ((check view).run w).2

structure Hooks.Pure (hooks : Hooks) : Prop where
  transform : ∀ hook ∈ hooks.transform, hook.Pure
  check : ∀ check ∈ hooks.check, check.EditFree

/-- A body registers pure hooks, the same transform hooks whenever it runs, and that is all it does
beside writing. -/
structure MacroBody.Pure (body : MacroBody) : Prop where
  hooks : ∀ (d : Declaration) (w : Workshop), ((body d).run w).1.Pure
  transform : ∀ (d : Declaration) (w w' : Workshop),
    ((body d).run w').1.transform = ((body d).run w).1.transform
  shop : ∀ (d : Declaration) (w : Workshop), w.Agrees ((body d).run w).2

def ModuleTable.Pure (table : ModuleTable) : Prop :=
  ∀ path m, table.answer? path = some m → ∀ entry ∈ m.exports, MacroBody.Pure entry.2

structure Hooks.TransformAlike (hooks hooks' : Hooks) : Prop where
  transform : hooks'.transform = hooks.transform
  pure : ∀ hook ∈ hooks.transform, hook.Pure

theorem Work.build_unmoved {α : Type} (x : Fresh α) : (Work.build x).Unmoved := by
  intro w w' h
  have hid := h.nextId
  change (x.run w.nextId).1 = (x.run w'.nextId).1 ∧ _
  rw [hid]
  refine ⟨rfl, ?_, h.hoisted⟩
  change (x.run w'.nextId).2 = (x.run w.nextId).2
  rw [hid]

section Folding

variable (file : FileView) (d : Declaration)

theorem Folded.through_unmoved {hooks : List TransformHook} (h : ∀ hook ∈ hooks, hook.Pure)
    (f : Folded) : (Folded.through file d hooks f).Unmoved := by
  induction hooks generalizing f with
  | nil => exact Work.abreast.pure rfl
  | cons hook hooks ih =>
    refine Work.abreast.bindEq (h hook List.mem_cons_self _) fun edits => ?_
    exact ih (fun hook hhook => h hook (List.mem_cons_of_mem _ hhook)) _

/-- A site comes to the same through hooks that transform alike. -/
theorem transformSite_abreast {hooks hooks' : Hooks} (h : hooks.TransformAlike hooks') (site : Expr)
    (patcher : Patcher) : Work.abreast.holds Eq (transformSite file d hooks site patcher)
      (transformSite file d hooks' site patcher) := by
  unfold transformSite
  rw [h.transform]
  refine Work.abreast.bindEq (Folded.through_unmoved file d h.pure _) fun f => ?_
  split
  · exact Work.abreast.pure rfl
  · exact Work.abreast.bindEq (Work.build_unmoved _) fun e => Work.abreast.pure rfl
  · exact Work.abreast.pure rfl
  · exact Work.abreast.pure rfl

def DeriveAbreast (derive derive' : Declaration × Hooks) : Prop :=
  derive.1 = derive'.1 ∧ derive.2.TransformAlike derive'.2

theorem Folded.throughDerives_abreast {derives derives' : List (Declaration × Hooks)}
    (h : List.Forall₂ DeriveAbreast derives derives') (f : Folded) :
    Work.abreast.holds Eq (Folded.throughDerives file derives f)
      (Folded.throughDerives file derives' f) := by
  induction h generalizing f with
  | nil => exact Work.abreast.pure rfl
  | @cons derive derive' derives derives' hderive _ ih =>
    obtain ⟨d, hooks⟩ := derive
    obtain ⟨_, hooks'⟩ := derive'
    obtain ⟨rfl, hhooks⟩ := hderive
    unfold Folded.throughDerives
    rw [hhooks.transform]
    refine Work.abreast.bindEq (Folded.through_unmoved file d hhooks.pure f) fun f => ?_
    split
    · exact Work.abreast.pure rfl
    · exact ih f

/-- A class comes to the same through derives that transform alike. -/
theorem transformClass_abreast {derives derives' : List (Declaration × Hooks)}
    (h : List.Forall₂ DeriveAbreast derives derives') (cls : Stmt) (patcher : Patcher) :
    Work.abreast.holds Eq (transformClass file derives cls patcher)
      (transformClass file derives' cls patcher) := by
  refine Work.abreast.bindEq (Folded.throughDerives_abreast file h _) fun f => ?_
  split
  · exact Work.abreast.pure rfl
  · exact Work.abreast.bindEq (Work.build_unmoved _) fun s => Work.abreast.pure rfl
  · exact Work.abreast.pure rfl

end Folding

end MacroEngine
