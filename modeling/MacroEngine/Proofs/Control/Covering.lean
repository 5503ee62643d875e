import MacroEngine.Proofs.Control.DeferredActions

/-!
# What lowering puts into a body

Lowering puts a frame around the statements of a function body, cleanups in front of its `return`s and
at its end, and registrations in place of its deferred statements. `CoversAll`, `Registered`, `Lowers`
and `Frames` say what goes in and where, for any body and with the identities that are given. The
deferred blocks move into closures as they are, and one that stands deeper is not entered.
-/

namespace MacroEngine.Control

open Lowering

/-- A cleanup that awaits the actions just if the function is asynchronous. -/
structure IsCleanupOf (isAsync : Bool) (s : Stmt) : Prop where
  isCleanup : IsCleanup s
  awaits : Lowering.awaits ⟨default, [s]⟩ = isAsync

/-- A cleanup of those that were made when identities were given from `fresh` on. -/
structure Inserted (isAsync : Bool) (fresh : NodeId) (s : Stmt) : Prop extends
    IsCleanupOf isAsync s where
  fresh_le : fresh ≤ s.id

/-- Whether the statement holds no statements of the function it stands in, and is no `return`. -/
def holdsNothing : Stmt → Bool
  | .ret _ _ | .ifElse _ _ _ _ | .whileLoop _ _ _ | .forOf _ _ _ _ _ | .block _ _
  | .tryFinally _ _ _ => false
  | _ => true

section Covers

variable (isAsync : Bool) (fresh : NodeId)

mutual

/-- The second list is the first one with a cleanup in front of each `return`, at any depth outside
functions and deferred blocks. -/
inductive CoversAll : List Stmt → List Stmt → Prop where
  | nil : CoversAll [] []
  | ret {run s v ss ss'} (hrun : Inserted isAsync fresh run) (hss : CoversAll ss ss') :
    CoversAll (.ret s v :: ss) (run :: .ret s v :: ss')
  | cons {s s' ss ss'} (hs : CoversIn s s') (hss : CoversAll ss ss') :
    CoversAll (s :: ss) (s' :: ss')

/-- The second statement is the first one, which is no `return`, with a cleanup in front of each
`return` in it. A `return` that is an alternative is put in a block. -/
inductive CoversIn : Stmt → Stmt → Prop where
  | same {s} (hs : holdsNothing s = true) : CoversIn s s
  | ifElse {s c b t t'} (ht : CoversAll t t') :
    CoversIn (.ifElse s c ⟨b, t⟩ none) (.ifElse s c ⟨b, t'⟩ none)
  | elseReturn {s c b t t' run s₁ v s₂ s₃} (ht : CoversAll t t')
      (hrun : Inserted isAsync fresh run) (hs₂ : fresh ≤ s₂.id) :
    CoversIn (.ifElse s c ⟨b, t⟩ (some (.ret s₁ v)))
      (.ifElse s c ⟨b, t'⟩ (some (.block s₂ ⟨s₃, [run, .ret s₁ v]⟩)))
  | elseIn {s c b t t' e e'} (ht : CoversAll t t') (he : CoversIn e e') :
    CoversIn (.ifElse s c ⟨b, t⟩ (some e)) (.ifElse s c ⟨b, t'⟩ (some e'))
  | whileLoop {s c b t t'} (ht : CoversAll t t') :
    CoversIn (.whileLoop s c ⟨b, t⟩) (.whileLoop s c ⟨b, t'⟩)
  | forOf {s k n i b t t'} (ht : CoversAll t t') :
    CoversIn (.forOf s k n i ⟨b, t⟩) (.forOf s k n i ⟨b, t'⟩)
  | block {s b t t'} (ht : CoversAll t t') : CoversIn (.block s ⟨b, t⟩) (.block s ⟨b, t'⟩)
  | tryFinally {s b t t' f u u'} (ht : CoversAll t t') (hu : CoversAll u u') :
    CoversIn (.tryFinally s ⟨b, t⟩ ⟨f, u⟩) (.tryFinally s ⟨b, t'⟩ ⟨f, u'⟩)

end

/-- The second list is the first one with a registration in place of each deferred statement. The
registration has the span of the statement and its block, and awaits it if the block awaits. -/
inductive Registered : List Stmt → List Stmt → Prop where
  | nil : Registered [] []
  | register {s₁ s₂ s₃ s₄ s₅ s b ss ss'} (hs₁ : fresh ≤ s₁.id) (hspan : s₁.span = s.span)
      (hss : Registered ss ss') :
    Registered (.defer s b :: ss) (.expr s₁ (.call s₂ (.member s₃ (.ident s₄ deferList) "push")
      [.arrow s₅ [] (isAsync && awaits b) b]) :: ss')
  | keep {s ss ss'} (hs : s.isDefer = false) (hss : Registered ss ss') :
    Registered (s :: ss) (s :: ss')

end Covers

/-- A computation that numbers nodes, started from `fresh` on: it yields what `P` holds of, and goes
on from there. -/
def Beyond {α : Type} (fresh : NodeId) (x : Fresh α) (P : α → Prop) : Prop :=
  ∀ next, fresh ≤ next → P (x.run next).1 ∧ fresh ≤ (x.run next).2

def Yields {α : Type} (fresh : NodeId) (x : Fresh α) (P : α → Prop) : Prop :=
  ∀ next, fresh ≤ next → P (x.run next).1

section Beyond

variable {α β : Type} {fresh : NodeId} {x : Fresh α} {f : α → Fresh β}
  {P : α → Prop} {Q : β → Prop}

theorem beyond_pure {a : α} (h : P a) : Beyond fresh (pure a) P := fun _ hnext => ⟨h, hnext⟩

theorem beyond_bind (hx : Beyond fresh x P)
    (hf : ∀ a, P a → Beyond fresh (f a) Q) : Beyond fresh (x >>= f) Q :=
  fun next hnext => hf _ (hx next hnext).1 _ (hx next hnext).2

theorem Beyond.yields (hx : Beyond fresh x P) (hf : ∀ a, P a → Yields fresh (f a) Q) :
    Yields fresh (x >>= f) Q :=
  fun next hnext => hf _ (hx next hnext).1 _ (hx next hnext).2

theorem cleanup_inserted (isAsync : Bool) (fresh : NodeId) :
    Beyond fresh (cleanup isAsync) (Inserted isAsync fresh) := by
  intro next hnext
  cases isAsync
  · exact ⟨⟨⟨.mk .call, rfl⟩, Nat.le_trans hnext (Nat.le_add_right next 11)⟩,
      Nat.le_trans hnext (Nat.le_add_right next 12)⟩
  · exact ⟨⟨⟨.mk .await, rfl⟩, Nat.le_trans hnext (Nat.le_add_right next 12)⟩,
      Nat.le_trans hnext (Nat.le_add_right next 13)⟩

theorem blockStmt_beyond (fresh : NodeId) (ss : List Stmt) : Beyond fresh (Fresh.blockStmt ss)
    fun s => ∃ s₁ s₂, s = .block s₁ ⟨s₂, ss⟩ ∧ fresh ≤ s₁.id :=
  fun next hnext => ⟨⟨_, _, rfl, Nat.le_trans hnext (Nat.le_add_right next 1)⟩,
    Nat.le_trans hnext (Nat.le_add_right next 2)⟩

theorem empty_beyond (fresh : NodeId) : Beyond fresh Fresh.empty fun _ => True :=
  fun next hnext => ⟨trivial, Nat.le_trans hnext (Nat.le_add_right next 1)⟩

mutual

theorem coverAll_coversAll (isAsync : Bool) (fresh : NodeId) : ∀ ss : List Stmt,
    Beyond fresh (coverAll isAsync ss) (CoversAll isAsync fresh ss)
  | [] => by
    unfold coverAll
    exact beyond_pure .nil
  | s :: ss => by
    have ih := coverAll_coversAll isAsync fresh ss
    unfold coverAll
    split
    · rename_i hret
      cases s with
      | ret s v =>
        refine beyond_bind (cleanup_inserted isAsync fresh) fun run hrun => ?_
        exact beyond_bind ih fun ss' hss => beyond_pure (.ret hrun hss)
      | _ => simp [Stmt.isReturn] at hret
    · rename_i hret
      refine beyond_bind (coverInside_coversIn isAsync fresh s (by simpa using hret)) fun s' hs => ?_
      exact beyond_bind ih fun ss' hss => beyond_pure (.cons hs hss)

theorem coverInside_coversIn (isAsync : Bool) (fresh : NodeId) : ∀ s : Stmt, s.isReturn = false →
    Beyond fresh (coverInside isAsync s) (CoversIn isAsync fresh s)
  | .ifElse s c ⟨b, t⟩ none, _ => by
    unfold coverInside
    refine beyond_bind (coverBlock_coversAll isAsync fresh ⟨b, t⟩) fun t' ht => beyond_pure ?_
    obtain ⟨ss', rfl, ht⟩ := ht
    exact .ifElse ht
  | .ifElse s c ⟨b, t⟩ (some e), _ => by
    unfold coverInside
    refine beyond_bind (coverBlock_coversAll isAsync fresh ⟨b, t⟩) fun t' ht => ?_
    obtain ⟨ss', rfl, ht⟩ := ht
    split
    · rename_i hret
      cases e with
      | ret s₁ v =>
        refine beyond_bind (empty_beyond fresh) fun _ _ => ?_
        refine beyond_bind (cleanup_inserted isAsync fresh) fun run hrun => ?_
        refine beyond_bind (blockStmt_beyond fresh [run, .ret s₁ v]) fun e' he => beyond_pure ?_
        obtain ⟨s₂, s₃, rfl, hs₂⟩ := he
        exact .elseReturn ht hrun hs₂
      | _ => simp [Stmt.isReturn] at hret
    · rename_i hret
      exact beyond_bind (coverInside_coversIn isAsync fresh e (by simpa using hret))
        fun e' he => beyond_pure (.elseIn ht he)
  | .whileLoop s c ⟨b, t⟩, _ => by
    unfold coverInside
    refine beyond_bind (coverBlock_coversAll isAsync fresh ⟨b, t⟩) fun t' hb => beyond_pure ?_
    obtain ⟨ss', rfl, hb⟩ := hb
    exact .whileLoop hb
  | .forOf s k n i ⟨b, t⟩, _ => by
    unfold coverInside
    refine beyond_bind (coverBlock_coversAll isAsync fresh ⟨b, t⟩) fun t' hb => beyond_pure ?_
    obtain ⟨ss', rfl, hb⟩ := hb
    exact .forOf hb
  | .block s ⟨b, t⟩, _ => by
    unfold coverInside
    refine beyond_bind (coverBlock_coversAll isAsync fresh ⟨b, t⟩) fun t' hb => beyond_pure ?_
    obtain ⟨ss', rfl, hb⟩ := hb
    exact .block hb
  | .tryFinally s ⟨b, t⟩ ⟨f, u⟩, _ => by
    unfold coverInside
    refine beyond_bind (coverBlock_coversAll isAsync fresh ⟨b, t⟩) fun t' hb => ?_
    refine beyond_bind (coverBlock_coversAll isAsync fresh ⟨f, u⟩) fun u' hf => beyond_pure ?_
    obtain ⟨ss', rfl, hb⟩ := hb
    obtain ⟨uu', rfl, hf⟩ := hf
    exact .tryFinally hb hf
  | .importNames _ _ _, _ | .function _ _ _, _ | .classDecl _ _ _, _ | .binding _ _ _ _ _, _
  | .expr _ _, _ | .defer _ _, _ | .throwExpr _ _, _ | .empty _, _ => by
    unfold coverInside
    exact beyond_pure (.same rfl)
  | .ret _ _, hret => by simp [Stmt.isReturn] at hret

theorem coverBlock_coversAll (isAsync : Bool) (fresh : NodeId) : ∀ b : Block,
    Beyond fresh (coverBlock isAsync b) fun b' =>
      ∃ ss', b' = ⟨b.stamp, ss'⟩ ∧ CoversAll isAsync fresh b.stmts ss'
  | ⟨s, ss⟩ => by
    unfold coverBlock
    exact beyond_bind (coverAll_coversAll isAsync fresh ss) fun ss' hss =>
      beyond_pure ⟨ss', rfl, hss⟩

end

/-- Registering the deferred statements of a list. -/
theorem register_registered (isAsync : Bool) (fresh : NodeId) (ss : List Stmt) :
    Beyond fresh (register isAsync ss) (Registered isAsync fresh ss) := by
  induction ss with
  | nil => exact beyond_pure .nil
  | cons s ss ih =>
    cases hs : s.isDefer with
    | true =>
      cases s with
      | defer s b =>
        have hr : Beyond fresh (registration isAsync s.span b) fun r => ∃ s₁ s₂ s₃ s₄ s₅,
            r = .expr s₁ (.call s₂ (.member s₃ (.ident s₄ deferList) "push")
              [.arrow s₅ [] (isAsync && awaits b) b]) ∧ fresh ≤ s₁.id ∧ s₁.span = s.span :=
          fun next hnext => ⟨⟨_, _, _, _, _, rfl, Nat.le_trans hnext (Nat.le_add_right next 4), rfl⟩,
            Nat.le_trans hnext (Nat.le_add_right next 5)⟩
        refine beyond_bind hr fun r hr => beyond_bind ih fun rs hrs => beyond_pure ?_
        obtain ⟨s₁, s₂, s₃, s₄, s₅, rfl, hs₁, hspan⟩ := hr
        exact .register hs₁ hspan hrs
      | _ => simp [Stmt.isDefer] at hs
    | false =>
      rw [register_cons isAsync ss hs]
      exact beyond_bind ih fun rs hrs => beyond_pure (.keep hs hrs)

end Beyond

section Exits

variable {isAsync : Bool} {fresh : NodeId} {s s' : Stmt}

def exitsAt (ss : List Stmt) : Option Bool := ss.getLast?.map Stmt.isExit

theorem exitsAt_cons (s : Stmt) (ss : List Stmt) :
    exitsAt (s :: ss) = some ((exitsAt ss).getD s.isExit) := by
  rw [exitsAt, exitsAt, List.getLast?_cons]
  cases ss.getLast? <;> rfl

theorem CoversIn.isExit (h : CoversIn isAsync fresh s s') : s'.isExit = s.isExit := by
  cases h <;> rfl

theorem CoversAll.exits : ∀ {ss ss' : List Stmt}, CoversAll isAsync fresh ss ss' →
    exitsAt ss' = exitsAt ss
  | _, _, .nil => rfl
  | _, _, .ret _ hss => by simp only [exitsAt_cons, hss.exits, Option.getD_some]
  | _, _, .cons hs hss => by simp only [exitsAt_cons, hss.exits, hs.isExit]

theorem Registered.exits {ss ss' : List Stmt} (h : Registered isAsync fresh ss ss') :
    exitsAt ss' = exitsAt ss := by
  induction h with
  | nil => rfl
  | register _ _ _ ih => simp only [exitsAt_cons, ih]; rfl
  | keep _ _ ih => simp only [exitsAt_cons, ih]

end Exits

/-- The second list is the first one with registrations and cleanups: in front of each `return`, and at
the end unless control never gets there. -/
inductive Lowers (isAsync : Bool) (fresh : NodeId) (ss : List Stmt) : List Stmt → Prop where
  | leaves {rs ss'} (hrs : Registered isAsync fresh ss rs) (hss : CoversAll isAsync fresh rs ss')
      (hexit : exitsAt ss = some true) : Lowers isAsync fresh ss ss'
  | falls {rs ss' run} (hrs : Registered isAsync fresh ss rs) (hss : CoversAll isAsync fresh rs ss')
      (hexit : exitsAt ss ≠ some true) (hrun : Inserted isAsync fresh run) :
      Lowers isAsync fresh ss (ss' ++ [run])

inductive Frames (isAsync : Bool) (inner : List Stmt) : List Stmt → Prop where
  | mk {s s₁ s₂ s₃ s₄ s₅ s₆ s₇ s₈ s₉ s₁₀ run} (hrun : IsCleanupOf isAsync run) :
    Frames isAsync inner [.binding s .constant deferList (some (.array s₁ [])) .internal,
      .binding s₂ .mutable deferredFlag (some (.bool s₃ false)) .internal,
      .tryFinally s₄ ⟨s₅, inner⟩ ⟨s₆, [.ifElse s₇
        (.unary s₈ .not (.ident s₉ deferredFlag)) ⟨s₁₀, [run]⟩ none]⟩]

section Lowers

variable {isAsync : Bool} {fresh : NodeId} {ss inner : List Stmt}

theorem getD_exitsAt (ss : List Stmt) :
    (exitsAt ss).getD false = true ↔ exitsAt ss = some true := by
  cases exitsAt ss with
  | none => simp
  | some b => simp

/-- Lowering a list of statements puts a frame around what is made of them. -/
theorem lowered_frames (isAsync : Bool) (fresh : NodeId) (ss : List Stmt) :
    Yields fresh (lowered isAsync ss) fun stmts =>
      ∃ inner, Lowers isAsync fresh ss inner ∧ Frames isAsync inner stmts := by
  refine (register_registered isAsync fresh ss).yields fun rs hrs => ?_
  refine (coverAll_coversAll isAsync fresh rs).yields fun covered hcovered => ?_
  have hexits : (covered.getLast?.map Stmt.isExit).getD false = true ↔ exitsAt ss = some true := by
    rw [← getD_exitsAt ss, ← hrs.exits, ← hcovered.exits, exitsAt]
  dsimp only
  split
  · rename_i hexit
    refine fun next hnext => ⟨covered, .leaves hrs hcovered (hexits.mp hexit), .mk ?_⟩
    exact (cleanup_inserted isAsync fresh _ (Nat.le_trans hnext (Nat.le_add_right next 2))).1.1
  · rename_i hexit
    refine (cleanup_inserted isAsync fresh).yields fun run hrun next hnext =>
      ⟨covered ++ [run], .falls hrs hcovered (fun h => hexit (hexits.mpr h)) hrun, .mk ?_⟩
    exact (cleanup_inserted isAsync fresh _ (Nat.le_trans hnext (Nat.le_add_right next 2))).1.1

end Lowers

end MacroEngine.Control
