import MacroEngine.Proofs.Control.Run

/-!
# How many returns a run reaches

A run that has reached a `return` never falls through again, for nothing in the language resumes
it. So it reaches a second `return` only while a finalizer unwinds a first one, and that takes a
`try` with a `return` both in its block and in its finalizer.
-/

namespace MacroEngine.Control

mutual

/-- A `return` stands in a statement, outside the functions in it. -/
def canReturn : Stmt → Bool
  | .ret _ _ => true
  | .ifElse _ _ t none => canReturnIn t
  | .ifElse _ _ t (some e) => canReturnIn t || canReturn e
  | .whileLoop _ _ b => canReturnIn b
  | .forOf _ _ _ _ b => canReturnIn b
  | .block _ b => canReturnIn b
  | .tryFinally _ b f => canReturnIn b || canReturnIn f
  | _ => false

def canReturnAny : List Stmt → Bool
  | [] => false
  | s :: ss => canReturn s || canReturnAny ss

def canReturnIn : Block → Bool
  | ⟨_, ss⟩ => canReturnAny ss

end

mutual

/-- A `try` stands in a statement, outside the functions in it, that can return both from its block
and from its finalizer. -/
def canReturnTwice : Stmt → Bool
  | .ifElse _ _ t none => canReturnTwiceIn t
  | .ifElse _ _ t (some e) => canReturnTwiceIn t || canReturnTwice e
  | .whileLoop _ _ b => canReturnTwiceIn b
  | .forOf _ _ _ _ b => canReturnTwiceIn b
  | .block _ b => canReturnTwiceIn b
  | .tryFinally _ b f =>
    (canReturnIn b && canReturnIn f) || canReturnTwiceIn b || canReturnTwiceIn f
  | _ => false

def canReturnTwiceAny : List Stmt → Bool
  | [] => false
  | s :: ss => canReturnTwice s || canReturnTwiceAny ss

def canReturnTwiceIn : Block → Bool
  | ⟨_, ss⟩ => canReturnTwiceAny ss

end

@[simp] theorem canReturnIn_eq (b : Block) : canReturnIn b = canReturnAny b.stmts := by
  cases b; rfl

@[simp] theorem canReturnTwiceIn_eq (b : Block) :
    canReturnTwiceIn b = canReturnTwiceAny b.stmts := by
  cases b; rfl

def Code.canReturn : Code → Bool
  | .stmt s => Control.canReturn s
  | .list ss => canReturnAny ss
  | .loop b => canReturnAny b
  | .each _ b => canReturnAny b

/-- Whether code can return while it unwinds a return. -/
def Code.canReturnTwice : Code → Bool
  | .stmt s => Control.canReturnTwice s
  | .list ss => canReturnTwiceAny ss
  | .loop b => canReturnTwiceAny b
  | .each _ b => canReturnTwiceAny b

theorem Evaluates.returnCount {e : Expr} {σ σ' : Store} {t : Trace} {r : Option Bool}
    (h : Evaluates e σ t σ' r) : returnCount t = 0 := by
  induction h with
  | await _ ih => exact ih
  | _ => rfl

structure Reached (code : Code) (t : Trace) (x : Exit) : Prop where
  falls : x = .falls → returnCount t = 0
  possible : 0 < returnCount t → code.canReturn = true
  once : code.canReturnTwice = false → returnCount t ≤ 1

theorem Reached.of_eq_zero {code : Code} {t : Trace} {x : Exit} (h : returnCount t = 0) :
    Reached code t x :=
  ⟨fun _ => h, fun hp => by omega, fun _ => by omega⟩

/-- Code that cannot return reaches no `return`. -/
theorem Reached.eq_zero {code : Code} {t : Trace} {x : Exit} (h : Reached code t x)
    (hc : code.canReturn = false) : returnCount t = 0 :=
  Nat.eq_zero_of_not_pos fun hp => Bool.false_ne_true (hc.symm.trans (h.possible hp))

theorem Reached.after {a b code : Code} {t u : Trace} {x : Exit} (h : Reached a t .falls)
    (h' : Reached b u x) (hr : b.canReturn = true → code.canReturn = true)
    (ht : code.canReturnTwice = false → b.canReturnTwice = false) : Reached code (t ++ u) x := by
  have hz := h.falls rfl
  refine ⟨fun hx => ?_, fun hp => hr (h'.possible ?_), fun hc => ?_⟩
  · simp [hz, h'.falls hx]
  · simpa [hz] using hp
  · simpa [hz] using h'.once (ht hc)

theorem Reached.alone {a code : Code} {t : Trace} {x : Exit} (h : Reached a t x)
    (hr : a.canReturn = true → code.canReturn = true)
    (ht : code.canReturnTwice = false → a.canReturnTwice = false) : Reached code t x :=
  ⟨h.falls, fun hp => hr (h.possible hp), fun hc => h.once (ht hc)⟩

/-- A finalizer runs after the block of its `try`, however that was left. -/
theorem Reached.finalized {s : Stamp} {b f : Block} {t u : Trace} {x y z : Exit}
    (h : Reached (.list b.stmts) t x) (h' : Reached (.list f.stmts) u y)
    (hz : z = .falls → x = .falls ∧ y = .falls) :
    Reached (.stmt (.tryFinally s b f)) (t ++ u) z := by
  refine ⟨fun hf => ?_, fun hp => ?_, fun hc => ?_⟩
  · simp [h.falls (hz hf).1, h'.falls (hz hf).2]
  · rw [returnCount_append] at hp
    have hor : 0 < returnCount t ∨ 0 < returnCount u := by omega
    simpa [Code.canReturn, canReturn] using hor.imp h.possible h'.possible
  · simp only [Code.canReturnTwice, canReturnTwice, Bool.or_eq_false_iff, Bool.and_eq_false_iff,
      canReturnIn_eq, canReturnTwiceIn_eq] at hc
    have hb := h.once hc.1.2
    have hf := h'.once hc.2
    rw [returnCount_append]
    rcases hc.1.1 with hn | hn
    · have hz := h.eq_zero hn
      omega
    · have hz := h'.eq_zero hn
      omega

/-- A run that falls through has reached no `return`; one that has reached a `return` runs code that
can return; and unless the code can return while it unwinds a return, it reaches at most one. -/
theorem Runs.reached {code : Code} {σ σ' : Store} {t : Trace} {x : Exit}
    (h : Runs code σ t σ' x) : Reached code t x := by
  induction h with
  | nil | inert | bindActions | bindFlag | loopDone | loopThrows | eachDone => exact .of_eq_zero rfl
  | expr h | exprThrows h | bind _ h | bindThrows _ h | throwExpr h | ifThrows h | ifNothing h
  | whileThrows h | whileDone h | forThrows h => exact .of_eq_zero h.returnCount
  | ret => exact ⟨by simp, fun _ => rfl, by simp⟩
  | retValue h | retThrows h =>
    exact ⟨by simp, fun _ => rfl, by simp [h.returnCount]⟩
  | next _ _ ih ih' =>
    exact ih.after ih' (by simp +contextual [Code.canReturn, canReturnAny])
      (by simp +contextual [Code.canReturnTwice, canReturnTwiceAny])
  | leave _ _ ih =>
    exact ih.alone (by simp +contextual [Code.canReturn, canReturnAny])
      (by simp +contextual [Code.canReturnTwice, canReturnTwiceAny])
  | @ifTrue s c a e σ t σ₁ t' σ₂ x h _ ih =>
    have hc : Reached (.list []) t .falls := .of_eq_zero h.returnCount
    cases e <;>
      exact hc.after ih (by simp +contextual [Code.canReturn, canReturn])
        (by simp +contextual [Code.canReturnTwice, canReturnTwice])
  | ifFalse h _ ih =>
    have hc : Reached (.list []) _ .falls := .of_eq_zero h.returnCount
    exact hc.after ih (by simp +contextual [Code.canReturn, canReturn])
      (by simp +contextual [Code.canReturnTwice, canReturnTwice])
  | whileNext h _ _ ih ih' =>
    have hc : Reached (.list []) _ .falls := .of_eq_zero h.returnCount
    exact hc.after (ih.after ih' id id) id id
  | whileLeave h _ _ ih | forOf _ h _ ih =>
    have hc : Reached (.list []) _ .falls := .of_eq_zero h.returnCount
    exact hc.after ih (by simp [Code.canReturn, canReturn])
      (by simp [Code.canReturnTwice, canReturnTwice])
  | forActions _ ih | block _ ih =>
    exact ih.alone (by simp [Code.canReturn, canReturn])
      (by simp [Code.canReturnTwice, canReturnTwice])
  | loopNext _ _ ih ih' | eachNext _ _ _ ih ih' => exact ih.after ih' id id
  | loopLeave _ _ ih | eachLeave _ _ _ ih => exact ih.alone id id
  | finallyFalls _ _ ih ih' => exact ih.finalized ih' fun hx => ⟨hx, rfl⟩
  | finallyLeaves _ _ hy ih ih' => exact ih.finalized ih' fun hx => absurd hx hy

end MacroEngine.Control
