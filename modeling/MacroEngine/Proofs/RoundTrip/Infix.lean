import MacroEngine.Grammar.Reading
import MacroEngine.Proofs.RoundTrip.Parens

/-!
# Regrouping infix operators

Reading and printing each have a table of the operators, and the two agree: printing leaves an
operator without parentheses beside another one exactly where reading groups it to that side
(`operandLevels_left_iff`, `operandLevels_right_iff`).

A chain of operands and operators is grouped with a stack of operands that wait for their right
side. `Regroups` says that a chain in the middle of a longer one is grouped to a given tree whatever
waits in front of it and whatever comes behind, as long as the operators there take a tree of its
level for their side. For the tree of an operator this follows from the same for its two sides, if
these are in parentheses where printing puts them.
-/

namespace MacroEngine.Grammar

open Reading

def Gives {α : Type} (r : Reading α) (Q : α → Prop) : Prop :=
  ∀ n, ∃ a n', r.run n = some (a, n') ∧ Q a

section Gives

variable {α β : Type} {r : Reading α} {f : α → Reading β} {P Q : α → Prop} {R : β → Prop}

theorem gives_pure {a : α} (h : Q a) : Gives (pure a) Q := fun n => ⟨a, n, rfl, h⟩

theorem Gives.bind (h : Gives r Q) (hf : ∀ a, Q a → Gives (f a) R) : Gives (r >>= f) R := by
  intro n
  obtain ⟨a, n', hr, ha⟩ := h n
  obtain ⟨b, n'', hb, hR⟩ := hf a ha n'
  refine ⟨b, n'', ?_, hR⟩
  rw [StateT.run_bind, hr]
  exact hb

theorem gives_stamp (i j : Nat) : Gives (stampFrom i j) fun _ => True :=
  fun n => ⟨_, n + 1, rfl, trivial⟩

theorem gives_skipId : Gives skipId fun _ => True := fun n => ⟨_, n + 1, rfl, trivial⟩

theorem gives_stamped {i j : Nat} {f : Stamp → α} (h : ∀ s, Q (f s)) :
    Gives (do return f (← stampFrom i j)) Q :=
  (gives_stamp i j).bind fun s _ => gives_pure (h s)

end Gives

section Tables

open Printer (operandLevels)

theorem spelling_eq_token (op : BinaryOp) : spelling op = op.token := by
  cases op <;> rfl

theorem bindingLevel_add_one (op : BinaryOp) : bindingLevel op + 1 = op.precedence := by
  cases op <;> rfl

theorem associativity?_eq_left_iff (op : BinaryOp) :
    associativity? op = some .left ↔ op.isRightAssociative = false := by
  cases op <;> decide

theorem isRightAssociative_iff (op : BinaryOp) :
    op.isRightAssociative = true ↔ op.precedence = 7 := by
  cases op <;> decide

theorem precedence_le (op : BinaryOp) : op.precedence ≤ 7 := by
  cases op <;> decide

/-- When reading lets an operator take its right side, in the numbers that printing goes by. -/
theorem closesBefore_iff (op next : BinaryOp) : closesBefore op next = true ↔
    next.precedence < op.precedence ∨
      (next.precedence = op.precedence ∧ op.isRightAssociative = false) := by
  have hop := bindingLevel_add_one op
  have hnext := bindingLevel_add_one next
  simp only [closesBefore, Bool.or_eq_true, Bool.and_eq_true, decide_eq_true_eq,
    associativity?_eq_left_iff]
  rw [← hop, ← hnext, Nat.add_lt_add_iff_right, Nat.add_right_cancel_iff]

/-- Printing leaves an operator without parentheses on the left of another one exactly where reading
lets it take its right side first. -/
theorem operandLevels_left_iff (op inner : BinaryOp) :
    (operandLevels op).1 ≤ inner.precedence ↔ closesBefore inner op = true := by
  rw [closesBefore_iff, operandLevels]
  have hop := isRightAssociative_iff op
  have hinner := isRightAssociative_iff inner
  have hle := precedence_le inner
  cases hright : op.isRightAssociative with
  -- The operators that group from the right are those of the last level, where nothing closes first.
  | true =>
    have hseven := hop.mp hright
    rw [if_pos rfl]
    refine iff_of_false (by simp only [Level.postfixed]; omega) ?_
    rintro (hlt | ⟨heq, hleft⟩)
    · omega
    · rw [hinner.mpr (by omega)] at hleft
      cases hleft
  | false =>
    have hnot : op.precedence ≠ 7 := fun h => by simp [hop.mpr h] at hright
    rw [if_neg (by simp), Nat.le_iff_lt_or_eq]
    refine or_congr Iff.rfl ⟨fun heq => ⟨heq, ?_⟩, And.left⟩
    cases h : inner.isRightAssociative with
    | false => rfl
    | true => exact absurd (heq.trans (hinner.mp h)) hnot

/-- Printing leaves an operator without parentheses on the right of another one exactly where reading
lets it go first. -/
theorem operandLevels_right_iff (op inner : BinaryOp) :
    (operandLevels op).2 ≤ inner.precedence ↔ closesBefore op inner = false := by
  rw [← Bool.not_eq_true, closesBefore_iff, operandLevels]
  cases op.isRightAssociative with
  | true =>
    rw [if_pos rfl]
    simp
  | false =>
    rw [if_neg (by simp)]
    simp only [and_true]
    omega

theorem precedence_le_operandLevels (op : BinaryOp) :
    op.precedence ≤ (operandLevels op).1 ∧ op.precedence ≤ (operandLevels op).2 := by
  have hle := precedence_le op
  rw [operandLevels]
  split
  · simp only [Level.postfixed]
    omega
  · simp

end Tables

/-- What waits takes a tree of level `k` for its right side. -/
def Under (waiting : Waiting) (k : Nat) : Prop :=
  ∀ w ∈ waiting.head?, (Printer.operandLevels w.2).2 ≤ k

/-- What comes next takes a tree of level `k` for its left side. -/
def ClosedBy (k : Nat) : List Pair → Prop
  | [] => True
  | .mk (.op o) _ _ _ _ :: _ :: _ => (Printer.operandLevels o).1 ≤ k
  | _ => False

/-- An operand and the pairs after it are grouped to the tree `x` of level `k`. -/
def Regroups (p : Pair) (ms : List Pair) (x : Expr) (k : Nat) : Prop :=
  ∀ waiting more n, Under waiting k → ClosedBy k more → ∃ e n', e.recast .bare = x ∧
    (prefixedOf p >>= fun e => infixOf waiting e (ms ++ more)).run n =
      (infixOf waiting e more).run n'

section Regroups

variable {waiting : Waiting} {k l : Nat} {op : BinaryOp} {more : List Pair}

theorem Under.mono (h : Under waiting k) (hle : k ≤ l) : Under waiting l :=
  fun w hw => Nat.le_trans (h w hw) hle

theorem ClosedBy.mono (h : ClosedBy k more) (hle : k ≤ l) : ClosedBy l more := by
  match more, h with
  | [], _ => trivial
  | .mk (.op _) _ _ _ _ :: _ :: _, h => exact Nat.le_trans h hle

/-- Nothing that waits closes before an operator that goes first. -/
theorem closeBefore_of_under (h : Under waiting op.precedence) (e : Expr) :
    closeBefore op waiting e = pure (waiting, e) := by
  cases waiting with
  | nil => rfl
  | cons w waiting =>
    obtain ⟨lhs, top⟩ := w
    have hopen : closesBefore top op = false := (operandLevels_right_iff top op).mp (h (lhs, top) rfl)
    simp [closeBefore, hopen]

theorem regroups_operand {p : Pair} {x : Expr} (h : Gives (prefixedOf p) (·.recast .bare = x))
    (k : Nat) : Regroups p [] x k := by
  intro waiting more n _ _
  obtain ⟨e, n', hrun, hx⟩ := h n
  refine ⟨e, n', hx, ?_⟩
  rw [StateT.run_bind, hrun]
  rfl

theorem infixOf_cons (waiting : Waiting) (e : Expr) (op : BinaryOp) (i j : Nat) (s : List Char)
    (ps : List Pair) (q : Pair) (more : List Pair) :
    infixOf waiting e (.mk (.op op) i j s ps :: q :: more) =
      closeBefore op waiting e >>= fun r =>
        prefixedOf q >>= fun operand => infixOf ((r.2, op) :: r.1) operand more := by
  rw [infixOf]

/-- An operator whose two sides are complete is joined before what comes next. -/
theorem infixOf_closed (h : ClosedBy op.precedence more) (lhs rhs : Expr) (n : Nat) :
    ∃ s n', (infixOf ((lhs, op) :: waiting) rhs more).run n =
      (infixOf waiting (.binary s op lhs rhs) more).run n' := by
  refine ⟨⟨n, ⟨lhs.span.start, rhs.span.stop⟩⟩, n + 1, ?_⟩
  match more, h with
  | [], _ => rfl
  | .mk (.op next) i j s ps :: operand :: rest, h =>
    have hcloses := (operandLevels_left_iff next op).mp h
    rw [infixOf_cons, infixOf_cons, closeBefore, if_pos hcloses]
    rfl

/-- Two chains with an operator between them. -/
theorem Regroups.binary {p q : Pair} {ms ms' : List Pair} {x y : Expr} {k l : Nat}
    (hp : Regroups p ms x k) (hq : Regroups q ms' y l) {op : BinaryOp}
    (hk : (Printer.operandLevels op).1 ≤ k) (hl : (Printer.operandLevels op).2 ≤ l)
    (i j : Nat) (s : List Char) (ps : List Pair) :
    Regroups p (ms ++ .mk (.op op) i j s ps :: q :: ms') (.binary default op x y)
      op.precedence := by
  intro waiting more n hunder hclosed
  obtain ⟨hleft, hright⟩ := precedence_le_operandLevels op
  -- First the left side, which closes before the operator does.
  obtain ⟨lhs, n₁, hx, hrun⟩ := hp waiting (.mk (.op op) i j s ps :: q :: (ms' ++ more)) n
    (hunder.mono (Nat.le_trans hleft hk)) hk
  -- Then the right side, while the left one waits.
  obtain ⟨rhs, n₂, hy, hrun'⟩ := hq ((lhs, op) :: waiting) more n₁
    (fun w hw => by cases hw; exact hl) (hclosed.mono (Nat.le_trans hright hl))
  obtain ⟨stamp, n₃, hjoin⟩ := infixOf_closed hclosed lhs rhs n₂
  refine ⟨.binary stamp op lhs rhs, n₃, by simp [Expr.recast, hx, hy], ?_⟩
  rw [← hjoin, ← hrun', List.append_assoc, List.cons_append, List.cons_append, hrun, infixOf_cons,
    closeBefore_of_under hunder]
  rfl

end Regroups

end MacroEngine.Grammar
