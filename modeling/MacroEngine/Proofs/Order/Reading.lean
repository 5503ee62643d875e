import MacroEngine.Proofs.Order.Renumber
import MacroEngine.Proofs.Parsed.Runs
import MacroEngine.Parse

/-!
# Reading from another number on

Reading never looks at the numbers it gives away. So when it starts from another number, it yields
the same tree with other numbers. `Shadows` says this of two readings; it is proved for each of the
functions that read a tree, along their own recursion.
-/

namespace MacroEngine

namespace Grammar

open Reading

/-- The numbers from `n` up to `k` become those from `n'` on. -/
def Carries (ρ : Nat → Nat) (n k n' : Nat) : Prop := ∀ i, n + i < k → ρ (n + i) = n' + i

variable {α β : Type} {ρ : Nat → Nat}

theorem Carries.left {n m k n' : Nat} (h : Carries ρ n k n') (hle : m ≤ k) : Carries ρ n m n' :=
  fun i hi => h i (Nat.lt_of_lt_of_le hi hle)

theorem Carries.right {n m k n' : Nat} (h : Carries ρ n k n') (hle : n ≤ m) :
    Carries ρ m k (n' + (m - n)) := by
  intro i hi
  have hcarried := h (m - n + i) (by omega)
  rw [show n + (m - n + i) = m + i by omega] at hcarried
  omega

/-- When a reading yields something, the other one yields the same with other numbers, wherever it
starts. -/
def Shadows (ρ : Nat → Nat) (f : α → β) (x : Reading α) (y : Reading β) : Prop :=
  ∀ (n : Nat) (a : α) (k : Nat), x.run n = some (a, k) →
    n ≤ k ∧ ∀ n', Carries ρ n k n' → y.run n' = some (f a, n' + (k - n))

namespace Shadows

theorem pure {f : α → β} {a : α} {b : β} (h : b = f a) : Shadows ρ f (pure a) (pure b) := by
  intro n a' k hrun
  obtain ⟨rfl, rfl⟩ := run_pure_eq_some.mp hrun
  refine ⟨Nat.le_refl _, fun n' _ => ?_⟩
  rw [h, Nat.sub_self]
  rfl

theorem bind {γ δ : Type} {f : α → β} {g : γ → δ} {x : Reading α} {y : Reading β}
    {x' : α → Reading γ} {y' : β → Reading δ} (h : Shadows ρ f x y)
    (h' : ∀ a, Shadows ρ g (x' a) (y' (f a))) : Shadows ρ g (x >>= x') (y >>= y') := by
  intro n c k hrun
  obtain ⟨a, m, ha, hc⟩ := run_bind_eq_some.mp hrun
  obtain ⟨hle, hx⟩ := h n a m ha
  obtain ⟨hle', hx'⟩ := h' a m c k hc
  refine ⟨Nat.le_trans hle hle', fun n' hcarries => run_bind_eq_some.mpr ?_⟩
  refine ⟨f a, n' + (m - n), hx n' (hcarries.left hle'), ?_⟩
  rw [hx' _ (hcarries.right hle)]
  exact congrArg (fun i => some (g c, i)) (by omega)

theorem failure {f : α → β} {y : Reading β} : Shadows ρ f failure y :=
  fun _ _ _ hrun => (run_failure_eq_some.mp hrun).elim

theorem stampFrom (i j : Nat) : Shadows ρ (Stamp.renumber ρ) (stampFrom i j) (stampFrom i j) := by
  intro n s k hrun
  obtain ⟨rfl, rfl⟩ := run_stampFrom_eq_some.mp hrun
  refine ⟨Nat.le_succ n, fun n' hcarries => ?_⟩
  have hn : ρ n = n' := hcarries 0 (Nat.lt_succ_self n)
  rw [Nat.add_sub_cancel_left, Stamp.renumber, hn]
  rfl

theorem skipId : Shadows ρ id skipId skipId := by
  intro n u k hrun
  obtain rfl := run_skipId_eq_some.mp hrun
  refine ⟨Nat.le_succ n, fun n' _ => ?_⟩
  rw [Nat.add_sub_cancel_left]
  rfl

end Shadows

section Operands

variable (ρ)

def Waiting.renumber (waiting : Waiting) : Waiting := waiting.map fun w => (w.1.renumber ρ, w.2)

theorem joinOperands_shadows (lhs : Expr) (op : BinaryOp) (rhs : Expr) :
    Shadows ρ (Expr.renumber ρ) (joinOperands lhs op rhs)
      (joinOperands (lhs.renumber ρ) op (rhs.renumber ρ)) := by
  unfold joinOperands
  rw [Expr.span_renumber, Expr.span_renumber]
  exact (Shadows.stampFrom _ _).bind fun _ => .pure rfl

theorem closeBefore_shadows (next : BinaryOp) (waiting : Waiting) (e : Expr) :
    Shadows ρ (Prod.map (Waiting.renumber ρ) (Expr.renumber ρ)) (closeBefore next waiting e)
      (closeBefore next (Waiting.renumber ρ waiting) (e.renumber ρ)) := by
  induction waiting generalizing e with
  | nil => exact .pure rfl
  | cons w waiting ih =>
    obtain ⟨lhs, op⟩ := w
    rw [Waiting.renumber, List.map_cons, closeBefore, closeBefore]
    split
    · exact (joinOperands_shadows ρ lhs op e).bind ih
    · exact .pure rfl

theorem closeAll_shadows (waiting : Waiting) (e : Expr) :
    Shadows ρ (Expr.renumber ρ) (closeAll waiting e)
      (closeAll (Waiting.renumber ρ waiting) (e.renumber ρ)) := by
  induction waiting generalizing e with
  | nil => exact .pure rfl
  | cons w waiting ih => exact (joinOperands_shadows ρ _ _ e).bind ih

theorem applyPrefix_shadows (p : Pair) (e : Expr) :
    Shadows ρ (Expr.renumber ρ) (applyPrefix p e) (applyPrefix p (e.renumber ρ)) := by
  unfold applyPrefix
  rw [Expr.span_renumber]
  refine (Shadows.stampFrom _ _).bind fun s => .pure ?_
  split <;> rfl

def renumberBody : Block ⊕ Expr → Block ⊕ Expr := Sum.map (Block.renumber ρ) (Expr.renumber ρ)

mutual

theorem exprOf_shadows (p : Pair) : Shadows ρ (Expr.renumber ρ) (exprOf p) (exprOf p) := by
  unfold exprOf
  split
  · exact exprOf_shadows _
  · refine (exprOf_shadows _).bind fun t => (exprOf_shadows _).bind fun v => ?_
    exact (Shadows.stampFrom _ _).bind fun _ => .pure rfl
  · exact (prefixedOf_shadows _).bind fun e => infixOf_shadows [] e _
  · exact .failure
termination_by sizeOf p
decreasing_by
  all_goals (subst_vars; simp only [Pair.mk.sizeOf_spec, List.cons.sizeOf_spec]; omega)

theorem exprsOf_shadows (ps : List Pair) :
    Shadows ρ (List.map (Expr.renumber ρ)) (exprsOf ps) (exprsOf ps) := by
  unfold exprsOf
  split
  · exact .pure rfl
  · exact (exprOf_shadows _).bind fun e => (exprsOf_shadows _).bind fun es => .pure rfl
termination_by sizeOf ps
decreasing_by
  all_goals (subst_vars; simp only [List.cons.sizeOf_spec]; omega)

theorem infixOf_shadows (waiting : Waiting) (e : Expr) (ps : List Pair) :
    Shadows ρ (Expr.renumber ρ) (infixOf waiting e ps)
      (infixOf (Waiting.renumber ρ waiting) (e.renumber ρ) ps) := by
  unfold infixOf
  split
  · exact closeAll_shadows ρ waiting e
  · refine (closeBefore_shadows ρ _ waiting e).bind fun w => (prefixedOf_shadows _).bind fun operand => ?_
    exact infixOf_shadows _ operand _
  · exact .failure
termination_by sizeOf ps
decreasing_by
  all_goals (subst_vars; simp only [Pair.mk.sizeOf_spec, List.cons.sizeOf_spec]; omega)

theorem prefixedOf_shadows (p : Pair) : Shadows ρ (Expr.renumber ρ) (prefixedOf p) (prefixedOf p) := by
  unfold prefixedOf
  split
  · exact operandOf_shadows _
  · exact .failure
termination_by sizeOf p
decreasing_by
  all_goals (subst_vars; simp only [Pair.mk.sizeOf_spec]; omega)

theorem operandOf_shadows (ps : List Pair) :
    Shadows ρ (Expr.renumber ρ) (operandOf ps) (operandOf ps) := by
  unfold operandOf
  split
  · exact (primaryOf_shadows _).bind fun e => suffixedOf_shadows e _
  · exact (operandOf_shadows _).bind fun e => applyPrefix_shadows ρ _ e
  · exact .failure
termination_by sizeOf ps
decreasing_by
  all_goals (subst_vars; simp only [Pair.mk.sizeOf_spec, List.cons.sizeOf_spec]; omega)

theorem suffixedOf_shadows (e : Expr) (ps : List Pair) :
    Shadows ρ (Expr.renumber ρ) (suffixedOf e ps) (suffixedOf (e.renumber ρ) ps) := by
  unfold suffixedOf
  split
  · exact .pure rfl
  · rw [Expr.span_renumber]
    refine (exprsOf_shadows _).bind fun args => (Shadows.stampFrom _ _).bind fun s => ?_
    have hcall : (Expr.call s e args).renumber ρ =
        .call (s.renumber ρ) (e.renumber ρ) (args.map (Expr.renumber ρ)) := by simp [Expr.renumber]
    rw [← hcall]
    exact suffixedOf_shadows (.call s e args) _
  · rw [Expr.span_renumber]
    exact (Shadows.stampFrom _ _).bind fun s => suffixedOf_shadows (.member s e _) _
  · exact .failure
termination_by sizeOf ps
decreasing_by
  all_goals (subst_vars; simp only [Pair.mk.sizeOf_spec, List.cons.sizeOf_spec]; omega)

theorem primaryOf_shadows (p : Pair) : Shadows ρ (Expr.renumber ρ) (primaryOf p) (primaryOf p) := by
  unfold primaryOf
  split
  iterate 7 exact (Shadows.stampFrom _ _).bind fun _ => .pure rfl
  · refine (exprsOf_shadows _).bind fun es => (Shadows.stampFrom _ _).bind fun s => .pure ?_
    simp [Expr.renumber]
  · refine (propertiesOf_shadows _).bind fun ps => (Shadows.stampFrom _ _).bind fun s => .pure ?_
    simp [Expr.renumber]
  · exact (exprOf_shadows _).bind fun e => (Shadows.stampFrom _ _).bind fun s => .pure rfl
  · refine (exprsOf_shadows _).bind fun es => (Shadows.stampFrom _ _).bind fun s => .pure ?_
    simp [Expr.renumber]
  · exact (Shadows.stampFrom _ _).bind fun _ => .pure rfl
  · refine Shadows.skipId.bind fun _ => (arrowBodyOf_shadows _).bind fun body => ?_
    refine (Shadows.stampFrom _ _).bind fun s => .pure ?_
    cases body <;> rfl
  · exact (bodyOf_shadows _).bind fun b => (Shadows.stampFrom _ _).bind fun s => .pure rfl
  · exact .failure
termination_by sizeOf p
decreasing_by
  all_goals (subst_vars; simp only [Pair.mk.sizeOf_spec, List.cons.sizeOf_spec]; omega)

theorem propertiesOf_shadows (ps : List Pair) :
    Shadows ρ (List.map fun p => (p.1, p.2.renumber ρ)) (propertiesOf ps) (propertiesOf ps) := by
  unfold propertiesOf
  split
  · exact .pure rfl
  · exact (exprOf_shadows _).bind fun e => (propertiesOf_shadows _).bind fun more => .pure rfl
  · exact .failure
termination_by sizeOf ps
decreasing_by
  all_goals (subst_vars; simp only [Pair.mk.sizeOf_spec, List.cons.sizeOf_spec]; omega)

theorem arrowBodyOf_shadows (ps : List Pair) :
    Shadows ρ (renumberBody ρ) (arrowBodyOf ps) (arrowBodyOf ps) := by
  unfold arrowBodyOf
  split
  · exact .failure
  · split
    · exact (blockOf_shadows _).bind fun b => .pure rfl
    · split
      · exact (exprOf_shadows _).bind fun e => .pure rfl
      · exact arrowBodyOf_shadows _
termination_by sizeOf ps
decreasing_by
  all_goals (subst_vars; simp only [List.cons.sizeOf_spec]; omega)

theorem bodyOf_shadows (ps : List Pair) : Shadows ρ (Block.renumber ρ) (bodyOf ps) (bodyOf ps) := by
  unfold bodyOf
  split
  · exact .failure
  · split
    · exact blockOf_shadows _
    · exact bodyOf_shadows _
termination_by sizeOf ps
decreasing_by
  all_goals (subst_vars; simp only [List.cons.sizeOf_spec]; omega)

theorem blockOf_shadows (p : Pair) : Shadows ρ (Block.renumber ρ) (blockOf p) (blockOf p) := by
  unfold blockOf
  split
  · refine (stmtsOf_shadows _).bind fun ss => (Shadows.stampFrom _ _).bind fun s => .pure ?_
    simp [Block.renumber]
  · exact .failure
termination_by sizeOf p
decreasing_by
  all_goals (subst_vars; simp only [Pair.mk.sizeOf_spec]; omega)

theorem membersOf_shadows (ps : List Pair) :
    Shadows ρ (List.map (Member.renumber ρ)) (membersOf ps) (membersOf ps) := by
  unfold membersOf
  split
  · exact .pure rfl
  · refine Shadows.skipId.bind fun _ => (bodyOf_shadows _).bind fun b => ?_
    refine (Shadows.stampFrom _ _).bind fun s => (membersOf_shadows _).bind fun ms => ?_
    exact .pure rfl
  · refine (initOf_shadows _).bind fun init => (Shadows.stampFrom _ _).bind fun s => ?_
    refine (membersOf_shadows _).bind fun ms => .pure ?_
    cases init <;> rfl
  · exact membersOf_shadows _
termination_by sizeOf ps
decreasing_by
  all_goals (subst_vars; simp only [Pair.mk.sizeOf_spec, List.cons.sizeOf_spec]; omega)

theorem initOf_shadows (ps : List Pair) :
    Shadows ρ (Option.map (Expr.renumber ρ)) (initOf ps) (initOf ps) := by
  unfold initOf
  split
  · exact .pure rfl
  · split
    · exact (exprOf_shadows _).bind fun e => .pure rfl
    · exact initOf_shadows _
termination_by sizeOf ps
decreasing_by
  all_goals (subst_vars; simp only [List.cons.sizeOf_spec]; omega)

theorem stmtsOf_shadows (ps : List Pair) :
    Shadows ρ (List.map (Stmt.renumber ρ)) (stmtsOf ps) (stmtsOf ps) := by
  unfold stmtsOf
  split
  · exact .pure rfl
  · exact (stmtOf_shadows _).bind fun s => (stmtsOf_shadows _).bind fun ss => .pure rfl
termination_by sizeOf ps
decreasing_by
  all_goals (subst_vars; simp only [List.cons.sizeOf_spec]; omega)

theorem stmtOf_shadows (p : Pair) : Shadows ρ (Stmt.renumber ρ) (stmtOf p) (stmtOf p) := by
  unfold stmtOf
  split
  · exact (Shadows.stampFrom _ _).bind fun _ => .pure rfl
  · exact (bodyOf_shadows _).bind fun b => (Shadows.stampFrom _ _).bind fun s => .pure rfl
  · refine (membersOf_shadows _).bind fun ms => (Shadows.stampFrom _ _).bind fun s => .pure ?_
    simp [Stmt.renumber]
  · refine (initOf_shadows _).bind fun init => (Shadows.stampFrom _ _).bind fun s => .pure ?_
    cases init <;> rfl
  · refine (initOf_shadows _).bind fun value => (Shadows.stampFrom _ _).bind fun s => .pure ?_
    cases value <;> rfl
  · refine (exprOf_shadows _).bind fun c => (blockOf_shadows _).bind fun t => ?_
    exact (Shadows.stampFrom _ _).bind fun s => .pure rfl
  · refine (exprOf_shadows _).bind fun c => (blockOf_shadows _).bind fun t => ?_
    refine (stmtOf_shadows _).bind fun e => (Shadows.stampFrom _ _).bind fun s => .pure rfl
  iterate 2
    · refine (exprOf_shadows _).bind fun e => (blockOf_shadows _).bind fun b => ?_
      exact (Shadows.stampFrom _ _).bind fun s => .pure rfl
  · exact (blockOf_shadows _).bind fun b => (Shadows.stampFrom _ _).bind fun s => .pure rfl
  · refine (blockOf_shadows _).bind fun b => (blockOf_shadows _).bind fun f => ?_
    exact (Shadows.stampFrom _ _).bind fun s => .pure rfl
  · exact (exprOf_shadows _).bind fun e => (Shadows.stampFrom _ _).bind fun s => .pure rfl
  · refine (stmtsOf_shadows _).bind fun ss => (Shadows.stampFrom _ _).bind fun s => ?_
    refine (Shadows.stampFrom _ _).bind fun s' => .pure ?_
    simp [Stmt.renumber, Block.renumber]
  · exact (Shadows.stampFrom _ _).bind fun _ => .pure rfl
  · exact (exprOf_shadows _).bind fun e => (Shadows.stampFrom _ _).bind fun s => .pure rfl
  · exact .failure
termination_by sizeOf p
decreasing_by
  all_goals (subst_vars; simp only [Pair.mk.sizeOf_spec, List.cons.sizeOf_spec]; omega)

end

theorem fileOf_shadows (path : SourcePath) (p : Pair) :
    Shadows ρ (SourceFile.renumber ρ) (fileOf path p) (fileOf path p) :=
  (stmtsOf_shadows ρ _).bind fun _ => (Shadows.stampFrom _ _).bind fun _ => .pure rfl

end Operands

end Grammar

open Grammar

theorem SourceFile.run_parse_eq_ok {path : SourcePath} {text : String} {n k : NodeId}
    {file : SourceFile} : (SourceFile.parse path text).run n = (.ok file, k) ↔
      ∃ p, recognize text.toList = .ok p ∧ (fileOf path p).run n = some (file, k) := by
  unfold SourceFile.parse
  cases recognize text.toList with
  | error m =>
    refine ⟨fun h => ?_, fun ⟨_, h, _⟩ => ?_⟩
    · cases h
    · cases h
  | ok p =>
    simp only [Except.ok.injEq, exists_eq_left', StateT.run]
    cases fileOf path p n with
    | none => exact ⟨(nomatch ·), (nomatch ·)⟩
    | some r =>
      constructor <;> intro h <;> cases h <;> rfl

/-- A text is parsed from any number on if it is from one, and to the same file with other numbers. -/
theorem SourceFile.parse_renumber {path : SourcePath} {text : String} {n k n' : Nat}
    {file : SourceFile} (h : (SourceFile.parse path text).run n = (.ok file, k)) {ρ : Nat → Nat}
    (hρ : Carries ρ n k n') :
    (SourceFile.parse path text).run n' = (.ok (file.renumber ρ), n' + (k - n)) := by
  obtain ⟨p, hp, hfile⟩ := SourceFile.run_parse_eq_ok.mp h
  exact SourceFile.run_parse_eq_ok.mpr ⟨p, hp, (fileOf_shadows ρ path p n file k hfile).2 n' hρ⟩

end MacroEngine
