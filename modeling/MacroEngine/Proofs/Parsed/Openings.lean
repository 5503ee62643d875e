import MacroEngine.Proofs.Parsed.Names
import MacroEngine.Proofs.Parsed.Runs
import MacroEngine.Proofs.RoundTrip.Expressions

/-!
# What an expression begins with

The simple expression at the left end of an expression that is read from a text stands where the
expression begins, with nothing before it that could be left out. So the alternatives that a text
failed to match at that place say what the expression cannot begin with.
-/

namespace MacroEngine.Grammar

/-- If the expression begins with an object or a function, then this is read at the place. -/
def OpensAt (c : Cursor) (e : Expr) : Prop :=
  Printer.needsParens e.opening = true → ∃ q d n k,
    Matches .loose Host.primary c (some (d, [q])) ∧ (primaryOf q).run n = some (e.opening, k)

/-- The operand at the left end, which waits longest. -/
def leftmost : Waiting → Expr → Expr
  | [], e => e
  | (lhs, _) :: waiting, _ => leftmost waiting lhs

section Openings

variable {c d : Cursor} {e e' : Expr} {n k : NodeId}

theorem opensAt_of_not (h : Printer.needsParens e.opening = false) : OpensAt c e := by
  intro hneeds
  rw [h] at hneeds
  cases hneeds

theorem OpensAt.of_wraps {wraps : Bool} {e₀ : Expr} (h : OpensAt c e)
    (h₀ : Printer.needsParens e₀ = false) (heq : e'.opening = if wraps then e₀ else e.opening) :
    OpensAt c e' := by
  unfold OpensAt
  rw [heq]
  split
  · exact fun hneeds => absurd hneeds (by simp [h₀])
  · exact h

/-- No simple expression begins with another one. -/
theorem opening_of_primaryOf {q : Pair} (hrun : (primaryOf q).run n = some (e, k)) :
    e.opening = e := by
  unfold primaryOf at hrun
  split at hrun
  all_goals simp only [run_bind_eq_some, run_pure_eq_some, run_failure_eq_some] at hrun
  iterate 7
    · obtain ⟨_, _, _, rfl, _⟩ := hrun
      rfl
  iterate 4
    · obtain ⟨_, _, _, _, _, _, rfl, _⟩ := hrun
      rfl
  · obtain ⟨_, _, _, rfl, _⟩ := hrun
    rfl
  · obtain ⟨_, _, _, body, _, _, _, _, _, rfl, _⟩ := hrun
    cases body <;> rfl
  · obtain ⟨_, _, _, _, _, _, rfl, _⟩ := hrun
    rfl

theorem opensAt_of_primary {q : Pair} (h : Matches .loose Host.primary c (some (d, [q])))
    (hrun : (primaryOf q).run n = some (e, k)) : OpensAt c e := by
  intro _
  rw [opening_of_primaryOf hrun]
  exact ⟨q, d, n, k, h, hrun⟩

theorem opensAt_suffixedOf (ps : List Pair) {e : Expr} {n : NodeId} (h : OpensAt c e)
    (hrun : (suffixedOf e ps).run n = some (e', k)) : OpensAt c e' := by
  unfold suffixedOf at hrun
  split at hrun
  · obtain ⟨rfl, -⟩ := run_pure_eq_some.mp hrun
    exact h
  · simp only [run_bind_eq_some] at hrun
    obtain ⟨_, _, _, _, _, _, hrun⟩ := hrun
    exact opensAt_suffixedOf _ (h.of_wraps rfl rfl) hrun
  · simp only [run_bind_eq_some] at hrun
    obtain ⟨_, _, _, hrun⟩ := hrun
    exact opensAt_suffixedOf _ (h.of_wraps rfl rfl) hrun
  · cases hrun
termination_by ps.length

/-- Operators in front of an operand hide what it begins with. -/
theorem opening_of_applyPrefix {p : Pair} (hrun : (applyPrefix p e).run n = some (e', k)) :
    Printer.needsParens e'.opening = false := by
  simp only [applyPrefix, run_bind_eq_some, run_pure_eq_some] at hrun
  obtain ⟨_, _, _, rfl, -⟩ := hrun
  split <;> rfl

theorem opensAt_leftmost {waiting : Waiting} (h : OpensAt c (leftmost waiting e))
    (hstep : OpensAt c e → OpensAt c e') : OpensAt c (leftmost waiting e') := by
  cases waiting with
  | nil => exact hstep h
  | cons => exact h

theorem opensAt_joinOperands {waiting : Waiting} {lhs rhs : Expr} {op : BinaryOp}
    (h : OpensAt c (leftmost waiting lhs)) (hrun : (joinOperands lhs op rhs).run n = some (e, k)) :
    OpensAt c (leftmost waiting e) := by
  simp only [joinOperands, run_bind_eq_some, run_pure_eq_some] at hrun
  obtain ⟨_, _, _, rfl, -⟩ := hrun
  exact opensAt_leftmost h fun h => h.of_wraps rfl rfl

theorem opensAt_closeBefore {next : BinaryOp} {waiting waiting' : Waiting}
    (h : OpensAt c (leftmost waiting e))
    (hrun : (closeBefore next waiting e).run n = some ((waiting', e'), k)) :
    OpensAt c (leftmost waiting' e') := by
  induction waiting generalizing n e with
  | nil =>
    obtain ⟨heq, -⟩ := run_pure_eq_some.mp hrun
    cases heq
    exact h
  | cons w waiting ih =>
    obtain ⟨lhs, op⟩ := w
    rw [closeBefore] at hrun
    split at hrun
    · obtain ⟨joined, m, hjoin, hrest⟩ := run_bind_eq_some.mp hrun
      exact ih (opensAt_joinOperands h hjoin) hrest
    · obtain ⟨heq, -⟩ := run_pure_eq_some.mp hrun
      cases heq
      exact h

theorem opensAt_closeAll {waiting : Waiting} (h : OpensAt c (leftmost waiting e))
    (hrun : (closeAll waiting e).run n = some (e', k)) : OpensAt c e' := by
  induction waiting generalizing n e with
  | nil =>
    obtain ⟨rfl, -⟩ := run_pure_eq_some.mp hrun
    exact h
  | cons w waiting ih =>
    obtain ⟨joined, m, hjoin, hrest⟩ := run_bind_eq_some.mp hrun
    exact ih (opensAt_joinOperands h hjoin) hrest

theorem opensAt_infixOf (ps : List Pair) {waiting : Waiting} {e : Expr} {n : NodeId}
    (h : OpensAt c (leftmost waiting e))
    (hrun : (infixOf waiting e ps).run n = some (e', k)) : OpensAt c e' := by
  unfold infixOf at hrun
  split at hrun
  · exact opensAt_closeAll h hrun
  · simp only [run_bind_eq_some] at hrun
    obtain ⟨⟨waiting', lhs⟩, _, hclose, operand, _, _, hrun⟩ := hrun
    have hlhs : OpensAt c (leftmost waiting' lhs) := opensAt_closeBefore h hclose
    refine opensAt_infixOf _ ?_ hrun
    exact hlhs
  · cases hrun
termination_by ps.length

end Openings

section Pairs

variable {i j : Nat} {source : List Char} {ps : List Pair} {e : Expr} {n k : NodeId}

/-- The first of the pairs inside begins where the pair does. -/
theorem first_of_seq {r : Rule} {b : Peg} {c d : Cursor}
    (h : Matches .loose (Peg.rule r ++ b) c (some (d, ps))) : ∃ j qs more,
      ps = .mk r c.offset j c.rest qs :: more := by
  obtain ⟨d', qs, more, rfl, first, -⟩ := h.seq_inv
  obtain ⟨qs, rfl, -⟩ := first.rule_inv
  exact ⟨d'.offset, qs, more, rfl⟩

theorem opensAt_postfixed (h : Grown (.mk .postfixed i j source ps))
    (hrun : (operandOf [.mk .postfixed i j source ps]).run n = some (e, k)) :
    OpensAt ⟨i, source⟩ e := by
  obtain ⟨rest, body⟩ := h.body
  have body : Matches .loose (Host.primary ++ Peg.star (.alt (.rule .callArgs) (.rule .memberAccess)))
    ⟨i, source⟩ (some (⟨j, rest⟩, ps)) := body
  obtain ⟨d, _, more, rfl, first, -⟩ := body.seq_inv
  obtain ⟨r, -, hrule, -⟩ := Matches.choice_inv first
  obtain ⟨_, rfl, -⟩ := hrule.rule_inv
  rw [List.singleton_append, operandOf] at hrun
  obtain ⟨e', _, he', hrun⟩ := run_bind_eq_some.mp hrun
  exact opensAt_suffixedOf _ (opensAt_of_primary first he') hrun

theorem opensAt_prefixed (h : Grown (.mk .prefixed i j source ps))
    (hrun : (operandOf ps).run n = some (e, k)) : OpensAt ⟨i, source⟩ e := by
  obtain ⟨rest, body⟩ := h.body
  have body : Matches .loose (Peg.star (.rule .prefixOp) ++ Peg.rule .postfixed) ⟨i, source⟩
    (some (⟨j, rest⟩, ps)) := body
  obtain ⟨d, qs, _, rfl, ops, last⟩ := body.seq_inv
  obtain ⟨qs', rfl, -⟩ := last.rule_inv
  cases ops with
  | star first more =>
    obtain ⟨_, rfl, -⟩ := first.rule_inv
    rw [List.append_assoc, List.singleton_append, operandOf_cons _ (by simp)] at hrun
    obtain ⟨operand, _, -, hrun⟩ := run_bind_eq_some.mp hrun
    exact opensAt_of_not (opening_of_applyPrefix hrun)
  | starNot =>
    rw [gap_of_trim (h.trimmed rfl)] at h hrun
    exact opensAt_postfixed (h.inside _ (List.mem_singleton.mpr rfl)) hrun

theorem opensAt_binary (h : Grown (.mk .binary i j source ps))
    (hrun : (exprOf (.mk .binary i j source ps)).run n = some (e, k)) : OpensAt ⟨i, source⟩ e := by
  obtain ⟨rest, body⟩ := h.body
  obtain ⟨j', qs, more, rfl⟩ := first_of_seq (body : Matches .loose (Peg.rule .prefixed ++ _) _ _)
  rw [exprOf] at hrun
  obtain ⟨e', _, he', hrun⟩ := run_bind_eq_some.mp hrun
  refine opensAt_infixOf _ ?_ hrun
  exact opensAt_prefixed (h.inside _ List.mem_cons_self) he'

theorem opensAt_expression (h : Grown (.mk .expression i j source ps))
    (hrun : (exprOf (.mk .expression i j source ps)).run n = some (e, k)) :
    OpensAt ⟨i, source⟩ e := by
  obtain ⟨rest, body⟩ := h.body
  obtain ⟨j', qs, more, rfl⟩ := first_of_seq (body : Matches .loose (Peg.rule .binary ++ _) _ _)
  have htarget := h.inside _ List.mem_cons_self
  unfold exprOf at hrun
  split at hrun
  · rename_i heq
    cases heq
    exact opensAt_binary htarget hrun
  · rename_i heq
    cases heq
    obtain ⟨target, _, ht, hrun⟩ := run_bind_eq_some.mp hrun
    simp only [run_bind_eq_some, run_pure_eq_some] at hrun
    obtain ⟨_, _, _, _, _, _, rfl, -⟩ := hrun
    exact (opensAt_binary htarget ht).of_wraps rfl rfl
  · rename_i heq
    cases heq
  · cases hrun

end Pairs

section Functions

variable {c d : Cursor} {ps : List Pair}

theorem Matches.word_inv {r : Rule} {w : String} (hr : wordOf? r = some w)
    (h : Matches .loose (.rule r) c (some (d, ps))) : ∃ rest, c.rest = w.toList ++ rest := by
  obtain ⟨qs, -, body⟩ := h.rule_inv
  rw [host_of_wordOf? hr] at body
  obtain ⟨d', _, _, -, first, -⟩ := Matches.seq_inv body
  exact ⟨d'.rest, first.lit_inv.2⟩

/-- No export clause begins with another letter. -/
theorem Matches.exportClause_none {w : String} (hw : ¬ w.toList.head? = some 'e') (hne : w ≠ "")
    (h : ∃ rest, c.rest = w.toList ++ rest) : Matches .loose Host.exportClause c none := by
  obtain ⟨rest, hrest⟩ := h
  have hlit : ¬ "export".toList <+: c.rest := by
    rintro ⟨u, hu⟩
    rw [hrest] at hu
    cases hlist : w.toList with
    | nil => exact hne (String.toList_eq_nil_iff.mp hlist)
    | cons x xs =>
      rw [hlist] at hw hu
      exact hw (congrArg some (List.cons.inj hu).1.symm)
  obtain ⟨i, cs⟩ := c
  have hnone {s : Style} : Matches s (text "export") ⟨i, cs⟩ none := .lit_none hlit i
  exact .altSecond (.rule_none host_exportDefault (.seqFirst (.seqFirst hnone)))
    (.rule_none (host_of_wordOf? (rfl : wordOf? .exportNamed = some "export")) (.seqFirst hnone))

/-- What is read as a function with a name could be read as a declaration. -/
theorem Matches.functionDecl (hc : trim c.rest = c.rest)
    (h : Matches .loose (host .functionExpr).2 c (some (d, ps)))
    (hname : (functionHeadOf ps).name ≠ none) :
    ∃ r, Matches .loose (.rule .functionDecl) c (some r) := by
  have h : Matches .loose (Peg.opt (.rule .macroModifier) ++ Peg.opt (.rule .asyncWord) ++
    Peg.rule (.word "function") ++ Peg.opt (.rule .identifier) ++ Peg.rule .params ++
    Peg.rule .block) c (some (d, ps)) := h
  obtain ⟨_, _, _, rfl, h, hblock⟩ := h.seq_inv
  obtain ⟨_, _, _, rfl, h, hparams⟩ := h.seq_inv
  obtain ⟨_, _, _, rfl, h, hident⟩ := h.seq_inv
  obtain ⟨_, _, _, rfl, h, hword⟩ := h.seq_inv
  obtain ⟨_, _, _, rfl, hmacro, hasync⟩ := h.seq_inv
  have hexport : Matches .loose Host.exportClause c none := by
    cases hmacro with
    | opt hmacro =>
      obtain ⟨_, -, body⟩ := hmacro.rule_inv
      obtain ⟨_, _, _, -, first, -⟩ := Matches.seq_inv body
      exact .exportClause_none (by decide) (by decide) (first.word_inv (w := "macro") rfl)
    | optNot =>
      rw [gap_of_trim hc] at hasync
      cases hasync with
      | opt hasync => exact .exportClause_none (by decide) (by decide) (hasync.word_inv rfl)
      | optNot =>
        rw [gap_of_trim hc] at hword
        exact .exportClause_none (by decide) (by decide) (hword.word_inv (w := "function") rfl)
  cases hident with
  | opt hident =>
    have hstart := Matches.seq (.optNot hexport) ((gap_of_trim hc).symm ▸ hmacro)
    exact ⟨_, .rule (.seq (.seq (.seq (.seq (.seq hstart hasync) hword) hident) hparams) hblock)⟩
  | optNot =>
    refine absurd ?_ hname
    have hmacros := hmacro.grown (.inl ⟨rfl, hc⟩) _ _ rfl
    have hasyncs := hasync.grown (.inl ⟨rfl, trim_gap _⟩) _ _ rfl
    obtain ⟨_, rfl, -⟩ := hword.rule_inv
    obtain ⟨_, rfl, -⟩ := hparams.rule_inv
    obtain ⟨_, rfl, -⟩ := hblock.rule_inv
    rw [functionHeadOf, List.getLast?_eq_none_iff, textsOf, List.map_eq_nil_iff,
      List.filter_eq_nil_iff]
    intro p hp
    simp only [List.mem_append, List.mem_singleton, List.not_mem_nil, or_false] at hp
    rcases hp with ((((hp | hp) | rfl) | rfl) | rfl)
    · simp [List.mem_singleton.mp (hmacros p hp).1]
    · simp [List.mem_singleton.mp (hasyncs p hp).1]
    all_goals simp

theorem function_of_primaryOf {q : Pair} {n k : NodeId} {s : Stamp} {head : FunctionHead}
    {body : Block} (hrun : (primaryOf q).run n = some (.function s head body, k)) :
    q.rule = .functionExpr ∧ functionHeadOf q.inner = head := by
  unfold primaryOf at hrun
  split at hrun
  all_goals simp only [run_bind_eq_some, run_pure_eq_some, run_failure_eq_some, reduceCtorEq,
    false_and, and_false, exists_false] at hrun
  · obtain ⟨_, _, _, body | e, _, _, _, _, _, heq, -⟩ := hrun <;> cases heq
  · obtain ⟨_, _, _, _, _, _, heq, -⟩ := hrun
    cases heq
    exact ⟨rfl, rfl⟩

/-- An expression that is read where no declaration matched does not begin with a named function. -/
theorem OpensAt.not_named {e : Expr} (h : OpensAt c e) (hc : trim c.rest = c.rest)
    (hnone : Matches .loose (.rule .functionDecl) c none) : ¬ e.opensWithNamedFunction := by
  rintro ⟨s, head, body, heq, hname⟩
  obtain ⟨q, d, n, k, hmatch, hrun⟩ := h (by rw [heq]; rfl)
  rw [heq] at hrun
  obtain ⟨r, -, hrule, -⟩ := Matches.choice_inv hmatch
  obtain ⟨qs, hq, hbody⟩ := hrule.rule_inv
  obtain rfl := List.singleton_inj.mp hq
  obtain ⟨rfl, rfl⟩ := function_of_primaryOf hrun
  obtain ⟨r, hdecl⟩ := Matches.functionDecl hc hbody hname
  exact absurd (hnone.unique hdecl) (by simp)

/-- A statement that is an expression does not begin with a named function. -/
theorem Grown.not_named {i j : Nat} {source : List Char} {value : Pair} {e : Expr} {n k : NodeId}
    (h : Grown (.mk .exprStmt i j source [value])) (hchosen : Chosen (.mk .exprStmt i j source [value]))
    (hrun : (exprOf value).run n = some (e, k)) : ¬ e.opensWithNamedFunction := by
  obtain ⟨rest, body⟩ := h.body
  obtain ⟨j', qs, more, hps⟩ := first_of_seq (body : Matches .loose (Peg.rule .expression ++ _) _ _)
  cases hps
  have hopens := opensAt_expression (h.inside _ List.mem_cons_self) hrun
  exact hopens.not_named (h.trimmed rfl) (hchosen rfl .functionDecl (by simp))

end Functions

end MacroEngine.Grammar
