import MacroEngine.Proofs.Parsed.Names
import MacroEngine.Proofs.Parsed.Runs
import MacroEngine.Proofs.Parsed.Spans
import MacroEngine.Proofs.RoundTrip.Statements

/-!
# Whatever matches can be read

The body of a rule without repetitions says which rules a pair holds, up to finitely many `shapes`;
a repetition goes round by round. Reading asks for no more than that, so a text that matches the
grammar is read without fail: every function, method and arrow finds the body that is written there.
-/

namespace MacroEngine.Grammar

open Reading

/-- The expression has no repetitions, those it looks ahead for apart. -/
def starFree : Peg → Bool
  | .star _ | .again _ => false
  | .seq a b | .alt a b => starFree a && starFree b
  | .opt e => starFree e
  | _ => true

/-- The rules that an expression without repetitions yields, in order, one list for each way to
match it. -/
def shapes : Peg → List (List Rule)
  | .rule r => [[r]]
  | .seq a b => (shapes a).flatMap fun first => (shapes b).map (first ++ ·)
  | .alt a b => shapes a ++ shapes b
  | .opt e => [] :: shapes e
  | _ => [[]]

section Matches

variable {e : Peg} {c d : Cursor} {ps : List Pair}

theorem Matches.shape (h : Matches .loose e c (some (d, ps))) (he : starFree e = true) :
    ps.map Pair.rule ∈ shapes e := by
  induction e generalizing c d ps with
  | rule r =>
    cases h
    exact List.mem_singleton.mpr rfl
  | lit =>
    obtain ⟨rfl, -⟩ : ps = [] ∧ _ := Matches.lit_inv (t := String.ofList _) (by simpa [text] using h)
    exact List.mem_singleton.mpr rfl
  | charIf | atEnd | not =>
    cases h
    exact List.mem_singleton.mpr rfl
  | seq a b iha ihb =>
    obtain ⟨hea, heb⟩ := Bool.and_eq_true_iff.mp he
    cases h with
    | seq first second =>
      rw [List.map_append]
      exact List.mem_flatMap.mpr ⟨_, iha first hea, List.mem_map_of_mem (ihb second heb)⟩
  | alt a b iha ihb =>
    obtain ⟨hea, heb⟩ := Bool.and_eq_true_iff.mp he
    cases h with
    | altFirst first => exact List.mem_append_left _ (iha first hea)
    | altSecond _ second => exact List.mem_append_right _ (ihb second heb)
  | opt e ih =>
    cases h with
    | opt h => exact List.mem_cons_of_mem _ (ih h he)
    | optNot => exact List.mem_cons_self
  | star | again => cases he

theorem Matches.again_rounds (h : Matches .loose (.again e) c (some (d, ps))) :
    ∃ rounds : List (List Pair), ps = rounds.flatten ∧
      ∀ qs ∈ rounds, ∃ c' d', Matches .loose e c' (some (d', qs)) := by
  generalize hx : Peg.again e = x at h
  generalize hr : some (d, ps) = r at h
  generalize hs : Style.loose = s at h
  induction h generalizing d ps with
  | again first more _ ih =>
    subst hs
    cases hx
    cases hr
    obtain ⟨rounds, rfl, hrounds⟩ := ih rfl rfl rfl
    exact ⟨_ :: rounds, rfl, List.forall_mem_cons.mpr ⟨⟨_, _, first⟩, hrounds⟩⟩
  | againNot =>
    cases hr
    exact ⟨[], rfl, fun _ hqs => absurd hqs List.not_mem_nil⟩
  | _ => cases hx

/-- What a repetition matched is what its rounds matched. -/
theorem Matches.star_rounds (h : Matches .loose (.star e) c (some (d, ps))) :
    ∃ rounds : List (List Pair), ps = rounds.flatten ∧
      ∀ qs ∈ rounds, ∃ c' d', Matches .loose e c' (some (d', qs)) := by
  cases h with
  | star first more =>
    obtain ⟨rounds, rfl, hrounds⟩ := more.again_rounds
    exact ⟨_ :: rounds, rfl, List.forall_mem_cons.mpr ⟨⟨_, _, first⟩, hrounds⟩⟩
  | starNot => exact ⟨[], rfl, fun _ hqs => absurd hqs List.not_mem_nil⟩

end Matches

section Grown

variable {r : Rule} {i j : Nat} {source : List Char} {ps : List Pair}

theorem Grown.shape (h : Grown (.mk r i j source ps)) (hr : (host r).1 = .loose)
    (hfree : starFree (Host.body r) = true) : ps.map Pair.rule ∈ shapes (Host.body r) := by
  obtain ⟨rest, body⟩ := h.body
  rw [hr] at body
  exact body.shape hfree

/-- The inside of a binary expression: an operand, and after it rounds of an operator and an operand. -/
theorem Grown.binary (h : Grown (.mk .binary i j source ps)) : ∃ first rounds,
    ps = first :: List.flatten rounds ∧ first.rule = .prefixed ∧
      ∀ qs ∈ rounds, ∃ o, qs.map Pair.rule = [.op o, .prefixed] := by
  obtain ⟨rest, body⟩ := h.body
  have body : Matches .loose (Peg.rule .prefixed ++ Peg.star (Host.infixOp ++ Peg.rule .prefixed))
    ⟨i, source⟩ (some (⟨j, rest⟩, ps)) := body
  obtain ⟨_, _, _, rfl, hfirst, hmore⟩ := body.seq_inv
  obtain ⟨_, rfl, -⟩ := hfirst.rule_inv
  obtain ⟨rounds, rfl, hrounds⟩ := hmore.star_rounds
  refine ⟨_, rounds, rfl, rfl, fun qs hqs => ?_⟩
  obtain ⟨c', d', hround⟩ := hrounds qs hqs
  have hshapes : ∀ l ∈ shapes (Host.infixOp ++ Peg.rule .prefixed),
      ∃ o ∈ BinaryOp.all, l = [.op o, .prefixed] := by decide
  obtain ⟨o, -, hshape⟩ := hshapes _ (hround.shape rfl)
  exact ⟨o, hshape⟩

theorem Grown.prefixed (h : Grown (.mk .prefixed i j source ps)) : ∃ ops last,
    ps = ops ++ [last] ∧ last.rule = .postfixed ∧ ∀ p ∈ ops, p.rule = .prefixOp := by
  obtain ⟨rest, body⟩ := h.body
  have body : Matches .loose (Peg.star (.rule .prefixOp) ++ Peg.rule .postfixed) ⟨i, source⟩
    (some (⟨j, rest⟩, ps)) := body
  obtain ⟨_, ops, _, rfl, hops, hlast⟩ := body.seq_inv
  obtain ⟨_, rfl, -⟩ := hlast.rule_inv
  refine ⟨ops, _, rfl, rfl, fun p hp => ?_⟩
  have hgrown := hops.grown (.inl ⟨rfl, h.trimmed rfl⟩) _ _ rfl p hp
  exact List.mem_singleton.mp hgrown.1

theorem Grown.postfixed (h : Grown (.mk .postfixed i j source ps)) : ∃ first suffixes,
    ps = first :: suffixes ∧ first.rule ∈ primaryRules ∧
      ∀ p ∈ suffixes, p.rule = .callArgs ∨ p.rule = .memberAccess := by
  obtain ⟨rest, body⟩ := h.body
  have body : Matches .loose (Host.primary ++
    Peg.star (.alt (.rule .callArgs) (.rule .memberAccess))) ⟨i, source⟩
    (some (⟨j, rest⟩, ps)) := body
  obtain ⟨_, qs, suffixes, rfl, hfirst, hmore⟩ := body.seq_inv
  have hshapes : ∀ l ∈ shapes Host.primary, ∃ q ∈ primaryRules, l = [q] := by decide
  obtain ⟨q, hq, hshape⟩ := hshapes _ (hfirst.shape rfl)
  simp only [List.map_eq_cons_iff, List.map_eq_nil_iff] at hshape
  obtain ⟨first, _, rfl, hrule, rfl⟩ := hshape
  refine ⟨first, suffixes, rfl, hrule ▸ hq, fun p hp => ?_⟩
  have hgrown := hmore.grown (.inl ⟨rfl, trim_gap _⟩) _ _ rfl p hp
  simpa [mentions] using hgrown.1

end Grown

def Succeeds {α : Type} (x : Reading α) : Prop := ∀ n, ∃ r, x.run n = some r

namespace Succeeds

variable {α β : Type} {x : Reading α} {f : α → Reading β}

theorem pure (a : α) : Succeeds (Pure.pure a : Reading α) := fun n => ⟨(a, n), rfl⟩

theorem bind (hx : Succeeds x) (hf : ∀ a, Succeeds (f a)) : Succeeds (x >>= f) := by
  intro n
  obtain ⟨⟨a, m⟩, ha⟩ := hx n
  obtain ⟨⟨b, k⟩, hb⟩ := hf a m
  exact ⟨(b, k), run_bind_eq_some.mpr ⟨a, m, ha, hb⟩⟩

theorem stampFrom (i j : Nat) : Succeeds (stampFrom i j) := fun _ => ⟨_, rfl⟩

theorem skipId : Succeeds skipId := fun _ => ⟨_, rfl⟩

theorem node {i j : Nat} {make : Stamp → α} :
    Succeeds (do return make (← Reading.stampFrom i j)) :=
  (stampFrom i j).bind fun _ => pure _

end Succeeds

section Operands

theorem joinOperands_succeeds (lhs : Expr) (op : BinaryOp) (rhs : Expr) :
    Succeeds (joinOperands lhs op rhs) := .node

theorem closeBefore_succeeds (next : BinaryOp) (waiting : Waiting) (e : Expr) :
    Succeeds (closeBefore next waiting e) := by
  induction waiting generalizing e with
  | nil => exact .pure _
  | cons w waiting ih =>
    obtain ⟨lhs, op⟩ := w
    rw [closeBefore]
    split
    · exact (joinOperands_succeeds lhs op e).bind ih
    · exact .pure _

theorem closeAll_succeeds (waiting : Waiting) (e : Expr) : Succeeds (closeAll waiting e) := by
  induction waiting generalizing e with
  | nil => exact .pure _
  | cons w waiting ih => exact (joinOperands_succeeds _ _ e).bind ih

theorem applyPrefix_succeeds (p : Pair) (e : Expr) : Succeeds (applyPrefix p e) := .node

end Operands

/-- Whatever stands for an expression, a block or a statement is read as one. -/
structure Readable (p : Pair) : Prop where
  expr : p.rule = .expression ∨ p.rule = .binary → Succeeds (exprOf p)
  prefixed : p.rule = .prefixed → Succeeds (prefixedOf p)
  primary : p.rule ∈ primaryRules → Succeeds (primaryOf p)
  block : p.rule = .block → Succeeds (blockOf p)
  stmt : p.rule ∈ statementRules → Succeeds (stmtOf p)

section Lists

variable {ps : List Pair}

theorem exprsOf_succeeds (h : ∀ p ∈ ps, Succeeds (exprOf p)) : Succeeds (exprsOf ps) := by
  induction ps with
  | nil => exact .pure _
  | cons p ps ih =>
    obtain ⟨hfirst, hmore⟩ := List.forall_mem_cons.mp h
    rw [exprsOf]
    exact hfirst.bind fun _ => (ih hmore).bind fun _ => .pure _

theorem stmtsOf_succeeds (h : ∀ p ∈ ps, Succeeds (stmtOf p)) : Succeeds (stmtsOf ps) := by
  induction ps with
  | nil => exact .pure _
  | cons p ps ih =>
    obtain ⟨hfirst, hmore⟩ := List.forall_mem_cons.mp h
    rw [stmtsOf]
    exact hfirst.bind fun _ => (ih hmore).bind fun _ => .pure _

theorem infixOf_succeeds {rounds : List (List Pair)}
    (hrules : ∀ qs ∈ rounds, ∃ o, qs.map Pair.rule = [.op o, .prefixed])
    (h : ∀ p ∈ rounds.flatten, p.rule = .prefixed → Succeeds (prefixedOf p)) (waiting : Waiting)
    (e : Expr) : Succeeds (infixOf waiting e rounds.flatten) := by
  induction rounds generalizing waiting e with
  | nil =>
    rw [List.flatten_nil, infixOf]
    exact closeAll_succeeds waiting e
  | cons qs rounds ih =>
    obtain ⟨hround, hmore⟩ := List.forall_mem_cons.mp hrules
    obtain ⟨o, hround⟩ := hround
    simp only [List.map_eq_cons_iff, List.map_eq_nil_iff] at hround
    obtain ⟨⟨_, i, j, source, inner⟩, _, rfl, rfl, operand, _, rfl, hoperand, rfl⟩ := hround
    rw [List.flatten_cons, List.cons_append, List.cons_append, List.nil_append] at h ⊢
    rw [infixOf]
    refine (closeBefore_succeeds o waiting e).bind fun w => ?_
    refine (h operand (by simp) hoperand).bind fun operand => ?_
    exact ih hmore (fun p hp => h p (by simp [hp])) _ _

theorem suffixedOf_succeeds (h : ∀ p ∈ ps, p.rule = .callArgs ∧ Succeeds (exprsOf p.inner) ∨
    p.rule = .memberAccess) (e : Expr) : Succeeds (suffixedOf e ps) := by
  induction ps generalizing e with
  | nil =>
    rw [suffixedOf]
    exact .pure _
  | cons p ps ih =>
    obtain ⟨hfirst, hmore⟩ := List.forall_mem_cons.mp h
    obtain ⟨r, i, j, source, inner⟩ := p
    rcases hfirst with ⟨hr, hargs⟩ | hr
    · obtain rfl : r = .callArgs := hr
      rw [suffixedOf]
      exact hargs.bind fun _ => (Succeeds.stampFrom _ _).bind fun _ => ih hmore _
    · obtain rfl : r = .memberAccess := hr
      rw [suffixedOf]
      exact (Succeeds.stampFrom _ _).bind fun _ => ih hmore _

theorem operandOf_succeeds {ops suffixes : List Pair} {i j : Nat} {source : List Char} {p : Pair}
    (hops : ∀ q ∈ ops, q.rule = .prefixOp) (hp : Succeeds (primaryOf p))
    (hsuffixes : ∀ e, Succeeds (suffixedOf e suffixes)) :
    Succeeds (operandOf (ops ++ [.mk .postfixed i j source (p :: suffixes)])) := by
  induction ops with
  | nil =>
    rw [List.nil_append, operandOf]
    exact hp.bind hsuffixes
  | cons op ops ih =>
    obtain ⟨hop, hmore⟩ := List.forall_mem_cons.mp hops
    obtain ⟨r, i', j', source', inner⟩ := op
    obtain rfl : r = .prefixOp := hop
    rw [List.cons_append, operandOf]
    · exact (ih hmore).bind fun e => applyPrefix_succeeds _ e
    · intro _ _ _ _ _ heq
      cases heq

theorem propertiesOf_succeeds (h : ∀ p ∈ ps, ∃ i j source key value,
    p = .mk .property i j source [key, value] ∧ Succeeds (exprOf value)) :
    Succeeds (propertiesOf ps) := by
  induction ps with
  | nil =>
    rw [propertiesOf]
    exact .pure _
  | cons p ps ih =>
    obtain ⟨⟨i, j, source, key, value, rfl, hvalue⟩, hmore⟩ := List.forall_mem_cons.mp h
    rw [propertiesOf]
    exact hvalue.bind fun _ => (ih hmore).bind fun _ => .pure _

theorem arrowBodyOf_succeeds (hbody : ∃ p ∈ ps, p.rule = .block ∨ p.rule = .expression)
    (hblock : ∀ p ∈ ps, p.rule = .block → Succeeds (blockOf p))
    (hexpr : ∀ p ∈ ps, p.rule = .expression → Succeeds (exprOf p)) :
    Succeeds (arrowBodyOf ps) := by
  induction ps with
  | nil =>
    obtain ⟨p, hp, -⟩ := hbody
    exact absurd hp List.not_mem_nil
  | cons p ps ih =>
    rw [arrowBodyOf]
    split
    · rename_i hr
      exact (hblock p List.mem_cons_self hr).bind fun _ => .pure _
    · split
      · rename_i hr
        exact (hexpr p List.mem_cons_self hr).bind fun _ => .pure _
      · obtain ⟨q, hq, hrule⟩ := hbody
        rcases List.mem_cons.mp hq with rfl | hq
        · exact absurd hrule (by simp [*])
        · exact ih ⟨q, hq, hrule⟩ (List.forall_mem_cons.mp hblock).2 (List.forall_mem_cons.mp hexpr).2

theorem bodyOf_succeeds (hbody : ∃ p ∈ ps, p.rule = .block)
    (hblock : ∀ p ∈ ps, p.rule = .block → Succeeds (blockOf p)) : Succeeds (bodyOf ps) := by
  induction ps with
  | nil =>
    obtain ⟨p, hp, -⟩ := hbody
    exact absurd hp List.not_mem_nil
  | cons p ps ih =>
    rw [bodyOf]
    split
    · rename_i hr
      exact hblock p List.mem_cons_self hr
    · rename_i hr
      obtain ⟨q, hq, hrule⟩ := hbody
      rcases List.mem_cons.mp hq with rfl | hq
      · exact absurd hrule hr
      · exact ih ⟨q, hq, hrule⟩ (List.forall_mem_cons.mp hblock).2

theorem initOf_succeeds (h : ∀ p ∈ ps, p.rule = .expression → Succeeds (exprOf p)) :
    Succeeds (initOf ps) := by
  induction ps with
  | nil => exact .pure _
  | cons p ps ih =>
    rw [initOf]
    split
    · rename_i hr
      exact (h p List.mem_cons_self hr).bind fun _ => .pure _
    · exact ih (List.forall_mem_cons.mp h).2

theorem membersOf_succeeds
    (hmethod : ∀ p ∈ ps, p.rule = .methodMember → Succeeds (bodyOf p.inner))
    (hfield : ∀ p ∈ ps, p.rule = .fieldMember → Succeeds (initOf p.inner)) :
    Succeeds (membersOf ps) := by
  induction ps with
  | nil =>
    rw [membersOf]
    exact .pure _
  | cons p ps ih =>
    obtain ⟨hbody, hmethod⟩ := List.forall_mem_cons.mp hmethod
    obtain ⟨hinit, hfield⟩ := List.forall_mem_cons.mp hfield
    have hmore := ih hmethod hfield
    obtain ⟨r, i, j, source, inner⟩ := p
    unfold membersOf
    split
    · exact .pure _
    · rename_i heq
      cases heq
      refine Succeeds.skipId.bind fun _ => (hbody rfl).bind fun _ => ?_
      exact (Succeeds.stampFrom _ _).bind fun _ => hmore.bind fun _ => .pure _
    · rename_i heq
      cases heq
      refine (hinit rfl).bind fun _ => (Succeeds.stampFrom _ _).bind fun _ => ?_
      exact hmore.bind fun _ => .pure _
    · rename_i heq
      cases heq
      exact hmore

end Lists

/-- What holds of a grown pair as soon as it holds everywhere inside it holds everywhere. -/
theorem Grown.everywhere {P : Pair → Prop}
    (h : ∀ p, Grown p → (∀ q ∈ p.inner, q.Everywhere P) → P p) {p : Pair} (hp : Grown p) :
    p.Everywhere P := by
  refine (Pair.everywhere (P := fun p => Grown p → p.Everywhere P) (fun p hinner hp => ?_) p).here hp
  obtain ⟨r, i, j, source, ps⟩ := p
  have hps : ∀ q ∈ ps, q.Everywhere P := fun q hq => (hinner q hq).here (hp.inside q hq)
  exact .mk (h _ hp hps) hps

section Pairs

variable {r : Rule} {i j : Nat} {source : List Char} {ps : List Pair}

theorem Grown.exprs (h : Grown (.mk r i j source ps)) (hps : ∀ p ∈ ps, p.Everywhere Readable)
    (hr : ∀ q ∈ mentions (Host.body r), q = .expression) : Succeeds (exprsOf ps) :=
  exprsOf_succeeds fun p hp => (hps p hp).here.expr (.inl (hr _ (h.rules p hp)))

theorem Grown.functionBody (h : Grown (.mk r i j source ps)) (hps : ∀ p ∈ ps, p.Everywhere Readable)
    (hr : (host r).1 = .loose) (hyields : Grammar.yields .block (Host.body r) = true) :
    Succeeds (bodyOf ps) :=
  bodyOf_succeeds (h.yields hr hyields) fun p hp => (hps p hp).here.block

theorem exprOf_succeeds (h : Grown (.mk r i j source ps)) (hps : ∀ p ∈ ps, p.Everywhere Readable)
    (hr : r = .expression ∨ r = .binary) : Succeeds (exprOf (.mk r i j source ps)) := by
  rcases hr with rfl | rfl
  · have hshapes : shapes (Host.body .expression) = [[.binary], [.binary, .expression]] := by decide
    have hshape := h.shape rfl rfl
    rw [hshapes] at hshape
    simp only [List.mem_cons, List.not_mem_nil, or_false, List.map_eq_cons_iff,
      List.map_eq_nil_iff] at hshape
    rcases hshape with ⟨target, _, rfl, hrule, rfl⟩ | ⟨target, _, rfl, hrule, value, _, rfl, hrule', rfl⟩
    · rw [exprOf]
      exact (hps _ (by simp)).here.expr (.inr hrule)
    · rw [exprOf]
      refine ((hps _ (by simp)).here.expr (.inr hrule)).bind fun _ => ?_
      exact ((hps _ (by simp)).here.expr (.inl hrule')).bind fun _ => .node
  · obtain ⟨first, rounds, rfl, hrule, hrounds⟩ := h.binary
    obtain ⟨hfirst, hmore⟩ := List.forall_mem_cons.mp hps
    rw [exprOf]
    refine (hfirst.here.prefixed hrule).bind fun e => ?_
    exact infixOf_succeeds hrounds (fun p hp => (hmore p hp).here.prefixed) [] e

theorem prefixedOf_succeeds (h : Grown (.mk .prefixed i j source ps))
    (hps : ∀ p ∈ ps, p.Everywhere Readable) : Succeeds (prefixedOf (.mk .prefixed i j source ps)) := by
  obtain ⟨ops, ⟨_, i', j', source', inner⟩, rfl, hrule, hops⟩ := h.prefixed
  obtain rfl := hrule
  have hlast := hps (.mk .postfixed i' j' source' inner) (by simp)
  have hpostfixed := h.inside (.mk .postfixed i' j' source' inner) (by simp)
  obtain ⟨first, suffixes, rfl, hfirst, hsuffixes⟩ := hpostfixed.postfixed
  obtain ⟨hprimary, hmore⟩ := List.forall_mem_cons.mp hlast.inner
  rw [prefixedOf]
  refine operandOf_succeeds hops (hprimary.here.primary hfirst) (suffixedOf_succeeds fun p hp => ?_)
  rcases hsuffixes p hp with hr | hr
  · obtain ⟨_, i', j', source', args⟩ := p
    obtain rfl := hr
    have hargs := hpostfixed.inside _ (List.mem_cons_of_mem _ hp)
    exact .inl ⟨rfl, hargs.exprs (hmore _ hp).inner (by decide)⟩
  · exact .inr hr

theorem Grown.property (h : Grown (.mk .property i j source ps))
    (hps : ∀ p ∈ ps, p.Everywhere Readable) :
    ∃ key value, ps = [key, value] ∧ Succeeds (exprOf value) := by
  have hshapes : ∀ l ∈ shapes (Host.body .property), ∃ q ∈ [Rule.propertyName, .string],
      l = [q, .expression] := by decide
  obtain ⟨q, -, hshape⟩ := hshapes _ (h.shape rfl rfl)
  simp only [List.map_eq_cons_iff, List.map_eq_nil_iff] at hshape
  obtain ⟨key, _, rfl, -, value, _, rfl, hrule, rfl⟩ := hshape
  exact ⟨key, value, rfl, (hps _ (by simp)).here.expr (.inl hrule)⟩

theorem primaryOf_succeeds (h : Grown (.mk r i j source ps)) (hps : ∀ p ∈ ps, p.Everywhere Readable)
    (hr : r ∈ primaryRules) : Succeeds (primaryOf (.mk r i j source ps)) := by
  simp only [primaryRules, List.mem_cons, List.not_mem_nil, or_false] at hr
  rcases hr with rfl | rfl | rfl | rfl | rfl | rfl | rfl | rfl | rfl | rfl | rfl | rfl | rfl | rfl
  · have hshapes : ∀ l ∈ shapes (Host.body .arrowFn), ∃ q ∈ l, q = .block ∨ q = .expression := by
      decide
    obtain ⟨_, hq, hrule⟩ := hshapes _ (h.shape rfl rfl)
    obtain ⟨p, hp, rfl⟩ := List.mem_map.mp hq
    have hbody := arrowBodyOf_succeeds ⟨p, hp, hrule⟩ (fun p hp => (hps p hp).here.block)
      fun p hp hr => (hps p hp).here.expr (.inl hr)
    rw [primaryOf]
    exact Succeeds.skipId.bind fun _ => hbody.bind fun _ => (Succeeds.stampFrom _ _).bind fun _ =>
      .pure _
  · rw [primaryOf]
    exact (h.functionBody hps rfl rfl).bind fun _ => .node
  · have hshape : ps.map Pair.rule = [.identifier, .callArgs] :=
      List.mem_singleton.mp (h.shape rfl rfl)
    simp only [List.map_eq_cons_iff, List.map_eq_nil_iff] at hshape
    obtain ⟨name, _, rfl, -, ⟨_, i', j', source', args⟩, _, rfl, rfl, rfl⟩ := hshape
    have hargs := h.inside _ (List.mem_cons_of_mem _ List.mem_cons_self)
    have hinner := (hps _ (List.mem_cons_of_mem _ List.mem_cons_self)).inner
    rw [primaryOf]
    exact (hargs.exprs hinner (by decide)).bind fun _ => .node
  · have hshape : ps.map Pair.rule = [.identifier, .template] :=
      List.mem_singleton.mp (h.shape rfl rfl)
    simp only [List.map_eq_cons_iff, List.map_eq_nil_iff] at hshape
    obtain ⟨tag, _, rfl, -, raw, _, rfl, -, rfl⟩ := hshape
    rw [primaryOf]
    exact .node
  iterate 6
    · rw [primaryOf]
      exact .node
  · rw [primaryOf]
    exact (h.exprs hps (by decide)).bind fun _ => .node
  · rw [primaryOf]
    refine (propertiesOf_succeeds fun p hp => ?_).bind fun _ => .node
    have hrules : ∀ q ∈ mentions (Host.body .object), q = .property := by decide
    have hproperty := h.inside p hp
    have hinner := (hps p hp).inner
    have hrule := hrules _ (h.rules p hp)
    obtain ⟨_, i', j', source', qs⟩ := p
    obtain rfl := hrule
    obtain ⟨key, value, rfl, hvalue⟩ := hproperty.property hinner
    exact ⟨i', j', source', key, value, rfl, hvalue⟩
  · have hshape : ps.map Pair.rule = [.expression] := List.mem_singleton.mp (h.shape rfl rfl)
    simp only [List.map_eq_cons_iff, List.map_eq_nil_iff] at hshape
    obtain ⟨inner, _, rfl, hrule, rfl⟩ := hshape
    rw [primaryOf]
    exact ((hps _ (by simp)).here.expr (.inl hrule)).bind fun _ => .node
  · rw [primaryOf]
    exact .node

theorem Grown.stmts (h : Grown (.mk .block i j source ps)) (hps : ∀ p ∈ ps, p.Everywhere Readable) :
    Succeeds (stmtsOf ps) := by
  have hrules : ∀ q ∈ mentions (Host.body .block), q ∈ statementRules := by decide
  exact stmtsOf_succeeds fun p hp => (hps p hp).here.stmt (hrules _ (h.rules p hp))

theorem blockOf_succeeds (h : Grown (.mk .block i j source ps))
    (hps : ∀ p ∈ ps, p.Everywhere Readable) : Succeeds (blockOf (.mk .block i j source ps)) := by
  rw [blockOf]
  exact (h.stmts hps).bind fun _ => (Succeeds.stampFrom _ _).bind fun _ => .pure _

theorem init_succeeds (hps : ∀ p ∈ ps, p.Everywhere Readable) : Succeeds (initOf ps) :=
  initOf_succeeds fun p hp hr => (hps p hp).here.expr (.inl hr)

theorem Grown.members (h : Grown (.mk .classDecl i j source ps))
    (hps : ∀ p ∈ ps, p.Everywhere Readable) : Succeeds (membersOf ps) := by
  refine membersOf_succeeds (fun p hp hr => ?_) fun p hp _ => ?_
  · have hmethod := h.inside p hp
    have hinner := (hps p hp).inner
    obtain ⟨_, i', j', source', qs⟩ := p
    obtain rfl := hr
    exact hmethod.functionBody hinner rfl rfl
  · exact init_succeeds (hps p hp).inner

theorem ifStmt_succeeds (h : Grown (.mk .ifStmt i j source ps))
    (hps : ∀ p ∈ ps, p.Everywhere Readable) : Succeeds (stmtOf (.mk .ifStmt i j source ps)) := by
  have hshapes : ∀ l ∈ shapes (Host.body .ifStmt), l = [.word "if", .expression, .block] ∨
      ∃ q ∈ statementRules, l = [.word "if", .expression, .block, .word "else", q] := by decide
  rcases hshapes _ (h.shape rfl rfl) with hshape | ⟨q, hq, hshape⟩
  · simp only [List.map_eq_cons_iff, List.map_eq_nil_iff] at hshape
    obtain ⟨_, _, rfl, -, condition, _, rfl, hcondition, consequence, _, rfl, hconsequence, rfl⟩ := hshape
    rw [stmtOf]
    refine ((hps _ (by simp)).here.expr (.inl hcondition)).bind fun _ => ?_
    exact ((hps _ (by simp)).here.block hconsequence).bind fun _ => .node
  · simp only [List.map_eq_cons_iff, List.map_eq_nil_iff] at hshape
    obtain ⟨_, _, rfl, -, condition, _, rfl, hcondition, consequence, _, rfl, hconsequence, _, _, rfl, -,
      alternative, _, rfl, halternative, rfl⟩ := hshape
    rw [stmtOf]
    refine ((hps _ (by simp)).here.expr (.inl hcondition)).bind fun _ => ?_
    refine ((hps _ (by simp)).here.block hconsequence).bind fun _ => ?_
    exact ((hps _ (by simp)).here.stmt (halternative ▸ hq)).bind fun _ => .node

theorem forOfStmt_succeeds (h : Grown (.mk .forOfStmt i j source ps))
    (hps : ∀ p ∈ ps, p.Everywhere Readable) : Succeeds (stmtOf (.mk .forOfStmt i j source ps)) := by
  have hshapes : ∀ l ∈ shapes (Host.body .forOfStmt), ∃ q ∈ [Rule.varConst, .varLet],
      l = [.word "for", q, .identifier, .word "of", .expression, .block] := by decide
  obtain ⟨q, -, hshape⟩ := hshapes _ (h.shape rfl rfl)
  simp only [List.map_eq_cons_iff, List.map_eq_nil_iff] at hshape
  obtain ⟨_, _, rfl, -, _, _, rfl, -, _, _, rfl, -, _, _, rfl, -, iterable, _, rfl, hiterable, body, _,
    rfl, hbody, rfl⟩ := hshape
  rw [stmtOf]
  refine ((hps _ (by simp)).here.expr (.inl hiterable)).bind fun _ => ?_
  exact ((hps _ (by simp)).here.block hbody).bind fun _ => .node

theorem stmtOf_succeeds (h : Grown (.mk r i j source ps)) (hps : ∀ p ∈ ps, p.Everywhere Readable)
    (hr : r ∈ statementRules) : Succeeds (stmtOf (.mk r i j source ps)) := by
  simp only [statementRules, declarationRules, List.cons_append, List.nil_append, List.mem_cons, List.not_mem_nil, or_false] at hr
  rcases hr with rfl | rfl | rfl | rfl | rfl | rfl | rfl | rfl | rfl | rfl | rfl | rfl | rfl | rfl
  · rw [stmtOf]
    exact .node
  · rw [stmtOf]
    exact (h.functionBody hps rfl rfl).bind fun _ => .node
  · rw [stmtOf]
    exact (h.members hps).bind fun _ => .node
  iterate 2
    · rw [stmtOf]
      exact (init_succeeds hps).bind fun _ => .node
  · exact ifStmt_succeeds h hps
  · have hshape : ps.map Pair.rule = [.word "while", .expression, .block] :=
      List.mem_singleton.mp (h.shape rfl rfl)
    simp only [List.map_eq_cons_iff, List.map_eq_nil_iff] at hshape
    obtain ⟨_, _, rfl, -, condition, _, rfl, hcondition, body, _, rfl, hbody, rfl⟩ := hshape
    rw [stmtOf]
    refine ((hps _ (by simp)).here.expr (.inl hcondition)).bind fun _ => ?_
    exact ((hps _ (by simp)).here.block hbody).bind fun _ => .node
  · exact forOfStmt_succeeds h hps
  · have hshape : ps.map Pair.rule = [.word "defer", .block] := List.mem_singleton.mp (h.shape rfl rfl)
    simp only [List.map_eq_cons_iff, List.map_eq_nil_iff] at hshape
    obtain ⟨_, _, rfl, -, body, _, rfl, hbody, rfl⟩ := hshape
    rw [stmtOf]
    exact ((hps _ (by simp)).here.block hbody).bind fun _ => .node
  · have hshape : ps.map Pair.rule = [.word "try", .block, .word "finally", .block] :=
      List.mem_singleton.mp (h.shape rfl rfl)
    simp only [List.map_eq_cons_iff, List.map_eq_nil_iff] at hshape
    obtain ⟨_, _, rfl, -, body, _, rfl, hbody, _, _, rfl, -, finalizer, _, rfl, hfinalizer, rfl⟩ := hshape
    rw [stmtOf]
    refine ((hps _ (by simp)).here.block hbody).bind fun _ => ?_
    exact ((hps _ (by simp)).here.block hfinalizer).bind fun _ => .node
  · have hshape : ps.map Pair.rule = [.word "throw", .expression] :=
      List.mem_singleton.mp (h.shape rfl rfl)
    simp only [List.map_eq_cons_iff, List.map_eq_nil_iff] at hshape
    obtain ⟨_, _, rfl, -, value, _, rfl, hvalue, rfl⟩ := hshape
    rw [stmtOf]
    exact ((hps _ (by simp)).here.expr (.inl hvalue)).bind fun _ => .node
  · rw [stmtOf]
    exact (h.stmts hps).bind fun _ => (Succeeds.stampFrom _ _).bind fun _ => .node
  · rw [stmtOf]
    exact .node
  · have hshape : ps.map Pair.rule = [.expression] := List.mem_singleton.mp (h.shape rfl rfl)
    simp only [List.map_eq_cons_iff, List.map_eq_nil_iff] at hshape
    obtain ⟨value, _, rfl, hvalue, rfl⟩ := hshape
    rw [stmtOf]
    exact ((hps _ (by simp)).here.expr (.inl hvalue)).bind fun _ => .node

/-- Whatever has grown is readable, with all that is inside. -/
theorem Grown.readable {p : Pair} (h : Grown p) : p.Everywhere Readable := by
  refine Grown.everywhere (fun p hp hinner => ?_) h
  obtain ⟨r, i, j, source, ps⟩ := p
  refine ⟨exprOf_succeeds hp hinner, fun hr => ?_, primaryOf_succeeds hp hinner, fun hr => ?_,
    stmtOf_succeeds hp hinner⟩
  · obtain rfl : r = .prefixed := hr
    exact prefixedOf_succeeds hp hinner
  · obtain rfl : r = .block := hr
    exact blockOf_succeeds hp hinner

end Pairs

/-- Beside the end of the text, the tree of rules of a text holds statements. -/
theorem rules_of_recognize {input : List Char} {p : Pair} (h : recognize input = .ok p) :
    ∀ q ∈ p.inner.filter (·.rule ≠ .endOfInput), q.rule ∈ statementRules := by
  obtain ⟨_, _, ps, last, stmts, -, hlast, rfl⟩ := program_of_recognize h
  have hrules : ∀ q ∈ mentions (Peg.star Host.statement), q ∈ statementRules := by decide
  intro q hq
  obtain ⟨hq, hrule⟩ := List.mem_filter.mp hq
  rcases List.mem_append.mp hq with hq | hq
  · exact hrules _ (stmts.grown (.inl ⟨rfl, trim_gap _⟩) _ _ rfl q hq).1
  · obtain rfl := List.mem_singleton.mp hq
    simp [hlast] at hrule

/-- The tree of rules of a text is read without fail. -/
theorem fileOf_succeeds {input : List Char} {p : Pair} (h : recognize input = .ok p)
    (path : SourcePath) : Succeeds (fileOf path p) := by
  refine (stmtsOf_succeeds fun q hq => ?_).bind fun _ => (Succeeds.stampFrom _ _).bind fun _ => .pure _
  exact (statements_of_recognize h q hq).1.readable.here.stmt (rules_of_recognize h q hq)

end MacroEngine.Grammar
