import MacroEngine.Parse
import MacroEngine.Proofs.Parsed.Openings

/-!
# The nodes of a parsed file

Reading numbers nodes one after the other, so all nodes of a file have different identities, and
none of them has been given before. Each node is regular: its names are such as the grammar has
them, what stands after `else` may stand there, and no statement that is an expression begins with
a named function.
-/

namespace MacroEngine

def Item.id : Item → NodeId
  | .stmt s => s.id
  | .expr e => e.id

/-- Regular nodes that are numbered from `a` on, up to `b`, each with a number of its own. -/
structure Numbered (a b : NodeId) (items : List Item) : Prop where
  le : a ≤ b
  bounds : ∀ i ∈ items, a ≤ i.id ∧ i.id < b
  nodup : (items.map Item.id).Nodup
  regular : ∀ i ∈ items, i.Regular

namespace Numbered

variable {a b c : NodeId} {items more : List Item}

theorem nil (h : a ≤ b) : Numbered a b [] :=
  ⟨h, fun _ hi => absurd hi List.not_mem_nil, .nil, fun _ hi => absurd hi List.not_mem_nil⟩

theorem append (h : Numbered a b items) (h' : Numbered b c more) :
    Numbered a c (items ++ more) := by
  refine ⟨Nat.le_trans h.le h'.le, fun i hi => ?_, ?_, fun i hi => ?_⟩
  · rcases List.mem_append.mp hi with hi | hi
    · exact ⟨(h.bounds i hi).1, Nat.lt_of_lt_of_le (h.bounds i hi).2 h'.le⟩
    · exact ⟨Nat.le_trans h.le (h'.bounds i hi).1, (h'.bounds i hi).2⟩
  · rw [List.map_append]
    refine List.nodup_append.mpr ⟨h.nodup, h'.nodup, fun x hx y hy hxy => ?_⟩
    obtain ⟨i, hi, rfl⟩ := List.mem_map.mp hx
    obtain ⟨j, hj, rfl⟩ := List.mem_map.mp hy
    exact absurd hxy (Nat.ne_of_lt (Nat.lt_of_lt_of_le (h.bounds i hi).2 (h'.bounds j hj).1))
  · exact (List.mem_append.mp hi).elim (h.regular i) (h'.regular i)

theorem perm (h : Numbered a b items) (hperm : items.Perm more) : Numbered a b more :=
  ⟨h.le, fun i hi => h.bounds i (hperm.mem_iff.mpr hi), (hperm.map _).nodup_iff.mp h.nodup,
    fun i hi => h.regular i (hperm.mem_iff.mpr hi)⟩

theorem mono_left (h : Numbered b c items) (hle : a ≤ b) : Numbered a c items :=
  ⟨Nat.le_trans hle h.le, fun i hi => ⟨Nat.le_trans hle (h.bounds i hi).1, (h.bounds i hi).2⟩,
    h.nodup, h.regular⟩

theorem mono_right (h : Numbered a b items) (hle : b ≤ c) : Numbered a c items :=
  ⟨Nat.le_trans h.le hle, fun i hi => ⟨(h.bounds i hi).1, Nat.lt_of_lt_of_le (h.bounds i hi).2 hle⟩,
    h.nodup, h.regular⟩

/-- A node is numbered when its contents are. -/
theorem cons {i : Item} (h : Numbered a b items) (hid : i.id = b) (hi : i.Regular) :
    Numbered a (b + 1) (i :: items) := by
  have hone : Numbered b (b + 1) [i] := by
    refine ⟨Nat.le_succ b, fun j hj => ?_, by simp, fun j hj => ?_⟩ <;>
      obtain rfl := List.mem_singleton.mp hj
    · exact ⟨Nat.le_of_eq hid.symm, Nat.lt_succ_of_le (Nat.le_of_eq hid)⟩
    · exact hi
  exact (h.append hone).perm List.perm_append_comm

end Numbered

namespace Grammar

open Reading

variable {α β : Type}

def Numbers (x : Reading α) (items : α → List Item) : Prop :=
  ∀ n a k, x.run n = some (a, k) → Numbered n k (items a)

def waitingItems (waiting : Waiting) : List Item := waiting.flatMap fun w => w.1.items true

section Operands

variable {a n k : NodeId} {e e' : Expr} {waiting waiting' : Waiting}

/-- An operand is joined to one that waits. -/
theorem joinOperands_numbered {items : List Item} {lhs rhs : Expr} {op : BinaryOp}
    (h : Numbered a n (items ++ (lhs.items true ++ rhs.items true)))
    (hrun : (joinOperands lhs op rhs).run n = some (e, k)) :
    Numbered a k (items ++ e.items true) := by
  simp only [joinOperands, run_bind_eq_some, run_pure_eq_some, run_stampFrom_eq_some] at hrun
  obtain ⟨_, _, ⟨rfl, rfl⟩, rfl, rfl⟩ := hrun
  exact (h.cons (i := .expr (.binary ⟨n, _⟩ op lhs rhs)) rfl trivial).perm List.perm_middle.symm

theorem waitingItems_perm {lhs : Expr} {op : BinaryOp} :
    (waitingItems ((lhs, op) :: waiting) ++ e.items true).Perm
      (waitingItems waiting ++ (lhs.items true ++ e.items true)) := by
  rw [waitingItems, List.flatMap_cons, List.append_assoc, ← List.append_assoc, ← List.append_assoc]
  exact List.perm_append_comm.append_right _

theorem closeBefore_numbered {next : BinaryOp}
    (h : Numbered a n (waitingItems waiting ++ e.items true))
    (hrun : (closeBefore next waiting e).run n = some ((waiting', e'), k)) :
    Numbered a k (waitingItems waiting' ++ e'.items true) := by
  induction waiting generalizing n e with
  | nil =>
    simp only [closeBefore, run_pure_eq_some] at hrun
    obtain ⟨heq, rfl⟩ := hrun
    cases heq
    exact h
  | cons w waiting ih =>
    obtain ⟨lhs, op⟩ := w
    rw [closeBefore] at hrun
    split at hrun
    · obtain ⟨joined, m, hjoin, hrest⟩ := run_bind_eq_some.mp hrun
      exact ih (joinOperands_numbered (h.perm waitingItems_perm) hjoin) hrest
    · obtain ⟨heq, rfl⟩ := run_pure_eq_some.mp hrun
      cases heq
      exact h

theorem closeAll_numbered (h : Numbered a n (waitingItems waiting ++ e.items true))
    (hrun : (closeAll waiting e).run n = some (e', k)) : Numbered a k (e'.items true) := by
  induction waiting generalizing n e with
  | nil =>
    obtain ⟨rfl, rfl⟩ := run_pure_eq_some.mp hrun
    exact h
  | cons w waiting ih =>
    obtain ⟨joined, m, hjoin, hrest⟩ := run_bind_eq_some.mp hrun
    exact ih (joinOperands_numbered (h.perm waitingItems_perm) hjoin) hrest

theorem applyPrefix_numbered {p : Pair} (h : Numbered a n (e.items true))
    (hrun : (applyPrefix p e).run n = some (e', k)) : Numbered a k (e'.items true) := by
  simp only [applyPrefix, run_bind_eq_some, run_pure_eq_some, run_stampFrom_eq_some] at hrun
  obtain ⟨_, _, ⟨rfl, rfl⟩, rfl, rfl⟩ := hrun
  split <;> exact h.cons rfl trivial

end Operands

/-- What is known of a pair that has grown: whatever it is read as is numbered and regular, and what
can stand after `else` is read as such. -/
structure Facts (p : Pair) : Prop where
  grown : Grown p
  expr : Numbers (exprOf p) (Expr.items true)
  prefixed : Numbers (prefixedOf p) (Expr.items true)
  primary : Numbers (primaryOf p) (Expr.items true)
  block : Numbers (blockOf p) (Block.bodyItems true)
  stmt : Chosen p → Numbers (stmtOf p) (Stmt.items true)
  alternative : p.rule = .ifStmt ∨ p.rule = .block →
    ∀ n s k, (stmtOf p).run n = some (s, k) → s.isAlternative = true

inductive Known : Pair → Prop where
  | mk {r : Rule} {i j : Nat} {source : List Char} {ps : List Pair}
    (facts : Facts (.mk r i j source ps)) (inside : ∀ p ∈ ps, Known p) : Known (.mk r i j source ps)

theorem Known.facts {p : Pair} (h : Known p) : Facts p := by
  cases h with
  | mk facts _ => exact facts

theorem Known.inner {r : Rule} {i j : Nat} {source : List Char} {ps : List Pair}
    (h : Known (.mk r i j source ps)) : ∀ p ∈ ps, Known p := by
  cases h with
  | mk _ inside => exact inside

section Lists

theorem exprsOf_numbered (ps : List Pair) (hps : ∀ p ∈ ps, Known p) {n k : NodeId}
    {es : List Expr} (hrun : (exprsOf ps).run n = some (es, k)) :
    Numbered n k (Expr.itemsAll true es) := by
  cases ps with
  | nil =>
    obtain ⟨rfl, rfl⟩ := run_pure_eq_some.mp hrun
    exact .nil (Nat.le_refl _)
  | cons p ps =>
    simp only [exprsOf, run_bind_eq_some, run_pure_eq_some] at hrun
    obtain ⟨e, _, he, es, _, hes, rfl, rfl⟩ := hrun
    exact ((hps p List.mem_cons_self).facts.expr _ _ _ he).append
      (exprsOf_numbered ps (fun q hq => hps q (List.mem_cons_of_mem _ hq)) hes)
termination_by ps.length

theorem infixOf_numbered (ps : List Pair) (hps : ∀ p ∈ ps, Known p) {waiting : Waiting}
    {a n k : NodeId} {e e' : Expr} (h : Numbered a n (waitingItems waiting ++ e.items true))
    (hrun : (infixOf waiting e ps).run n = some (e', k)) : Numbered a k (e'.items true) := by
  unfold infixOf at hrun
  split at hrun
  · exact closeAll_numbered h hrun
  · simp only [run_bind_eq_some] at hrun
    obtain ⟨⟨waiting', lhs⟩, _, hclose, operand, _, hoperand, hrun⟩ := hrun
    have hlhs := closeBefore_numbered h hclose
    have hoperand := (hps _ (by simp)).facts.prefixed _ _ _ hoperand
    refine infixOf_numbered _ (fun q hq => hps q (by simp [hq])) (e := operand) ?_ hrun
    exact (hlhs.append hoperand).perm (by
      rw [List.append_assoc]
      exact waitingItems_perm.symm)
  · cases hrun
termination_by ps.length

theorem suffixedOf_numbered (ps : List Pair) (hps : ∀ p ∈ ps, Known p) {a n k : NodeId}
    {e e' : Expr} (h : Numbered a n (e.items true))
    (hrun : (suffixedOf e ps).run n = some (e', k)) : Numbered a k (e'.items true) := by
  unfold suffixedOf at hrun
  split at hrun
  · obtain ⟨rfl, rfl⟩ := run_pure_eq_some.mp hrun
    exact h
  · simp only [run_bind_eq_some, run_stampFrom_eq_some] at hrun
    obtain ⟨args, _, hargs, _, _, ⟨rfl, rfl⟩, hrun⟩ := hrun
    have hargs := exprsOf_numbered _ (hps _ List.mem_cons_self).inner hargs
    exact suffixedOf_numbered _ (fun q hq => hps q (List.mem_cons_of_mem _ hq))
      ((h.append hargs).cons (i := .expr (.call _ e args)) rfl trivial) hrun
  · simp only [run_bind_eq_some, run_stampFrom_eq_some] at hrun
    obtain ⟨_, _, ⟨rfl, rfl⟩, hrun⟩ := hrun
    have haccess := (hps _ List.mem_cons_self).facts.grown
    have hproperty := whole_propertyName_textOf haccess.inside (haccess.yields rfl rfl)
    exact suffixedOf_numbered _ (fun q hq => hps q (List.mem_cons_of_mem _ hq))
      (h.cons (i := .expr (.member _ e _)) rfl hproperty) hrun
  · cases hrun
termination_by ps.length

theorem operandOf_numbered (ps : List Pair) (hps : ∀ p ∈ ps, Known p) {n k : NodeId} {e : Expr}
    (hrun : (operandOf ps).run n = some (e, k)) : Numbered n k (e.items true) := by
  unfold operandOf at hrun
  split at hrun
  · have hinner := (hps _ List.mem_cons_self).inner
    obtain ⟨e', _, he', hrun⟩ := run_bind_eq_some.mp hrun
    exact suffixedOf_numbered _ (fun q hq => hinner q (List.mem_cons_of_mem _ hq))
      ((hinner _ List.mem_cons_self).facts.primary _ _ _ he') hrun
  · obtain ⟨e', _, he', hrun⟩ := run_bind_eq_some.mp hrun
    exact applyPrefix_numbered
      (operandOf_numbered _ (fun q hq => hps q (List.mem_cons_of_mem _ hq)) he') hrun
  · cases hrun
termination_by ps.length

theorem propertiesOf_numbered (ps : List Pair) (hps : ∀ p ∈ ps, Known p) {n k : NodeId}
    {properties : List (String × Expr)}
    (hrun : (propertiesOf ps).run n = some (properties, k)) :
    Numbered n k (Expr.itemsProperties true properties) := by
  unfold propertiesOf at hrun
  split at hrun
  · obtain ⟨rfl, rfl⟩ := run_pure_eq_some.mp hrun
    exact .nil (Nat.le_refl _)
  · simp only [run_bind_eq_some, run_pure_eq_some] at hrun
    obtain ⟨e, _, he, more, _, hmore, rfl, rfl⟩ := hrun
    exact (((hps _ List.mem_cons_self).inner _ (by simp)).facts.expr _ _ _ he).append
      (propertiesOf_numbered _ (fun q hq => hps q (List.mem_cons_of_mem _ hq)) hmore)
  · cases hrun
termination_by ps.length

theorem arrowBodyOf_numbered (ps : List Pair) (hps : ∀ p ∈ ps, Known p) {n k : NodeId}
    {body : Block ⊕ Expr} (hrun : (arrowBodyOf ps).run n = some (body, k)) :
    Numbered n k (body.elim (Block.bodyItems true) (Expr.items true)) := by
  cases ps with
  | nil => cases hrun
  | cons p ps =>
    rw [arrowBodyOf] at hrun
    split at hrun
    · simp only [run_bind_eq_some, run_pure_eq_some] at hrun
      obtain ⟨block, _, hblock, rfl, rfl⟩ := hrun
      exact (hps p List.mem_cons_self).facts.block _ _ _ hblock
    · split at hrun
      · simp only [run_bind_eq_some, run_pure_eq_some] at hrun
        obtain ⟨e, _, he, rfl, rfl⟩ := hrun
        exact (hps p List.mem_cons_self).facts.expr _ _ _ he
      · exact arrowBodyOf_numbered ps (fun q hq => hps q (List.mem_cons_of_mem _ hq)) hrun
termination_by ps.length

theorem bodyOf_numbered (ps : List Pair) (hps : ∀ p ∈ ps, Known p) {n k : NodeId} {b : Block}
    (hrun : (bodyOf ps).run n = some (b, k)) : Numbered n k (b.bodyItems true) := by
  cases ps with
  | nil => cases hrun
  | cons p ps =>
    rw [bodyOf] at hrun
    split at hrun
    · exact (hps p List.mem_cons_self).facts.block _ _ _ hrun
    · exact bodyOf_numbered ps (fun q hq => hps q (List.mem_cons_of_mem _ hq)) hrun
termination_by ps.length

theorem initOf_numbered (ps : List Pair) (hps : ∀ p ∈ ps, Known p) {n k : NodeId}
    {init : Option Expr} (hrun : (initOf ps).run n = some (init, k)) :
    Numbered n k (init.elim [] (Expr.items true)) := by
  cases ps with
  | nil =>
    obtain ⟨rfl, rfl⟩ := run_pure_eq_some.mp hrun
    exact .nil (Nat.le_refl _)
  | cons p ps =>
    rw [initOf] at hrun
    split at hrun
    · simp only [run_bind_eq_some, run_pure_eq_some] at hrun
      obtain ⟨e, _, he, rfl, rfl⟩ := hrun
      exact (hps p List.mem_cons_self).facts.expr _ _ _ he
    · exact initOf_numbered ps (fun q hq => hps q (List.mem_cons_of_mem _ hq)) hrun
termination_by ps.length

theorem membersOf_numbered (ps : List Pair) (hps : ∀ p ∈ ps, Known p) {n k : NodeId}
    {ms : List Member} (hrun : (membersOf ps).run n = some (ms, k)) :
    Numbered n k (Member.itemsAll true ms) ∧ ∀ m ∈ ms, m.Regular := by
  unfold membersOf at hrun
  split at hrun
  · obtain ⟨rfl, rfl⟩ := run_pure_eq_some.mp hrun
    exact ⟨.nil (Nat.le_refl _), fun _ hm => absurd hm List.not_mem_nil⟩
  · simp only [run_bind_eq_some, run_pure_eq_some, run_stampFrom_eq_some,
      run_skipId_eq_some] at hrun
    obtain ⟨_, _, rfl, body, _, hbody, _, _, ⟨rfl, rfl⟩, more, _, hmore, rfl, rfl⟩ := hrun
    have hbody := (bodyOf_numbered _ (hps _ List.mem_cons_self).inner hbody).mono_left
      (Nat.le_succ n)
    obtain ⟨hmore, hregular⟩ :=
      membersOf_numbered _ (fun q hq => hps q (List.mem_cons_of_mem _ hq)) hmore
    have hmethod := (hps _ List.mem_cons_self).facts.grown.method
    exact ⟨(hbody.mono_right (Nat.le_succ _)).append hmore,
      List.forall_mem_cons.mpr ⟨hmethod _ _, hregular⟩⟩
  · simp only [run_bind_eq_some, run_pure_eq_some, run_stampFrom_eq_some] at hrun
    obtain ⟨init, _, hinit, _, _, ⟨rfl, rfl⟩, more, _, hmore, rfl, rfl⟩ := hrun
    have hinit := initOf_numbered _ (hps _ List.mem_cons_self).inner hinit
    obtain ⟨hmore, hregular⟩ :=
      membersOf_numbered _ (fun q hq => hps q (List.mem_cons_of_mem _ hq)) hmore
    have hall := (hinit.mono_right (Nat.le_succ _)).append hmore
    have hfield := (hps _ List.mem_cons_self).facts.grown
    have hname := whole_propertyName_textOf hfield.inside (hfield.yields rfl rfl)
    refine ⟨?_, List.forall_mem_cons.mpr ⟨hname, hregular⟩⟩
    cases init with
    | none => exact hall
    | some e => exact hall
  · exact membersOf_numbered _ (fun q hq => hps q (List.mem_cons_of_mem _ hq)) hrun
termination_by ps.length

theorem stmtsOf_numbered (ps : List Pair) (hps : ∀ p ∈ ps, Known p ∧ Chosen p) {n k : NodeId}
    {ss : List Stmt} (hrun : (stmtsOf ps).run n = some (ss, k)) :
    Numbered n k (Stmt.itemsAll true ss) := by
  cases ps with
  | nil =>
    obtain ⟨rfl, rfl⟩ := run_pure_eq_some.mp hrun
    exact .nil (Nat.le_refl _)
  | cons p ps =>
    simp only [stmtsOf, run_bind_eq_some, run_pure_eq_some] at hrun
    obtain ⟨s, _, hs, ss, _, hss, rfl, rfl⟩ := hrun
    obtain ⟨hp, hchosen⟩ := hps p List.mem_cons_self
    exact (hp.facts.stmt hchosen _ _ _ hs).append
      (stmtsOf_numbered ps (fun q hq => hps q (List.mem_cons_of_mem _ hq)) hss)
termination_by ps.length

end Lists

/-- What can be read as a statement after `else` is another `if` or a block. -/
theorem rule_of_alternative {i j : Nat} {source : List Char} {ps : List Pair} {p : Pair}
    (h : Grown (.mk .ifStmt i j source ps)) (hp : p ∈ ps) {n k : NodeId} {s : Stmt}
    (hrun : (stmtOf p).run n = some (s, k)) : p.rule = .ifStmt ∨ p.rule = .block := by
  have hmentions : mentions (Host.body .ifStmt) =
      [.word "if", .expression, .block, .word "else", .ifStmt, .block] := rfl
  have hrule := h.rules p hp
  obtain ⟨r, _, _, _, _⟩ := p
  simp only [hmentions, Pair.rule, List.mem_cons, List.not_mem_nil, or_false] at hrule ⊢
  rcases hrule with rfl | rfl | rfl | rfl | rfl | rfl
  · cases hrun
  · cases hrun
  · exact .inr rfl
  · cases hrun
  · exact .inl rfl
  · exact .inr rfl

theorem chosen_of_alternative {p : Pair} (h : p.rule = .ifStmt ∨ p.rule = .block) : Chosen p := by
  intro hr
  rw [hr] at h
  rcases h with h | h <;> cases h

section Pairs

variable {p : Pair}

theorem exprOf_numbered (hp : ∀ q ∈ p.inner, Known q) :
    Numbers (exprOf p) (Expr.items true) := by
  intro n result k hrun
  unfold exprOf at hrun
  split at hrun
  · exact (hp _ (by simp [Pair.inner])).facts.expr _ _ _ hrun
  · simp only [run_bind_eq_some, run_pure_eq_some, run_stampFrom_eq_some] at hrun
    obtain ⟨t, _, ht, v, _, hv, _, _, ⟨rfl, rfl⟩, rfl, rfl⟩ := hrun
    have ht := (hp _ (by simp [Pair.inner])).facts.expr _ _ _ ht
    have hv := (hp _ (by simp [Pair.inner])).facts.expr _ _ _ hv
    exact (ht.append hv).cons rfl trivial
  · obtain ⟨e', _, he', hrun⟩ := run_bind_eq_some.mp hrun
    have he' := (hp _ (by simp [Pair.inner])).facts.prefixed _ _ _ he'
    exact infixOf_numbered _ (fun q hq => hp q (List.mem_cons_of_mem _ hq)) he' hrun
  · cases hrun

theorem prefixedOf_numbered (hp : ∀ q ∈ p.inner, Known q) :
    Numbers (prefixedOf p) (Expr.items true) := by
  intro n result k hrun
  unfold prefixedOf at hrun
  split at hrun
  · exact operandOf_numbered _ hp hrun
  · cases hrun

theorem primaryOf_numbered (hgrown : Grown p) (hp : ∀ q ∈ p.inner, Known q) :
    Numbers (primaryOf p) (Expr.items true) := by
  intro n result k hrun
  have hnil : Numbered n n [] := .nil (Nat.le_refl _)
  unfold primaryOf at hrun
  split at hrun
  · simp only [run_bind_eq_some, run_pure_eq_some, run_stampFrom_eq_some] at hrun
    obtain ⟨_, _, ⟨rfl, rfl⟩, rfl, rfl⟩ := hrun
    exact hnil.cons rfl (hgrown.whole_identifier rfl)
  · simp only [run_bind_eq_some, run_pure_eq_some, run_stampFrom_eq_some] at hrun
    obtain ⟨_, _, ⟨rfl, rfl⟩, rfl, rfl⟩ := hrun
    exact hnil.cons rfl (hgrown.whole_number rfl)
  · simp only [run_bind_eq_some, run_pure_eq_some, run_stampFrom_eq_some] at hrun
    obtain ⟨_, _, ⟨rfl, rfl⟩, rfl, rfl⟩ := hrun
    exact hnil.cons rfl trivial
  · simp only [run_bind_eq_some, run_pure_eq_some, run_stampFrom_eq_some] at hrun
    obtain ⟨_, _, ⟨rfl, rfl⟩, rfl, rfl⟩ := hrun
    exact hnil.cons rfl (hgrown.insideText rfl)
  iterate 3
    · simp only [run_bind_eq_some, run_pure_eq_some, run_stampFrom_eq_some] at hrun
      obtain ⟨_, _, ⟨rfl, rfl⟩, rfl, rfl⟩ := hrun
      exact hnil.cons rfl trivial
  · simp only [run_bind_eq_some, run_pure_eq_some, run_stampFrom_eq_some] at hrun
    obtain ⟨items, _, hitems, _, _, ⟨rfl, rfl⟩, rfl, rfl⟩ := hrun
    exact (exprsOf_numbered _ hp hitems).cons rfl trivial
  · simp only [run_bind_eq_some, run_pure_eq_some, run_stampFrom_eq_some] at hrun
    obtain ⟨properties, _, hproperties, _, _, ⟨rfl, rfl⟩, rfl, rfl⟩ := hrun
    exact (propertiesOf_numbered _ hp hproperties).cons rfl trivial
  · simp only [run_bind_eq_some, run_pure_eq_some, run_stampFrom_eq_some] at hrun
    obtain ⟨inner, _, hinner, _, _, ⟨rfl, rfl⟩, rfl, rfl⟩ := hrun
    exact ((hp _ List.mem_cons_self).facts.expr _ _ _ hinner).cons rfl trivial
  · simp only [run_bind_eq_some, run_pure_eq_some, run_stampFrom_eq_some] at hrun
    obtain ⟨args, _, hargs, _, _, ⟨rfl, rfl⟩, rfl, rfl⟩ := hrun
    exact (exprsOf_numbered _ (hp _ (List.mem_cons_of_mem _ List.mem_cons_self)).inner hargs).cons
      rfl hgrown.invoke
  · simp only [run_bind_eq_some, run_pure_eq_some, run_stampFrom_eq_some] at hrun
    obtain ⟨_, _, ⟨rfl, rfl⟩, rfl, rfl⟩ := hrun
    exact hnil.cons rfl hgrown.tagged
  · simp only [run_bind_eq_some, run_pure_eq_some, run_stampFrom_eq_some,
      run_skipId_eq_some] at hrun
    obtain ⟨_, _, rfl, body, _, hbody, _, _, ⟨rfl, rfl⟩, rfl, rfl⟩ := hrun
    have hbody := (arrowBodyOf_numbered _ hp hbody).mono_left (Nat.le_succ n)
    have hnames := whole_identifiersIn (r := .arrowParams) hgrown.inside
    cases body with
    | inl block => exact hbody.cons rfl hnames
    | inr e => exact hbody.cons rfl hnames
  · simp only [run_bind_eq_some, run_pure_eq_some, run_stampFrom_eq_some] at hrun
    obtain ⟨body, _, hbody, _, _, ⟨rfl, rfl⟩, rfl, rfl⟩ := hrun
    exact (bodyOf_numbered _ hp hbody).cons rfl
      ⟨functionHeadOf_regular hgrown.inside, hgrown.internal⟩
  · cases hrun

theorem blockOf_numbered (hgrown : Grown p) (hp : ∀ q ∈ p.inner, Known q) :
    Numbers (blockOf p) (Block.bodyItems true) := by
  intro n result k hrun
  unfold blockOf at hrun
  split at hrun
  · simp only [run_bind_eq_some, run_pure_eq_some, run_stampFrom_eq_some] at hrun
    obtain ⟨ss, _, hss, _, _, ⟨rfl, rfl⟩, rfl, rfl⟩ := hrun
    have hstmts := fun q hq => And.intro (hp q hq) (hgrown.statements q hq).2
    exact (stmtsOf_numbered _ hstmts hss).mono_right (Nat.le_succ _)
  · cases hrun

theorem stmtOf_numbered (hgrown : Grown p) (hp : ∀ q ∈ p.inner, Known q) (hchosen : Chosen p) :
    Numbers (stmtOf p) (Stmt.items true) := by
  intro n result k hrun
  have hnil : Numbered n n [] := .nil (Nat.le_refl _)
  unfold stmtOf at hrun
  split at hrun
  all_goals simp only [run_bind_eq_some, run_pure_eq_some, run_stampFrom_eq_some,
    run_failure_eq_some] at hrun
  · obtain ⟨_, _, ⟨rfl, rfl⟩, rfl, rfl⟩ := hrun
    exact hnil.cons rfl (whole_textsOf hgrown.inside)
  · obtain ⟨body, _, hbody, _, _, ⟨rfl, rfl⟩, rfl, rfl⟩ := hrun
    exact (bodyOf_numbered _ hp hbody).cons rfl
      ⟨functionHeadOf_regular hgrown.inside, hgrown.named⟩
  · obtain ⟨ms, _, hms, _, _, ⟨rfl, rfl⟩, rfl, rfl⟩ := hrun
    obtain ⟨hms, hmembers⟩ := membersOf_numbered _ hp hms
    have hname := whole_identifier_textOf hgrown.inside (hgrown.yields rfl rfl)
    exact hms.cons rfl ⟨hname, whole_identifiersIn hgrown.inside, hmembers⟩
  · obtain ⟨init, _, hinit, _, _, ⟨rfl, rfl⟩, rfl, rfl⟩ := hrun
    have hinit := initOf_numbered _ hp hinit
    have hname := whole_identifier_textOf hgrown.inside (hgrown.yields rfl rfl)
    cases init with
    | none => exact hinit.cons rfl hname
    | some e => exact hinit.cons rfl hname
  · obtain ⟨value, _, hvalue, _, _, ⟨rfl, rfl⟩, rfl, rfl⟩ := hrun
    have hvalue := initOf_numbered _ hp hvalue
    cases value with
    | none => exact hvalue.cons rfl trivial
    | some e => exact hvalue.cons rfl trivial
  · obtain ⟨c, _, hc, t, _, ht, _, _, ⟨rfl, rfl⟩, rfl, rfl⟩ := hrun
    have hc := (hp _ (by simp [Pair.inner])).facts.expr _ _ _ hc
    have ht := (hp _ (by simp [Pair.inner])).facts.block _ _ _ ht
    exact (hc.append (bodyItems_true t ▸ ht)).cons rfl fun _ hs => by cases hs
  · obtain ⟨c, _, hc, t, _, ht, e, _, he, _, _, ⟨rfl, rfl⟩, rfl, rfl⟩ := hrun
    have hrule := rule_of_alternative hgrown (by simp) he
    have halternative := (hp _ (by simp [Pair.inner])).facts.alternative hrule _ _ _ he
    have hc := (hp _ (by simp [Pair.inner])).facts.expr _ _ _ hc
    have ht := (hp _ (by simp [Pair.inner])).facts.block _ _ _ ht
    have he := (hp _ (by simp [Pair.inner])).facts.stmt (chosen_of_alternative hrule) _ _ _ he
    exact (hc.append ((bodyItems_true t ▸ ht).append he)).cons rfl fun _ hs =>
      Option.some.inj hs ▸ halternative
  · obtain ⟨c, _, hc, b, _, hb, _, _, ⟨rfl, rfl⟩, rfl, rfl⟩ := hrun
    have hc := (hp _ (by simp [Pair.inner])).facts.expr _ _ _ hc
    have hb := (hp _ (by simp [Pair.inner])).facts.block _ _ _ hb
    exact (hc.append (bodyItems_true b ▸ hb)).cons rfl trivial
  · obtain ⟨i, _, hi, b, _, hb, _, _, ⟨rfl, rfl⟩, rfl, rfl⟩ := hrun
    have hi := (hp _ (by simp [Pair.inner])).facts.expr _ _ _ hi
    have hb := (hp _ (by simp [Pair.inner])).facts.block _ _ _ hb
    exact (hi.append (bodyItems_true b ▸ hb)).cons rfl hgrown.forOf
  · obtain ⟨b, _, hb, _, _, ⟨rfl, rfl⟩, rfl, rfl⟩ := hrun
    have hb := (hp _ (by simp [Pair.inner])).facts.block _ _ _ hb
    exact (bodyItems_true b ▸ hb).cons rfl trivial
  · obtain ⟨b, _, hb, f, _, hf, _, _, ⟨rfl, rfl⟩, rfl, rfl⟩ := hrun
    have hb := (hp _ (by simp [Pair.inner])).facts.block _ _ _ hb
    have hf := (hp _ (by simp [Pair.inner])).facts.block _ _ _ hf
    exact ((bodyItems_true b ▸ hb).append (bodyItems_true f ▸ hf)).cons rfl trivial
  · obtain ⟨e, _, he, _, _, ⟨rfl, rfl⟩, rfl, rfl⟩ := hrun
    have he := (hp _ (by simp [Pair.inner])).facts.expr _ _ _ he
    exact he.cons rfl trivial
  · obtain ⟨ss, _, hss, _, _, ⟨rfl, rfl⟩, _, _, ⟨rfl, rfl⟩, rfl, rfl⟩ := hrun
    have hss := stmtsOf_numbered _ (fun q hq => ⟨hp q hq, (hgrown.statements q hq).2⟩) hss
    exact (hss.mono_right (Nat.le_succ _)).cons rfl trivial
  · obtain ⟨_, _, ⟨rfl, rfl⟩, rfl, rfl⟩ := hrun
    exact hnil.cons rfl trivial
  · obtain ⟨e, _, he, _, _, ⟨rfl, rfl⟩, rfl, rfl⟩ := hrun
    have hnamed := hgrown.not_named hchosen he
    have he := (hp _ (by simp [Pair.inner])).facts.expr _ _ _ he
    exact he.cons rfl (.inr hnamed)

theorem stmtOf_isAlternative (hp : p.rule = .ifStmt ∨ p.rule = .block) (n : NodeId) (s : Stmt)
    (k : NodeId) (hrun : (stmtOf p).run n = some (s, k)) : s.isAlternative = true := by
  unfold stmtOf at hrun
  split at hrun
  all_goals simp only [Pair.rule, run_bind_eq_some, run_pure_eq_some, run_stampFrom_eq_some,
    run_failure_eq_some, reduceCtorEq, or_self] at hp hrun
  · obtain ⟨c, _, hc, t, _, ht, _, _, ⟨rfl, rfl⟩, rfl, rfl⟩ := hrun
    rfl
  · obtain ⟨c, _, hc, t, _, ht, e, _, he, _, _, ⟨rfl, rfl⟩, rfl, rfl⟩ := hrun
    rfl
  · obtain ⟨ss, _, hss, _, _, ⟨rfl, rfl⟩, _, _, ⟨rfl, rfl⟩, rfl, rfl⟩ := hrun
    rfl

end Pairs

/-- Every pair that has grown is known. -/
theorem Grown.known {p : Pair} (h : Grown p) : Known p := by
  induction h with
  | mk body trimmed rules inside ih =>
    have hgrown := Grown.mk body trimmed rules inside
    exact .mk ⟨hgrown, exprOf_numbered ih, prefixedOf_numbered ih, primaryOf_numbered hgrown ih,
      blockOf_numbered hgrown ih, stmtOf_numbered hgrown ih, stmtOf_isAlternative⟩ ih

end Grammar

open Grammar

/-- The nodes of a parsed file are numbered from the next identity on, each on its own. -/
theorem SourceFile.parse_numbered {path : SourcePath} {text : String} {n k : NodeId}
    {file : SourceFile} (h : (SourceFile.parse path text).run n = (.ok file, k)) :
    Numbered n k file.items ∧ file.path = path := by
  unfold SourceFile.parse at h
  cases hp : recognize text.toList with
  | error m =>
    rw [hp] at h
    cases h
  | ok p =>
    rw [hp] at h
    dsimp only [StateT.run] at h
    cases hrun : fileOf path p n with
    | none =>
      rw [hrun] at h
      cases h
    | some r =>
      obtain ⟨file', next⟩ := r
      rw [hrun] at h
      obtain ⟨⟨⟩, rfl⟩ := Prod.mk.inj h
      have hrun : (fileOf path p).run n = some (file, next) := hrun
      obtain ⟨r, i, j, source, ps⟩ := p
      have hstmts := statements_of_recognize hp
      simp only [fileOf, run_bind_eq_some, run_pure_eq_some, run_stampFrom_eq_some] at hrun
      obtain ⟨ss, _, hss, _, _, ⟨rfl, rfl⟩, rfl, rfl⟩ := hrun
      have hss := stmtsOf_numbered _ (fun q hq => ⟨(hstmts q hq).1.known, (hstmts q hq).2⟩) hss
      exact ⟨hss.mono_right (Nat.le_succ _), rfl⟩

end MacroEngine
