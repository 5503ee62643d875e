import MacroEngine.Proofs.Order.Reading
import MacroEngine.Proofs.Parsed.Grown
import MacroEngine.Proofs.Parsed.Outline

/-!
# The outlines of parsed files

Pairs that lie one after the other are read as outlines in order. Where a node takes its span from
its operands, these are the last outlines of a row: the operands that wait, in the order of the
text, and the current one.
-/

namespace MacroEngine

open Text (byteLength)

theorem utf8ByteSize_ofList (cs : List Char) :
    (String.ofList cs).utf8ByteSize = byteLength cs := by
  induction cs with
  | nil => rfl
  | cons c cs ih =>
    rw [byteLength, ← ih]
    simp

namespace Grammar

open Reading

/-- A place of a text lies between two of its characters. -/
theorem Cursor.Before.isValid {text : String} {c : Cursor} (h : Before ⟨0, text.toList⟩ c) :
    String.Pos.Raw.IsValid text ⟨c.offset⟩ := by
  obtain ⟨between, htext, hc⟩ := h
  have htext : text.toList = between ++ c.rest := htext
  refine String.Pos.Raw.isValid_iff_exists_append.mpr
    ⟨String.ofList between, String.ofList c.rest, ?_, ?_⟩
  · rw [← String.ofList_append, ← htext, String.ofList_toList]
  · rw [String.rawEndPos, utf8ByteSize_ofList, hc, Nat.zero_add]

section Pairs

variable {text : String} {r : Rule} {i j i' j' : Nat} {source : List Char} {p : Pair}
  {ps : List Pair} {a b : NodeId} {os : List Outline}

theorem Laid.inside (h : Laid text.toList (.mk r i j source ps)) :
    LaidOut text.toList i j ps := by
  cases h with
  | mk _ _ inside => exact inside

theorem Laid.start_valid (h : Laid text.toList p) : String.Pos.Raw.IsValid text ⟨p.start⟩ := by
  cases h with
  | mk start => exact start.isValid

theorem Laid.stop_valid (h : Laid text.toList p) : String.Pos.Raw.IsValid text ⟨p.stop⟩ := by
  cases h with
  | mk start body => exact (start.trans body.before).isValid

theorem Laid.node (kind : NodeKind) (h : Laid text.toList p) (hos : InOrder text i' j' a b os)
    (hi : p.start ≤ i') (hj : j' ≤ p.stop) (hkind : kind ≠ .block := by decide) :
    InOrder text p.start p.stop a (b + 1) [.node kind ⟨b, ⟨p.start, p.stop⟩⟩ os] :=
  hos.node (fun heq => absurd heq hkind) h.start_valid h.stop_valid hi hj

theorem Laid.leaf (kind : NodeKind) (h : Laid text.toList p) (n : NodeId)
    (hkind : kind ≠ .block := by decide) :
    InOrder text p.start p.stop n (n + 1) [.node kind ⟨n, ⟨p.start, p.stop⟩⟩ []] :=
  h.node kind (.nil h.start_le_stop (Nat.le_refl n)) (Nat.le_refl _) (Nat.le_refl _) hkind

theorem Laid.isBraced (h : Laid text.toList (.mk .block i j source ps)) :
    Span.IsBraced text ⟨i, j⟩ := by
  cases h with
  | @mk s _ _ _ _ rest _ start body =>
    have body : Matches s (Grammar.text "\x7b" ++ Peg.star Host.statement ++ Grammar.text "\x7d")
      ⟨i, source⟩ (some (⟨j, rest⟩, ps)) := body
    obtain ⟨before, htext, hi⟩ := start
    obtain ⟨between, hsource, hj⟩ := body.before
    obtain ⟨c, _, _, -, body, closing⟩ := body.seq_inv
    obtain ⟨d, _, _, -, opening, stmts⟩ := body.seq_inv
    obtain ⟨-, hopening⟩ := opening.lit_inv
    obtain ⟨-, hclosing⟩ := closing.lit_inv
    obtain ⟨inside, hinside, -⟩ := (gap_before s d).trans (stmts.before.trans (gap_before s c))
    have hbraces : source = ('\x7b' :: (inside ++ ['\x7d'])) ++ rest := by
      change source = '\x7b' :: d.rest at hopening
      rw [hopening, hinside, hclosing, List.cons_append, List.append_assoc]
      rfl
    obtain rfl := List.append_cancel_right (hsource.symm.trans hbraces)
    have hi : i = byteLength before := by simpa using hi
    refine ⟨before, inside, rest, ?_, hi, ?_⟩
    · change text.toList = before ++ source at htext
      rw [htext, hbraces, List.cons_append, List.append_assoc]
      rfl
    · rw [Text.byteLength_append, ← hi]
      exact hj

theorem Laid.block (h : Laid text.toList (.mk .block i j source ps))
    (hos : InOrder text i j a b os) :
    InOrder text i j a (b + 1) [.node .block ⟨b, ⟨i, j⟩⟩ os] :=
  hos.node (fun _ => h.isBraced) h.start_valid h.stop_valid (Nat.le_refl _) (Nat.le_refl _)

theorem LaidOut.uncons (h : LaidOut text.toList i j (p :: ps)) :
    i ≤ p.start ∧ Laid text.toList p ∧ LaidOut text.toList p.stop j ps := by
  cases h with
  | cons start first more => exact ⟨start, first, more⟩

/-- The pairs after the first one lie in the same part of the text. -/
theorem LaidOut.tail (h : LaidOut text.toList i j (p :: ps)) : LaidOut text.toList i j ps := by
  obtain ⟨start, first, more⟩ := h.uncons
  exact more.mono_left (Nat.le_trans start first.start_le_stop)

end Pairs

def Waiting.outlines (waiting : Waiting) : List Outline :=
  (waiting.map fun w => w.1.outline).reverse

section Operands

variable {text : String} {i j l : Nat} {a n k : NodeId} {e e' : Expr} {waiting waiting' : Waiting}

/-- An operand is joined to the one before it. -/
theorem joinOperands_inOrder {front : List Outline} {lhs rhs : Expr} {op : BinaryOp}
    (h : InOrder text i j a n (front ++ [lhs.outline, rhs.outline]))
    (hrun : (joinOperands lhs op rhs).run n = some (e, k)) :
    InOrder text i j a k (front ++ [e.outline]) := by
  simp only [joinOperands, run_bind_eq_some, run_pure_eq_some, run_stampFrom_eq_some] at hrun
  obtain ⟨_, _, ⟨rfl, rfl⟩, rfl, rfl⟩ := hrun
  have hlhs : lhs.outline ∈ front ++ [lhs.outline, rhs.outline] := by simp
  have hrhs : rhs.outline ∈ front ++ [lhs.outline, rhs.outline] := by simp
  obtain ⟨-, hoperands, hfront⟩ := List.pairwise_append.mp h.apart
  have hbetween : lhs.span.stop ≤ rhs.span.start := by simpa using hoperands
  have hle := h.span_le hlhs
  have hle' := h.span_le hrhs
  have hin := h.inside _ hlhs
  have hin' := h.inside _ hrhs
  have hs := h.start_valid hlhs
  have ht := h.stop_valid hrhs
  simp only [Expr.span_outline] at hle hle' hin hin' hs ht
  refine h.wrap (fun hkind => absurd hkind (by decide)) hs ht (by omega) (fun o ho => ?_)
    (fun o ho => ?_) hin.1 hin'.2
  · simpa using hfront o ho lhs.outline (by simp)
  · rcases List.mem_cons.mp ho with rfl | ho
    · rw [Expr.span_outline]
      omega
    · obtain rfl := List.mem_singleton.mp ho
      rw [Expr.span_outline]
      omega

theorem Waiting.outlines_cons (lhs : Expr) (op : BinaryOp) (waiting : Waiting) (e : Expr) :
    Waiting.outlines ((lhs, op) :: waiting) ++ [e.outline] =
      Waiting.outlines waiting ++ [lhs.outline, e.outline] := by
  simp [Waiting.outlines]

theorem closeBefore_inOrder {next : BinaryOp}
    (h : InOrder text i j a n (Waiting.outlines waiting ++ [e.outline]))
    (hrun : (closeBefore next waiting e).run n = some ((waiting', e'), k)) :
    InOrder text i j a k (Waiting.outlines waiting' ++ [e'.outline]) := by
  induction waiting generalizing n e with
  | nil =>
    obtain ⟨heq, rfl⟩ := run_pure_eq_some.mp hrun
    cases heq
    exact h
  | cons w waiting ih =>
    obtain ⟨lhs, op⟩ := w
    rw [closeBefore] at hrun
    split at hrun
    · obtain ⟨joined, m, hjoin, hrest⟩ := run_bind_eq_some.mp hrun
      rw [Waiting.outlines_cons] at h
      exact ih (joinOperands_inOrder h hjoin) hrest
    · obtain ⟨heq, rfl⟩ := run_pure_eq_some.mp hrun
      cases heq
      exact h

theorem closeAll_inOrder (h : InOrder text i j a n (Waiting.outlines waiting ++ [e.outline]))
    (hrun : (closeAll waiting e).run n = some (e', k)) : InOrder text i j a k [e'.outline] := by
  induction waiting generalizing n e with
  | nil =>
    obtain ⟨rfl, rfl⟩ := run_pure_eq_some.mp hrun
    exact h
  | cons w waiting ih =>
    obtain ⟨joined, m, hjoin, hrest⟩ := run_bind_eq_some.mp hrun
    rw [Waiting.outlines_cons] at h
    exact ih (joinOperands_inOrder h hjoin) hrest

/-- A prefix operator reaches up to the end of its operand. -/
theorem applyPrefix_inOrder {p : Pair} (hp : Laid text.toList p) (hstop : p.stop ≤ i)
    (h : InOrder text i j n l [e.outline]) (hrun : (applyPrefix p e).run l = some (e', k)) :
    InOrder text p.start j n k [e'.outline] := by
  simp only [applyPrefix, run_bind_eq_some, run_pure_eq_some, run_stampFrom_eq_some] at hrun
  obtain ⟨_, _, ⟨rfl, rfl⟩, rfl, rfl⟩ := hrun
  have he := List.mem_singleton_self e.outline
  have hle := hp.start_le_stop
  have hle' := h.span_le he
  have hin := h.inside _ he
  have ht := h.stop_valid he
  simp only [Expr.span_outline] at hle' hin ht
  have hnode : InOrder text p.start j n (l + 1)
      [.node .expression ⟨l, ⟨p.start, e.span.stop⟩⟩ [e.outline]] := by
    have h := h.mono (show p.start ≤ i by omega) (Nat.le_refl j)
    refine h.cover (fun hkind => absurd hkind (by decide)) hp.start_valid ht (by omega)
      (fun o ho => ?_) (Nat.le_refl _) hin.2
    obtain rfl := List.mem_singleton.mp ho
    rw [Expr.span_outline]
    omega
  split <;> exact hnode

/-- What follows an expression, arguments or a member, makes a longer one that begins at the same
place. -/
theorem suffix_inOrder {p : Pair} {args : List Outline} (hp : Laid text.toList p)
    (hstart : i ≤ p.start) (h : InOrder text l i a n [e.outline])
    (hargs : InOrder text p.start p.stop n k args) :
    InOrder text l p.stop a (k + 1)
      [.node .expression ⟨k, ⟨e.span.start, p.stop⟩⟩ (e.outline :: args)] := by
  have he := List.mem_singleton_self e.outline
  have hin := h.inside _ he
  have hs := h.start_valid he
  have hle := h.span_le he
  have hle' := hp.start_le_stop
  simp only [Expr.span_outline] at hin hs hle
  refine (h.append hargs hstart).cover (fun hkind => absurd hkind (by decide)) hs hp.stop_valid
    (by omega) (fun o ho => ?_) hin.1 (Nat.le_refl _)
  rcases List.mem_cons.mp ho with rfl | ho
  · rw [Expr.span_outline]
    omega
  · have ho := hargs.inside o ho
    omega

end Operands

inductive Pair.Everywhere (P : Pair → Prop) : Pair → Prop where
  | mk {r : Rule} {i j : Nat} {source : List Char} {ps : List Pair}
    (here : P (.mk r i j source ps)) (inside : ∀ p ∈ ps, Everywhere P p) :
    Everywhere P (.mk r i j source ps)

namespace Pair

variable {P : Pair → Prop} {p : Pair}

theorem Everywhere.here (h : p.Everywhere P) : P p := by
  cases h with
  | mk here => exact here

theorem Everywhere.inner (h : p.Everywhere P) : ∀ q ∈ p.inner, q.Everywhere P := by
  cases h with
  | mk _ inside => exact inside

mutual

/-- What holds of a pair as soon as it holds everywhere inside it holds everywhere. -/
theorem everywhere (h : ∀ p : Pair, (∀ q ∈ p.inner, q.Everywhere P) → P p) :
    ∀ p : Pair, p.Everywhere P
  | .mk r i j source ps =>
    have hps := everywhereIn h ps
    .mk (h (.mk r i j source ps) hps) hps

theorem everywhereIn (h : ∀ p : Pair, (∀ q ∈ p.inner, q.Everywhere P) → P p) :
    ∀ (ps : List Pair), ∀ q ∈ ps, q.Everywhere P
  | [] => fun _ hq => absurd hq List.not_mem_nil
  | p :: ps => List.forall_mem_cons.mpr ⟨everywhere h p, everywhereIn h ps⟩

end

end Pair

/-- What a pair is read as lies in order where the pair lies. -/
def Lies {α : Type} (text : String) (p : Pair) (x : Reading α) (outline : α → Outline) : Prop :=
  Laid text.toList p → ∀ n r k, x.run n = some (r, k) →
    InOrder text p.start p.stop n k [outline r]

structure Outlined (text : String) (p : Pair) : Prop where
  expr : Lies text p (exprOf p) Expr.outline
  prefixed : Lies text p (prefixedOf p) Expr.outline
  primary : Lies text p (primaryOf p) Expr.outline
  block : Lies text p (blockOf p) Block.outline
  stmt : Lies text p (stmtOf p) Stmt.outline

section Lists

variable {text : String}

theorem exprsOf_inOrder (ps : List Pair) (hps : ∀ p ∈ ps, p.Everywhere (Outlined text))
    {i j : Nat} (hlaid : LaidOut text.toList i j ps) {n k : NodeId} {es : List Expr}
    (hrun : (exprsOf ps).run n = some (es, k)) : InOrder text i j n k (Expr.outlines es) := by
  unfold exprsOf at hrun
  split at hrun
  · obtain ⟨rfl, rfl⟩ := run_pure_eq_some.mp hrun
    exact .nil hlaid.le (Nat.le_refl _)
  · simp only [run_bind_eq_some, run_pure_eq_some] at hrun
    obtain ⟨e, _, he, es, _, hes, rfl, rfl⟩ := hrun
    obtain ⟨hfirst, hrest⟩ := List.forall_mem_cons.mp hps
    obtain ⟨hstart, hpair, hmore⟩ := hlaid.uncons
    have he := (hfirst.here.expr hpair _ _ _ he).mono hstart (Nat.le_refl _)
    exact he.append (exprsOf_inOrder _ hrest hmore hes) (Nat.le_refl _)
termination_by ps.length

theorem infixOf_inOrder (ps : List Pair) (hps : ∀ p ∈ ps, p.Everywhere (Outlined text))
    {i l j : Nat} (hlaid : LaidOut text.toList l j ps) {a n k : NodeId} (waiting : Waiting)
    {e e' : Expr} (h : InOrder text i l a n (Waiting.outlines waiting ++ [e.outline]))
    (hrun : (infixOf waiting e ps).run n = some (e', k)) : InOrder text i j a k [e'.outline] := by
  unfold infixOf at hrun
  split at hrun
  · exact (closeAll_inOrder h hrun).mono (Nat.le_refl _) hlaid.le
  · simp only [run_bind_eq_some] at hrun
    obtain ⟨⟨waiting', lhs⟩, m, hclose, operand, _, hoperand, hrun⟩ := hrun
    obtain ⟨-, hrest⟩ := List.forall_mem_cons.mp hps
    obtain ⟨hfirst, hrest⟩ := List.forall_mem_cons.mp hrest
    obtain ⟨hbetween, hpair, hmore⟩ := hlaid.tail.uncons
    have hlhs := closeBefore_inOrder h hclose
    have hoperand := hfirst.here.prefixed hpair _ _ _ hoperand
    refine infixOf_inOrder _ hrest hmore ((lhs, _) :: waiting') ?_ hrun
    rw [Waiting.outlines_cons, List.append_cons]
    exact hlhs.append hoperand hbetween
  · cases hrun
termination_by ps.length

theorem suffixedOf_inOrder (ps : List Pair) (hps : ∀ p ∈ ps, p.Everywhere (Outlined text))
    {i l j : Nat} (hlaid : LaidOut text.toList l j ps) {a n k : NodeId} {e e' : Expr}
    (h : InOrder text i l a n [e.outline]) (hrun : (suffixedOf e ps).run n = some (e', k)) :
    InOrder text i j a k [e'.outline] := by
  unfold suffixedOf at hrun
  split at hrun
  · obtain ⟨rfl, rfl⟩ := run_pure_eq_some.mp hrun
    exact h.mono (Nat.le_refl _) hlaid.le
  · simp only [run_bind_eq_some, run_stampFrom_eq_some] at hrun
    obtain ⟨args, _, hargs, _, _, ⟨rfl, rfl⟩, hrun⟩ := hrun
    obtain ⟨hfirst, hrest⟩ := List.forall_mem_cons.mp hps
    obtain ⟨hstart, hpair, hmore⟩ := hlaid.uncons
    have hargs := exprsOf_inOrder _ hfirst.inner hpair.inside hargs
    have hcall := suffix_inOrder hpair hstart h hargs
    exact suffixedOf_inOrder _ hrest hmore (e := .call _ e args) hcall hrun
  · simp only [run_bind_eq_some, run_stampFrom_eq_some] at hrun
    obtain ⟨_, _, ⟨rfl, rfl⟩, hrun⟩ := hrun
    obtain ⟨-, hrest⟩ := List.forall_mem_cons.mp hps
    obtain ⟨hstart, hpair, hmore⟩ := hlaid.uncons
    have hmember := suffix_inOrder hpair hstart h (.nil hpair.start_le_stop (Nat.le_refl n))
    exact suffixedOf_inOrder _ hrest hmore (e := .member _ e _) hmember hrun
  · cases hrun
termination_by ps.length

theorem operandOf_inOrder (ps : List Pair) (hps : ∀ p ∈ ps, p.Everywhere (Outlined text))
    {i j : Nat} (hlaid : LaidOut text.toList i j ps) {n k : NodeId} {e : Expr}
    (hrun : (operandOf ps).run n = some (e, k)) : InOrder text i j n k [e.outline] := by
  unfold operandOf at hrun
  split at hrun
  · obtain ⟨e', m, he', hrun⟩ := run_bind_eq_some.mp hrun
    obtain ⟨hfirst, hrest⟩ := List.forall_mem_cons.mp (hps _ List.mem_cons_self).inner
    obtain ⟨hstart, hpostfixed, hend⟩ := hlaid.uncons
    obtain ⟨hinner, hprimary, hmore⟩ := hpostfixed.inside.uncons
    have he' := (hfirst.here.primary hprimary _ _ _ he').mono (Nat.le_trans hstart hinner)
      (Nat.le_refl _)
    exact (suffixedOf_inOrder _ hrest hmore he' hrun).mono (Nat.le_refl _) hend.le
  · obtain ⟨e', m, he', hrun⟩ := run_bind_eq_some.mp hrun
    obtain ⟨-, hrest⟩ := List.forall_mem_cons.mp hps
    obtain ⟨hstart, hop, hmore⟩ := hlaid.uncons
    have he' := operandOf_inOrder _ hrest hmore he'
    exact (applyPrefix_inOrder hop (Nat.le_refl _) he' hrun).mono hstart (Nat.le_refl _)
  · cases hrun
termination_by ps.length

theorem propertiesOf_inOrder (ps : List Pair) (hps : ∀ p ∈ ps, p.Everywhere (Outlined text))
    {i j : Nat} (hlaid : LaidOut text.toList i j ps) {n k : NodeId}
    {properties : List (String × Expr)}
    (hrun : (propertiesOf ps).run n = some (properties, k)) :
    InOrder text i j n k (Expr.propertyOutlines properties) := by
  unfold propertiesOf at hrun
  split at hrun
  · obtain ⟨rfl, rfl⟩ := run_pure_eq_some.mp hrun
    exact .nil hlaid.le (Nat.le_refl _)
  · simp only [run_bind_eq_some, run_pure_eq_some] at hrun
    obtain ⟨e, _, he, more, _, hmore, rfl, rfl⟩ := hrun
    obtain ⟨hfirst, hrest⟩ := List.forall_mem_cons.mp hps
    obtain ⟨hstart, hproperty, hlaid⟩ := hlaid.uncons
    obtain ⟨hvalue, hpair, hend⟩ := hproperty.inside.tail.uncons
    have he := (hfirst.inner _ (List.mem_cons_of_mem _ List.mem_cons_self)).here.expr hpair _ _ _ he
    have he := he.mono (Nat.le_trans hstart hvalue) hend.le
    exact he.append (propertiesOf_inOrder _ hrest hlaid hmore) (Nat.le_refl _)
  · cases hrun
termination_by ps.length

theorem arrowBodyOf_inOrder (ps : List Pair) (hps : ∀ p ∈ ps, p.Everywhere (Outlined text))
    {i j : Nat} (hlaid : LaidOut text.toList i j ps) {n k : NodeId} {body : Block ⊕ Expr}
    (hrun : (arrowBodyOf ps).run n = some (body, k)) :
    InOrder text i j n k [body.elim Block.outline Expr.outline] := by
  unfold arrowBodyOf at hrun
  split at hrun
  · cases hrun
  · obtain ⟨hfirst, hrest⟩ := List.forall_mem_cons.mp hps
    obtain ⟨hstart, hpair, hmore⟩ := hlaid.uncons
    split at hrun
    · simp only [run_bind_eq_some, run_pure_eq_some] at hrun
      obtain ⟨block, _, hblock, rfl, rfl⟩ := hrun
      exact (hfirst.here.block hpair _ _ _ hblock).mono hstart hmore.le
    · split at hrun
      · simp only [run_bind_eq_some, run_pure_eq_some] at hrun
        obtain ⟨e, _, he, rfl, rfl⟩ := hrun
        exact (hfirst.here.expr hpair _ _ _ he).mono hstart hmore.le
      · exact arrowBodyOf_inOrder _ hrest hlaid.tail hrun
termination_by ps.length

theorem bodyOf_inOrder (ps : List Pair) (hps : ∀ p ∈ ps, p.Everywhere (Outlined text))
    {i j : Nat} (hlaid : LaidOut text.toList i j ps) {n k : NodeId} {b : Block}
    (hrun : (bodyOf ps).run n = some (b, k)) : InOrder text i j n k [b.outline] := by
  unfold bodyOf at hrun
  split at hrun
  · cases hrun
  · obtain ⟨hfirst, hrest⟩ := List.forall_mem_cons.mp hps
    obtain ⟨hstart, hpair, hmore⟩ := hlaid.uncons
    split at hrun
    · exact (hfirst.here.block hpair _ _ _ hrun).mono hstart hmore.le
    · exact bodyOf_inOrder _ hrest hlaid.tail hrun
termination_by ps.length

theorem initOf_inOrder (ps : List Pair) (hps : ∀ p ∈ ps, p.Everywhere (Outlined text))
    {i j : Nat} (hlaid : LaidOut text.toList i j ps) {n k : NodeId} {init : Option Expr}
    (hrun : (initOf ps).run n = some (init, k)) :
    InOrder text i j n k (init.elim [] fun e => [e.outline]) := by
  unfold initOf at hrun
  split at hrun
  · obtain ⟨rfl, rfl⟩ := run_pure_eq_some.mp hrun
    exact .nil hlaid.le (Nat.le_refl _)
  · obtain ⟨hfirst, hrest⟩ := List.forall_mem_cons.mp hps
    obtain ⟨hstart, hpair, hmore⟩ := hlaid.uncons
    split at hrun
    · simp only [run_bind_eq_some, run_pure_eq_some] at hrun
      obtain ⟨e, _, he, rfl, rfl⟩ := hrun
      exact (hfirst.here.expr hpair _ _ _ he).mono hstart hmore.le
    · exact initOf_inOrder _ hrest hlaid.tail hrun
termination_by ps.length

theorem membersOf_inOrder (ps : List Pair) (hps : ∀ p ∈ ps, p.Everywhere (Outlined text))
    {i j : Nat} (hlaid : LaidOut text.toList i j ps) {n k : NodeId} {ms : List Member}
    (hrun : (membersOf ps).run n = some (ms, k)) :
    InOrder text i j n k (Member.outlines ms) := by
  unfold membersOf at hrun
  split at hrun
  · obtain ⟨rfl, rfl⟩ := run_pure_eq_some.mp hrun
    exact .nil hlaid.le (Nat.le_refl _)
  · simp only [run_bind_eq_some, run_pure_eq_some, run_stampFrom_eq_some,
      run_skipId_eq_some] at hrun
    obtain ⟨_, _, rfl, body, _, hbody, _, _, ⟨rfl, rfl⟩, more, _, hmore, rfl, rfl⟩ := hrun
    obtain ⟨hfirst, hrest⟩ := List.forall_mem_cons.mp hps
    obtain ⟨hstart, hpair, hlaid⟩ := hlaid.uncons
    have hbody := (bodyOf_inOrder _ hfirst.inner hpair.inside hbody).skip
    have hmethod := (hpair.node .member hbody (Nat.le_refl _) (Nat.le_refl _)).mono hstart (Nat.le_refl _)
    exact hmethod.append (membersOf_inOrder _ hrest hlaid hmore) (Nat.le_refl _)
  · simp only [run_bind_eq_some, run_pure_eq_some, run_stampFrom_eq_some] at hrun
    obtain ⟨init, _, hinit, _, _, ⟨rfl, rfl⟩, more, _, hmore, rfl, rfl⟩ := hrun
    obtain ⟨hfirst, hrest⟩ := List.forall_mem_cons.mp hps
    obtain ⟨hstart, hpair, hlaid⟩ := hlaid.uncons
    have hinit := initOf_inOrder _ hfirst.inner hpair.inside hinit
    have hfield := (hpair.node .member hinit (Nat.le_refl _) (Nat.le_refl _)).mono hstart (Nat.le_refl _)
    have hall := hfield.append (membersOf_inOrder _ hrest hlaid hmore) (Nat.le_refl _)
    cases init with
    | none => exact hall
    | some e => exact hall
  · exact membersOf_inOrder _ (fun p hp => hps p (List.mem_cons_of_mem _ hp)) hlaid.tail hrun
termination_by ps.length

theorem stmtsOf_inOrder (ps : List Pair) (hps : ∀ p ∈ ps, p.Everywhere (Outlined text))
    {i j : Nat} (hlaid : LaidOut text.toList i j ps) {n k : NodeId} {ss : List Stmt}
    (hrun : (stmtsOf ps).run n = some (ss, k)) : InOrder text i j n k (Stmt.outlines ss) := by
  unfold stmtsOf at hrun
  split at hrun
  · obtain ⟨rfl, rfl⟩ := run_pure_eq_some.mp hrun
    exact .nil hlaid.le (Nat.le_refl _)
  · simp only [run_bind_eq_some, run_pure_eq_some] at hrun
    obtain ⟨s, _, hs, ss, _, hss, rfl, rfl⟩ := hrun
    obtain ⟨hfirst, hrest⟩ := List.forall_mem_cons.mp hps
    obtain ⟨hstart, hpair, hmore⟩ := hlaid.uncons
    have hs := (hfirst.here.stmt hpair _ _ _ hs).mono hstart (Nat.le_refl _)
    exact hs.append (stmtsOf_inOrder _ hrest hmore hss) (Nat.le_refl _)
termination_by ps.length

end Lists

section Pairs

variable {text : String} {p : Pair}

theorem exprOf_lies (hp : ∀ q ∈ p.inner, q.Everywhere (Outlined text)) :
    Lies text p (exprOf p) Expr.outline := by
  intro hlaid n e k hrun
  unfold exprOf at hrun
  split at hrun
  · obtain ⟨hstart, hpair, hend⟩ := hlaid.inside.uncons
    exact ((hp _ List.mem_cons_self).here.expr hpair _ _ _ hrun).mono hstart hend.le
  · simp only [run_bind_eq_some, run_pure_eq_some, run_stampFrom_eq_some] at hrun
    obtain ⟨target, _, htarget, value, _, hvalue, _, _, ⟨rfl, rfl⟩, rfl, rfl⟩ := hrun
    obtain ⟨hstart, hfirst, hmore⟩ := hlaid.inside.uncons
    obtain ⟨hbetween, hsecond, hend⟩ := hmore.uncons
    have htarget := (hp _ (by simp [Pair.inner])).here.expr hfirst _ _ _ htarget
    have hvalue := (hp _ (by simp [Pair.inner])).here.expr hsecond _ _ _ hvalue
    exact hlaid.node .expression (htarget.append hvalue hbetween) hstart hend.le
  · obtain ⟨first, m, hfirst, hrun⟩ := run_bind_eq_some.mp hrun
    obtain ⟨hoperand, hrest⟩ := List.forall_mem_cons.mp hp
    obtain ⟨hstart, hpair, hmore⟩ := hlaid.inside.uncons
    have hfirst := (hoperand.here.prefixed hpair _ _ _ hfirst).mono hstart (Nat.le_refl _)
    exact infixOf_inOrder _ hrest hmore [] hfirst hrun
  · cases hrun

theorem prefixedOf_lies (hp : ∀ q ∈ p.inner, q.Everywhere (Outlined text)) :
    Lies text p (prefixedOf p) Expr.outline := by
  intro hlaid n e k hrun
  unfold prefixedOf at hrun
  split at hrun
  · exact operandOf_inOrder _ hp hlaid.inside hrun
  · cases hrun

theorem primaryOf_lies (hp : ∀ q ∈ p.inner, q.Everywhere (Outlined text)) :
    Lies text p (primaryOf p) Expr.outline := by
  intro hlaid n e k hrun
  unfold primaryOf at hrun
  split at hrun
  iterate 7
    · simp only [run_bind_eq_some, run_pure_eq_some, run_stampFrom_eq_some] at hrun
      obtain ⟨_, _, ⟨rfl, rfl⟩, rfl, rfl⟩ := hrun
      exact hlaid.leaf .expression n
  · simp only [run_bind_eq_some, run_pure_eq_some, run_stampFrom_eq_some] at hrun
    obtain ⟨items, _, hitems, _, _, ⟨rfl, rfl⟩, rfl, rfl⟩ := hrun
    exact hlaid.node .expression (exprsOf_inOrder _ hp hlaid.inside hitems) (Nat.le_refl _) (Nat.le_refl _)
  · simp only [run_bind_eq_some, run_pure_eq_some, run_stampFrom_eq_some] at hrun
    obtain ⟨properties, _, hproperties, _, _, ⟨rfl, rfl⟩, rfl, rfl⟩ := hrun
    have hproperties := propertiesOf_inOrder _ hp hlaid.inside hproperties
    exact hlaid.node .expression hproperties (Nat.le_refl _) (Nat.le_refl _)
  · simp only [run_bind_eq_some, run_pure_eq_some, run_stampFrom_eq_some] at hrun
    obtain ⟨inner, _, hinner, _, _, ⟨rfl, rfl⟩, rfl, rfl⟩ := hrun
    obtain ⟨hstart, hpair, hend⟩ := hlaid.inside.uncons
    have hinner := (hp _ List.mem_cons_self).here.expr hpair _ _ _ hinner
    exact hlaid.node .expression hinner hstart hend.le
  · simp only [run_bind_eq_some, run_pure_eq_some, run_stampFrom_eq_some] at hrun
    obtain ⟨args, _, hargs, _, _, ⟨rfl, rfl⟩, rfl, rfl⟩ := hrun
    obtain ⟨hstart, hpair, hend⟩ := hlaid.inside.tail.uncons
    have hpairs := hp _ (List.mem_cons_of_mem _ List.mem_cons_self)
    have hargs := exprsOf_inOrder _ hpairs.inner hpair.inside hargs
    exact hlaid.node .expression hargs hstart hend.le
  · simp only [run_bind_eq_some, run_pure_eq_some, run_stampFrom_eq_some] at hrun
    obtain ⟨_, _, ⟨rfl, rfl⟩, rfl, rfl⟩ := hrun
    exact hlaid.leaf .expression n
  · simp only [run_bind_eq_some, run_pure_eq_some, run_stampFrom_eq_some,
      run_skipId_eq_some] at hrun
    obtain ⟨_, _, rfl, body, _, hbody, _, _, ⟨rfl, rfl⟩, rfl, rfl⟩ := hrun
    have hbody := (arrowBodyOf_inOrder _ hp hlaid.inside hbody).skip
    have hnode := hlaid.node .expression hbody (Nat.le_refl _) (Nat.le_refl _)
    cases body with
    | inl block => exact hnode
    | inr e => exact hnode
  · simp only [run_bind_eq_some, run_pure_eq_some, run_stampFrom_eq_some] at hrun
    obtain ⟨body, _, hbody, _, _, ⟨rfl, rfl⟩, rfl, rfl⟩ := hrun
    exact hlaid.node .expression (bodyOf_inOrder _ hp hlaid.inside hbody) (Nat.le_refl _) (Nat.le_refl _)
  · cases hrun

theorem blockOf_lies (hp : ∀ q ∈ p.inner, q.Everywhere (Outlined text)) :
    Lies text p (blockOf p) Block.outline := by
  intro hlaid n b k hrun
  unfold blockOf at hrun
  split at hrun
  · simp only [run_bind_eq_some, run_pure_eq_some, run_stampFrom_eq_some] at hrun
    obtain ⟨stmts, _, hstmts, _, _, ⟨rfl, rfl⟩, rfl, rfl⟩ := hrun
    exact hlaid.block (stmtsOf_inOrder _ hp hlaid.inside hstmts)
  · cases hrun

theorem stmtOf_lies (hp : ∀ q ∈ p.inner, q.Everywhere (Outlined text)) :
    Lies text p (stmtOf p) Stmt.outline := by
  intro hlaid n s k hrun
  unfold stmtOf at hrun
  split at hrun <;>
    simp only [run_bind_eq_some, run_pure_eq_some, run_stampFrom_eq_some,
      run_failure_eq_some] at hrun
  · obtain ⟨_, _, ⟨rfl, rfl⟩, rfl, rfl⟩ := hrun
    exact hlaid.leaf .statement n
  · obtain ⟨body, _, hbody, _, _, ⟨rfl, rfl⟩, rfl, rfl⟩ := hrun
    exact hlaid.node .statement (bodyOf_inOrder _ hp hlaid.inside hbody) (Nat.le_refl _) (Nat.le_refl _)
  · obtain ⟨members, _, hmembers, _, _, ⟨rfl, rfl⟩, rfl, rfl⟩ := hrun
    have hmembers := membersOf_inOrder _ hp hlaid.inside hmembers
    exact hlaid.node .statement hmembers (Nat.le_refl _) (Nat.le_refl _)
  iterate 2
    · obtain ⟨init, _, hinit, _, _, ⟨rfl, rfl⟩, rfl, rfl⟩ := hrun
      have hinit := initOf_inOrder _ hp hlaid.inside hinit
      have hnode := hlaid.node .statement hinit (Nat.le_refl _) (Nat.le_refl _)
      cases init with
      | none => exact hnode
      | some e => exact hnode
  · obtain ⟨c, _, hc, t, _, ht, _, _, ⟨rfl, rfl⟩, rfl, rfl⟩ := hrun
    obtain ⟨hstart, hfirst, hmore⟩ := hlaid.inside.tail.uncons
    obtain ⟨hbetween, hsecond, hend⟩ := hmore.uncons
    have hc := (hp _ (by simp [Pair.inner])).here.expr hfirst _ _ _ hc
    have ht := (hp _ (by simp [Pair.inner])).here.block hsecond _ _ _ ht
    exact hlaid.node .statement (hc.append ht hbetween) hstart hend.le
  · obtain ⟨c, _, hc, t, _, ht, s, _, hs, _, _, ⟨rfl, rfl⟩, rfl, rfl⟩ := hrun
    obtain ⟨hstart, hfirst, hmore⟩ := hlaid.inside.tail.uncons
    obtain ⟨hbetween, hsecond, hmore⟩ := hmore.uncons
    obtain ⟨hlast, hthird, hend⟩ := hmore.tail.uncons
    have hc := (hp _ (by simp [Pair.inner])).here.expr hfirst _ _ _ hc
    have ht := (hp _ (by simp [Pair.inner])).here.block hsecond _ _ _ ht
    have hs := (hp _ (by simp [Pair.inner])).here.stmt hthird _ _ _ hs
    exact hlaid.node .statement ((hc.append ht hbetween).append hs hlast) hstart hend.le
  · obtain ⟨c, _, hc, b, _, hb, _, _, ⟨rfl, rfl⟩, rfl, rfl⟩ := hrun
    obtain ⟨hstart, hfirst, hmore⟩ := hlaid.inside.tail.uncons
    obtain ⟨hbetween, hsecond, hend⟩ := hmore.uncons
    have hc := (hp _ (by simp [Pair.inner])).here.expr hfirst _ _ _ hc
    have hb := (hp _ (by simp [Pair.inner])).here.block hsecond _ _ _ hb
    exact hlaid.node .statement (hc.append hb hbetween) hstart hend.le
  · obtain ⟨e, _, he, b, _, hb, _, _, ⟨rfl, rfl⟩, rfl, rfl⟩ := hrun
    obtain ⟨hstart, hfirst, hmore⟩ := hlaid.inside.tail.tail.tail.tail.uncons
    obtain ⟨hbetween, hsecond, hend⟩ := hmore.uncons
    have he := (hp _ (by simp [Pair.inner])).here.expr hfirst _ _ _ he
    have hb := (hp _ (by simp [Pair.inner])).here.block hsecond _ _ _ hb
    exact hlaid.node .statement (he.append hb hbetween) hstart hend.le
  · obtain ⟨b, _, hb, _, _, ⟨rfl, rfl⟩, rfl, rfl⟩ := hrun
    obtain ⟨hstart, hfirst, hend⟩ := hlaid.inside.tail.uncons
    have hb := (hp _ (by simp [Pair.inner])).here.block hfirst _ _ _ hb
    exact hlaid.node .statement hb hstart hend.le
  · obtain ⟨b, _, hb, f, _, hf, _, _, ⟨rfl, rfl⟩, rfl, rfl⟩ := hrun
    obtain ⟨hstart, hfirst, hmore⟩ := hlaid.inside.tail.uncons
    obtain ⟨hbetween, hsecond, hend⟩ := hmore.tail.uncons
    have hb := (hp _ (by simp [Pair.inner])).here.block hfirst _ _ _ hb
    have hf := (hp _ (by simp [Pair.inner])).here.block hsecond _ _ _ hf
    exact hlaid.node .statement (hb.append hf hbetween) hstart hend.le
  · obtain ⟨e, _, he, _, _, ⟨rfl, rfl⟩, rfl, rfl⟩ := hrun
    obtain ⟨hstart, hfirst, hend⟩ := hlaid.inside.tail.uncons
    have he := (hp _ (by simp [Pair.inner])).here.expr hfirst _ _ _ he
    exact hlaid.node .statement he hstart hend.le
  · obtain ⟨ss, _, hss, _, _, ⟨rfl, rfl⟩, _, _, ⟨rfl, rfl⟩, rfl, rfl⟩ := hrun
    have hss := stmtsOf_inOrder _ hp hlaid.inside hss
    have hblock := hlaid.block hss
    exact hlaid.node .statement hblock (Nat.le_refl _) (Nat.le_refl _)
  · obtain ⟨_, _, ⟨rfl, rfl⟩, rfl, rfl⟩ := hrun
    exact hlaid.leaf .statement n
  · obtain ⟨e, _, he, _, _, ⟨rfl, rfl⟩, rfl, rfl⟩ := hrun
    obtain ⟨hstart, hfirst, hend⟩ := hlaid.inside.uncons
    have he := (hp _ List.mem_cons_self).here.expr hfirst _ _ _ he
    exact hlaid.node .statement he hstart hend.le

theorem outlined (text : String) (p : Pair) : p.Everywhere (Outlined text) :=
  Pair.everywhere (fun _ hp => ⟨exprOf_lies hp, prefixedOf_lies hp, primaryOf_lies hp,
    blockOf_lies hp, stmtOf_lies hp⟩) p

end Pairs

end Grammar

open Grammar

namespace SourceFile

variable {path : SourcePath} {text : String} {n k : NodeId} {file : SourceFile}

/-- A parsed file covers its text, and its outline is in order. -/
theorem parse_inOrder (h : (SourceFile.parse path text).run n = (.ok file, k)) :
    file.span = ⟨0, text.utf8ByteSize⟩ ∧ InOrder text 0 text.utf8ByteSize n k [file.outline] := by
  obtain ⟨p, hp, hfile⟩ := SourceFile.run_parse_eq_ok.mp h
  obtain ⟨hlaid, hspan⟩ := laid_of_recognize hp
  obtain ⟨_, i, j, source, ps⟩ := p
  have hsize : byteLength text.toList = text.utf8ByteSize := by
    rw [← utf8ByteSize_ofList, String.ofList_toList]
  obtain ⟨rfl, rfl⟩ : i = 0 ∧ j = text.utf8ByteSize := by
    rw [hsize] at hspan
    exact Span.mk.inj hspan
  simp only [fileOf, run_bind_eq_some, run_pure_eq_some, run_stampFrom_eq_some] at hfile
  obtain ⟨stmts, _, hstmts, _, _, ⟨rfl, rfl⟩, rfl, rfl⟩ := hfile
  have hlaidOut := hlaid.inside.filter (·.rule ≠ .endOfInput)
  have hstmts := stmtsOf_inOrder _ (fun q _ => outlined text q) hlaidOut hstmts
  exact ⟨rfl, hlaid.node .file hstmts (Nat.le_refl _) (Nat.le_refl _)⟩

/-- The spans of a parsed file: it covers the whole text, and each of its nodes begins and ends between
characters of the text, with the nodes right inside it one after the other within its span. -/
theorem parse_placed (h : (SourceFile.parse path text).run n = (.ok file, k)) :
    file.span = ⟨0, text.utf8ByteSize⟩ ∧ ∀ o ∈ file.outline.nodes, o.Placed text := by
  obtain ⟨hspan, hfile⟩ := parse_inOrder h
  refine ⟨hspan, fun o ho => hfile.placed o ?_⟩
  rw [Outline.nodesAll_singleton]
  exact ho

/-- Operators in front of, between and behind operands, with a comment and characters of several
bytes. -/
def operatorsInText : String := "-f(\"ü\") * 2 /* ß */ ** !a.b;"

theorem parse_placed_operators : ∃ file k,
    (SourceFile.parse ⟨"main.kn"⟩ operatorsInText).run 0 = (.ok file, k) ∧
      file.span = ⟨0, operatorsInText.utf8ByteSize⟩ ∧
        ∀ o ∈ file.outline.nodes, o.Placed operatorsInText := by
  have hread : (match (SourceFile.parse ⟨"main.kn"⟩ operatorsInText).run 0 with
    | (.ok _, _) => true
    | (.error _, _) => false) = true := by decide +kernel
  generalize hparse : (SourceFile.parse ⟨"main.kn"⟩ operatorsInText).run 0 = out at hread
  obtain ⟨_ | file, k⟩ := out
  · cases hread
  · exact ⟨file, k, rfl, parse_placed hparse⟩

end SourceFile

end MacroEngine
