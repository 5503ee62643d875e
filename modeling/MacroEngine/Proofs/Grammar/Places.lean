import MacroEngine.Proofs.Grammar.Tokens

/-!
# Where pairs lie in the text

A match reads on from where it starts and skips nothing but gaps, so the offsets it goes by are
counts of the bytes before them. The pairs that it yields cover parts of the text, one after the
other, and the pairs inside a pair lie in the part that the pair covers.
-/

namespace MacroEngine.Grammar

open Text (byteLength)

/-- The second place comes after the first one, behind some characters that are counted. -/
def Cursor.Before (c d : Cursor) : Prop :=
  ∃ between, c.rest = between ++ d.rest ∧ d.offset = c.offset + byteLength between

namespace Cursor.Before

variable {c d e : Cursor}

theorem refl (c : Cursor) : c.Before c := ⟨[], rfl, rfl⟩

theorem trans (h : c.Before d) (h' : d.Before e) : c.Before e := by
  obtain ⟨first, hfirst, hd⟩ := h
  obtain ⟨second, hsecond, he⟩ := h'
  refine ⟨first ++ second, ?_, ?_⟩
  · rw [hfirst, hsecond, List.append_assoc]
  · rw [he, hd, Text.byteLength_append, Nat.add_assoc]

theorem offset_le (h : c.Before d) : c.offset ≤ d.offset := by
  obtain ⟨_, -, hd⟩ := h
  omega

/-- The place behind one character. -/
theorem char (i : Nat) (x : Char) (xs : List Char) : Before ⟨i, x :: xs⟩ ⟨i + x.utf8Size, xs⟩ :=
  ⟨[x], rfl, by simp [byteLength]⟩

theorem cons {i : Nat} {x : Char} {xs : List Char} (h : Before ⟨i + x.utf8Size, xs⟩ d) :
    Before ⟨i, x :: xs⟩ d :=
  (char i x xs).trans h

/-- The characters around comments take up a byte each. -/
theorem cons_cons {i : Nat} {x y : Char} {xs : List Char} (hx : x.utf8Size = 1)
    (hy : y.utf8Size = 1) (h : Before ⟨i + 2, xs⟩ d) : Before ⟨i, x :: y :: xs⟩ d := by
  refine cons (cons ?_)
  rw [hx, hy]
  exact h

end Cursor.Before

section Gaps

open Cursor.Before

theorem afterLit_before : ∀ (t : List Char) (c d : Cursor), afterLit t c = some d → c.Before d
  | [], c, d, h => by
    obtain rfl := Option.some.inj h
    exact refl c
  | _ :: _, ⟨_, []⟩, _, h => by simp [afterLit] at h
  | x :: xs, ⟨i, y :: ys⟩, d, h => by
    unfold afterLit at h
    split at h
    · exact cons (afterLit_before xs _ d h)
    · simp at h

mutual

theorem skipGap_before (i : Nat) : ∀ cs : List Char, Cursor.Before ⟨i, cs⟩ (skipGap i cs)
  | [] => by
    rw [skipGap]
    exact refl _
  | c :: cs => by
    unfold skipGap
    split
    · rename_i heq
      exact absurd heq (by simp)
    · rename_i rest heq
      obtain ⟨rfl, rfl⟩ := List.cons.inj heq
      exact cons_cons rfl rfl (skipLine_before (i + 2) rest)
    · rename_i rest heq
      obtain ⟨rfl, rfl⟩ := List.cons.inj heq
      cases hc : skipComment (i + 2) rest with
      | none => exact refl _
      | some d => exact cons_cons rfl rfl (skipComment_before (i + 2) rest d hc)
    · rename_i rest _ _ heq
      obtain ⟨rfl, rfl⟩ := List.cons.inj heq
      split
      · rename_i hblank
        have hsize : c.utf8Size = 1 := by
          simp only [Bool.or_eq_true, decide_eq_true_eq] at hblank
          rcases hblank with ((rfl | rfl) | rfl) | rfl <;> rfl
        exact cons (hsize.symm ▸ skipGap_before (i + 1) cs)
      · exact refl _

theorem skipLine_before (i : Nat) : ∀ cs : List Char, Cursor.Before ⟨i, cs⟩ (skipLine i cs)
  | [] => by
    rw [skipLine]
    exact refl _
  | c :: cs => by
    unfold skipLine
    split
    · rename_i hline
      subst hline
      exact cons (skipGap_before (i + 1) cs)
    · exact cons (skipLine_before (i + c.utf8Size) cs)

theorem skipComment_before (i : Nat) : ∀ (cs : List Char) (d : Cursor),
    skipComment i cs = some d → Cursor.Before ⟨i, cs⟩ d
  | [], _, h => by simp [skipComment] at h
  | c :: cs, d, h => by
    unfold skipComment at h
    split at h
    · rename_i heq
      exact absurd heq (by simp)
    · rename_i rest heq
      obtain ⟨rfl, rfl⟩ := List.cons.inj heq
      obtain rfl := Option.some.inj h
      exact cons_cons rfl rfl (skipGap_before (i + 2) rest)
    · rename_i heq
      obtain ⟨rfl, rfl⟩ := List.cons.inj heq
      exact cons (skipComment_before _ _ d h)

end

theorem gap_before (s : Style) (c : Cursor) : c.Before (s.gap c) := by
  unfold Style.gap
  split
  · exact skipGap_before _ _
  · exact refl c

end Gaps

/-- A match reads on. -/
theorem Matches.before {s : Style} {e : Peg} {c d : Cursor} {ps : List Pair}
    (h : Matches s e c (some (d, ps))) : c.Before d := by
  generalize hr : some (d, ps) = r at h
  induction h generalizing d ps with
  | lit =>
    obtain ⟨d', hd, heq⟩ := Option.map_eq_some_iff.mp hr.symm
    cases heq
    exact afterLit_before _ _ _ hd
  | charIf =>
    cases hr
    exact .char _ _ _
  | atEnd | optNot | starNot | againNot | not =>
    cases hr
    exact .refl _
  | seq _ _ ih ih' =>
    cases hr
    exact (ih rfl).trans ((gap_before _ _).trans (ih' rfl))
  | altFirst _ ih | opt _ ih => exact ih hr
  | altSecond _ _ _ ih => exact ih hr
  | star _ _ ih ih' =>
    cases hr
    exact (ih rfl).trans (ih' rfl)
  | again _ _ ih ih' =>
    cases hr
    exact (gap_before _ _).trans ((ih rfl).trans (ih' rfl))
  | rule _ ih =>
    cases hr
    exact ih rfl
  | charIfNot | charIfEnd | atEndNot | seqFirst | seqSecond | notNot | ruleNot => cases hr

mutual

/-- A pair covers the part of the text that its rule matched, and the pairs inside it lie there one
after the other. -/
inductive Laid (input : List Char) : Pair → Prop where
  | mk {s : Style} {r : Rule} {i j : Nat} {source rest : List Char} {ps : List Pair}
    (start : Cursor.Before ⟨0, input⟩ ⟨i, source⟩)
    (body : Matches s (host r).2 ⟨i, source⟩ (some (⟨j, rest⟩, ps)))
    (inside : LaidOut input i j ps) : Laid input (.mk r i j source ps)

/-- Pairs lie one after the other between two offsets. -/
inductive LaidOut (input : List Char) : Nat → Nat → List Pair → Prop where
  | nil {i j : Nat} (h : i ≤ j) : LaidOut input i j []
  | cons {i j : Nat} {p : Pair} {ps : List Pair} (start : i ≤ p.start) (first : Laid input p)
    (more : LaidOut input p.stop j ps) : LaidOut input i j (p :: ps)

end

section Laid

variable {input : List Char} {i j k : Nat} {p : Pair} {ps qs : List Pair}

theorem Laid.start_le_stop (h : Laid input p) : p.start ≤ p.stop := by
  cases h with
  | mk _ body => exact body.before.offset_le

theorem LaidOut.mono_left (h : LaidOut input j k ps) (hij : i ≤ j) : LaidOut input i k ps := by
  cases h with
  | nil h => exact .nil (Nat.le_trans hij h)
  | cons start first more => exact .cons (Nat.le_trans hij start) first more

theorem LaidOut.le (h : LaidOut input i j ps) : i ≤ j := by
  induction ps generalizing i with
  | nil =>
    cases h with
    | nil h => exact h
  | cons p ps ih =>
    cases h with
    | cons start first more =>
      have hle := first.start_le_stop
      have hmore := ih more
      omega

theorem LaidOut.append (h : LaidOut input i j ps) (h' : LaidOut input j k qs) :
    LaidOut input i k (ps ++ qs) := by
  induction ps generalizing i with
  | nil => exact h'.mono_left h.le
  | cons p ps ih =>
    cases h with
    | cons start first more => exact .cons start first (ih more)

/-- Some of the pairs lie one after the other as well. -/
theorem LaidOut.filter (keeps : Pair → Bool) (h : LaidOut input i j ps) :
    LaidOut input i j (ps.filter keeps) := by
  induction ps generalizing i with
  | nil => exact h
  | cons p ps ih =>
    cases h with
    | cons start first more =>
      rw [List.filter_cons]
      split
      · exact .cons start first (ih more)
      · exact (ih more).mono_left (Nat.le_trans start first.start_le_stop)

end Laid

/-- What a match yields lies one after the other between its ends. -/
theorem Matches.laidOut {input : List Char} {s : Style} {e : Peg} {c d : Cursor} {ps : List Pair}
    (h : Matches s e c (some (d, ps))) (hc : Cursor.Before ⟨0, input⟩ c) :
    LaidOut input c.offset d.offset ps := by
  generalize hr : some (d, ps) = r at h
  induction h generalizing d ps with
  | lit =>
    obtain ⟨d', hd, heq⟩ := Option.map_eq_some_iff.mp hr.symm
    cases heq
    exact .nil (afterLit_before _ _ _ hd).offset_le
  | charIf =>
    cases hr
    exact .nil (Nat.le_add_right _ _)
  | atEnd | optNot | starNot | againNot | not =>
    cases hr
    exact .nil (Nat.le_refl _)
  | @seq s _ _ _ d₁ _ _ _ first _ ih ih' =>
    cases hr
    have hgap := gap_before s d₁
    have hsecond := ih' (hc.trans (first.before.trans hgap)) rfl
    exact (ih hc rfl).append (hsecond.mono_left hgap.offset_le)
  | altFirst _ ih | opt _ ih => exact ih hc hr
  | altSecond _ _ _ ih => exact ih hc hr
  | star first _ ih ih' =>
    cases hr
    exact (ih hc rfl).append (ih' (hc.trans first.before) rfl)
  | @again s _ c _ _ _ _ first _ ih ih' =>
    cases hr
    have hgap := gap_before s c
    have hfirst := (ih (hc.trans hgap) rfl).mono_left hgap.offset_le
    exact hfirst.append (ih' (hc.trans (hgap.trans first.before)) rfl)
  | @rule s r c d ps body ih =>
    cases hr
    unfold traceOf
    split
    · exact .nil body.before.offset_le
    · exact .cons (Nat.le_refl _) (.mk hc body (ih hc rfl)) (.nil (Nat.le_refl _))
  | charIfNot | charIfEnd | atEndNot | seqFirst | seqSecond | notNot | ruleNot => cases hr

theorem Matches.atEnd_inv {s : Style} {c d : Cursor} {ps : List Pair}
    (h : Matches s .atEnd c (some (d, ps))) : d.rest = [] := by
  generalize hr : some (d, ps) = r at h
  cases h with
  | atEnd =>
    cases hr
    rfl
  | atEndNot => cases hr

/-- The tree of rules of a text covers the whole of it. -/
theorem laid_of_recognize {input : List Char} {p : Pair} (h : recognize input = .ok p) :
    Laid input p ∧ p.span = ⟨0, byteLength input⟩ := by
  obtain ⟨d, hmatch⟩ := (recognize_eq_ok_iff input p).mp h
  have hlaid := hmatch.laidOut (.refl _)
  have hbefore := hmatch.before
  cases hmatch with
  | rule body =>
    cases hlaid with
    | cons _ first _ =>
      refine ⟨first, ?_⟩
      have hend : d.rest = [] := by
        cases body with
        | seq _ last =>
          cases last with
          | rule last => exact Matches.atEnd_inv last
      obtain ⟨between, hinput, hd⟩ := hbefore
      rw [hend, List.append_nil] at hinput
      rw [← show input = between from hinput] at hd
      simpa [Pair.span, Pair.start, Pair.stop] using hd

end MacroEngine.Grammar
