import MacroEngine.Grammar.Host

/-!
# Matching as a relation

`Matches` says what an expression of the host grammar matches at a place, without a bound on the
depth and without the attempts that messages are made of. It is single-valued. The matcher agrees
with it as soon as its bound is large enough, and `depthBound` is: between two characters of the
text the depth grows at most by the `height` of an expression, since no rule comes back to itself
before it has read a character.
-/

namespace MacroEngine.Grammar

def Style.within (outer : Style) : Style → Style
  | .loose => outer
  | inner => inner

/-- Whether a rule of the second style leaves no trace where the first one is in force. -/
def Style.hides (outer inner : Style) : Bool := outer = .atomic && inner ≠ .compound

def Style.gap (style : Style) (c : Cursor) : Cursor :=
  if style = .loose then skipGap c.offset c.rest else c

def traceOf (style : Style) (r : Rule) (c d : Cursor) (ps : List Pair) : List Pair :=
  if style.hides (host r).1 then [] else [.mk r c.offset d.offset c.rest ps]

/-- What an expression matches at a place. -/
inductive Matches : Style → Peg → Cursor → Match → Prop where
  | lit {s text c} : Matches s (.lit text) c ((afterLit text c).map fun c => (c, []))
  | charIf {s accepts i x xs} (h : accepts x = true) :
    Matches s (.charIf accepts) ⟨i, x :: xs⟩ (some (⟨i + x.utf8Size, xs⟩, []))
  | charIfNot {s accepts i x xs} (h : accepts x = false) :
    Matches s (.charIf accepts) ⟨i, x :: xs⟩ none
  | charIfEnd {s accepts i} : Matches s (.charIf accepts) ⟨i, []⟩ none
  | atEnd {s i} : Matches s .atEnd ⟨i, []⟩ (some (⟨i, []⟩, []))
  | atEndNot {s i x xs} : Matches s .atEnd ⟨i, x :: xs⟩ none
  | seq {s a b c d ps d' qs} (first : Matches s a c (some (d, ps)))
      (second : Matches s b (s.gap d) (some (d', qs))) :
    Matches s (.seq a b) c (some (d', ps ++ qs))
  | seqFirst {s a b c} (first : Matches s a c none) : Matches s (.seq a b) c none
  | seqSecond {s a b c d ps} (first : Matches s a c (some (d, ps)))
      (second : Matches s b (s.gap d) none) : Matches s (.seq a b) c none
  | altFirst {s a b c r} (first : Matches s a c (some r)) : Matches s (.alt a b) c (some r)
  | altSecond {s a b c r} (first : Matches s a c none) (second : Matches s b c r) :
    Matches s (.alt a b) c r
  | opt {s e c r} (h : Matches s e c (some r)) : Matches s (.opt e) c (some r)
  | optNot {s e c} (h : Matches s e c none) : Matches s (.opt e) c (some (c, []))
  | star {s e c d ps d' qs} (first : Matches s e c (some (d, ps)))
      (more : Matches s (.again e) d (some (d', qs))) :
    Matches s (.star e) c (some (d', ps ++ qs))
  | starNot {s e c} (h : Matches s e c none) : Matches s (.star e) c (some (c, []))
  | again {s e c d ps d' qs} (first : Matches s e (s.gap c) (some (d, ps)))
      (more : Matches s (.again e) d (some (d', qs))) :
    Matches s (.again e) c (some (d', ps ++ qs))
  | againNot {s e c} (h : Matches s e (s.gap c) none) : Matches s (.again e) c (some (c, []))
  | not {s e c} (h : Matches s e c none) : Matches s (.not e) c (some (c, []))
  | notNot {s e c r} (h : Matches s e c (some r)) : Matches s (.not e) c none
  | rule {s r c d ps} (h : Matches (s.within (host r).1) (host r).2 c (some (d, ps))) :
    Matches s (.rule r) c (some (d, traceOf s r c d ps))
  | ruleNot {s r c} (h : Matches (s.within (host r).1) (host r).2 c none) :
    Matches s (.rule r) c none

/-- An expression matches one thing at a place, or nothing. -/
theorem Matches.unique {s : Style} {e : Peg} {c : Cursor} {r r' : Match} (h : Matches s e c r)
    (h' : Matches s e c r') : r = r' := by
  induction h generalizing r' with
  | lit => cases h'; rfl
  | charIf hx | charIfNot hx => cases h' <;> simp_all
  | charIfEnd | atEnd | atEndNot => cases h'; rfl
  | seq _ _ ih ih' | seqSecond _ _ ih ih' =>
    cases h' with
    | seq first second =>
      obtain ⟨rfl, rfl⟩ := Prod.mk.inj (Option.some.inj (ih first))
      have := ih' second
      simp_all
    | seqFirst first => exact absurd (ih first) (by simp)
    | seqSecond first second =>
      obtain ⟨rfl, rfl⟩ := Prod.mk.inj (Option.some.inj (ih first))
      have := ih' second
      simp_all
  | seqFirst _ ih =>
    cases h' with
    | seqFirst => rfl
    | seq first | seqSecond first => exact absurd (ih first) (by simp)
  | altFirst _ ih =>
    cases h' with
    | altFirst first => exact ih first
    | altSecond first => exact absurd (ih first) (by simp)
  | altSecond _ _ ih ih' =>
    cases h' with
    | altFirst first => exact absurd (ih first) (by simp)
    | altSecond _ second => exact ih' second
  | opt _ ih =>
    cases h' with
    | opt h => exact ih h
    | optNot h => exact absurd (ih h) (by simp)
  | optNot _ ih =>
    cases h' with
    | opt h => exact absurd (ih h) (by simp)
    | optNot => rfl
  | star _ _ ih ih' =>
    cases h' with
    | star first more =>
      obtain ⟨rfl, rfl⟩ := Prod.mk.inj (Option.some.inj (ih first))
      obtain ⟨rfl, rfl⟩ := Prod.mk.inj (Option.some.inj (ih' more))
      rfl
    | starNot h => exact absurd (ih h) (by simp)
  | again _ _ ih ih' =>
    cases h' with
    | again first more =>
      obtain ⟨rfl, rfl⟩ := Prod.mk.inj (Option.some.inj (ih first))
      obtain ⟨rfl, rfl⟩ := Prod.mk.inj (Option.some.inj (ih' more))
      rfl
    | againNot h => exact absurd (ih h) (by simp)
  | starNot _ ih =>
    cases h' with
    | starNot => rfl
    | star first => exact absurd (ih first) (by simp)
  | againNot _ ih =>
    cases h' with
    | againNot => rfl
    | again first => exact absurd (ih first) (by simp)
  | not _ ih =>
    cases h' with
    | not => rfl
    | notNot h => exact absurd (ih h) (by simp)
  | notNot _ ih =>
    cases h' with
    | not h => exact absurd (ih h) (by simp)
    | notNot => rfl
  | rule _ ih =>
    cases h' with
    | rule h =>
      obtain ⟨rfl, rfl⟩ := Prod.mk.inj (Option.some.inj (ih h))
      rfl
    | ruleNot h => exact absurd (ih h) (by simp)
  | ruleNot _ ih =>
    cases h' with
    | rule h => exact absurd (ih h) (by simp)
    | ruleNot => rfl

section Measure

def ruleNullable : Rule → Bool
  | .endOfInput | .program | .word _ | .macroModifier | .doubleQuoted | .singleQuoted
  | .templateRaw => true
  | _ => false

def nullable : Peg → Bool
  | .rule r => ruleNullable r
  | .lit text => text.isEmpty
  | .charIf _ => false
  | .seq a b => nullable a && nullable b
  | .alt a b => nullable a || nullable b
  | .atEnd | .opt _ | .star _ | .again _ | .not _ => true

/-- A bound on the depth of a match of a rule up to the first character that it reads. -/
def rank : Rule → Nat
  | .program => 90
  | .returnStmt | .throwStmt | .exprStmt => 72
  | .expression => 68
  | .binary => 66
  | .prefixed => 64
  | .postfixed => 62
  | .functionDecl | .classDecl | .derivesClause | .arrowFn | .functionExpr | .macroCall
  | .taggedTemplate => 48
  | .arrowParams => 40
  | .identifier => 36
  | .keyword => 31
  | .macroModifier | .importStmt | .methodMember | .fieldMember | .variableStmt | .ifStmt
  | .whileStmt | .forOfStmt | .deferStmt | .tryStmt | .prefixOp | .property => 20
  | _ => 10

def height : Peg → Nat
  | .rule r => rank r
  | .lit _ | .charIf _ | .atEnd => 1
  | .seq a b => 1 + if nullable a then max (height a) (height b) else height a
  | .alt a b => 1 + max (height a) (height b)
  | .opt e | .star e | .again e | .not e => 1 + height e

/-- Heights stay below the depth that each character allows, and no repetition goes round without
reading a character. -/
def bounded : Peg → Bool
  | .seq a b => bounded a && bounded b && height b < 1000
  | .alt a b => bounded a && bounded b
  | .star e | .again e => bounded e && !nullable e && height e < 999
  | .opt e | .not e => bounded e
  | _ => true

theorem nullable_body (r : Rule) (h : nullable (host r).2 = true) : ruleNullable r = true := by
  cases r with
  | op o => cases o <;> revert h <;> decide
  | word => rfl
  | _ => revert h; decide

theorem height_body (r : Rule) : height (host r).2 < rank r := by
  cases r with
  | op o => cases o <;> decide
  | word w =>
    change 1 + (if w.toList.isEmpty then max 1 (1 + 1) else 1) < 10
    split <;> omega
  | _ => decide

theorem bounded_body (r : Rule) : bounded (host r).2 = true := by
  cases r with
  | op o => cases o <;> decide
  | word w => rfl
  | _ => decide

mutual

theorem length_skipGap (i : Nat) : ∀ cs : List Char, (skipGap i cs).rest.length ≤ cs.length
  | [] => by simp [skipGap]
  | c :: cs => by
    unfold skipGap
    split
    · rename_i heq
      exact absurd heq (by simp)
    · rename_i rest heq
      obtain ⟨rfl, rfl⟩ := List.cons.inj heq
      have h := length_skipLine (i + 2) rest
      simp only [List.length_cons]
      omega
    · rename_i rest heq
      obtain ⟨rfl, rfl⟩ := List.cons.inj heq
      cases hc : skipComment (i + 2) rest with
      | none => simp
      | some d =>
        have h := length_skipComment (i + 2) rest d hc
        simp only [Option.getD_some, List.length_cons]
        omega
    · rename_i rest _ _ heq
      obtain ⟨rfl, rfl⟩ := List.cons.inj heq
      have h := length_skipGap (i + 1) cs
      split
      · simp only [List.length_cons]
        omega
      · simp

theorem length_skipLine (i : Nat) : ∀ cs : List Char, (skipLine i cs).rest.length ≤ cs.length
  | [] => by simp [skipLine]
  | c :: cs => by
    unfold skipLine
    have h := length_skipGap (i + 1) cs
    have h' := length_skipLine (i + c.utf8Size) cs
    split <;> simp only [List.length_cons] <;> omega

theorem length_skipComment (i : Nat) : ∀ (cs : List Char) (d : Cursor),
    skipComment i cs = some d → d.rest.length ≤ cs.length
  | [], _, h => by simp [skipComment] at h
  | c :: cs, d, h => by
    unfold skipComment at h
    split at h
    · rename_i heq
      exact absurd heq (by simp)
    · rename_i rest heq
      obtain ⟨rfl, rfl⟩ := List.cons.inj heq
      obtain rfl := Option.some.inj h
      have h := length_skipGap (i + 2) rest
      simp only [List.length_cons]
      omega
    · rename_i heq
      obtain ⟨rfl, rfl⟩ := List.cons.inj heq
      have h := length_skipComment _ _ d h
      simp only [List.length_cons]
      omega

end

theorem length_gap (s : Style) (c : Cursor) : (s.gap c).rest.length ≤ c.rest.length := by
  unfold Style.gap
  split
  · exact length_skipGap _ _
  · exact Nat.le_refl _

theorem length_afterLit : ∀ (text : List Char) (c d : Cursor), afterLit text c = some d →
    d.rest.length + text.length = c.rest.length
  | [], c, d, h => by
    obtain rfl := Option.some.inj h
    rfl
  | _ :: _, ⟨_, []⟩, _, h => by simp [afterLit] at h
  | x :: xs, ⟨i, y :: ys⟩, d, h => by
    unfold afterLit at h
    split at h
    · have h : d.rest.length + xs.length = ys.length := length_afterLit xs _ d h
      simp only [List.length_cons]
      omega
    · simp at h

/-- A match never goes back, and it reads something if its expression has to. -/
theorem Matches.length_le {s : Style} {e : Peg} {c : Cursor} {r : Match} (h : Matches s e c r)
    {d : Cursor} {ps : List Pair} (hr : r = some (d, ps)) :
    d.rest.length ≤ c.rest.length ∧ (nullable e = false → d.rest.length < c.rest.length) := by
  induction h generalizing d ps with
  | @lit s text c =>
    obtain ⟨d', hd, heq⟩ := Option.map_eq_some_iff.mp hr
    obtain ⟨rfl, rfl⟩ := Prod.mk.inj heq
    have hlen := length_afterLit text c d' hd
    refine ⟨by omega, fun hn => ?_⟩
    cases text with
    | nil => simp [nullable] at hn
    | cons => simp only [List.length_cons] at hlen; omega
  | charIf =>
    obtain ⟨rfl, rfl⟩ := Prod.mk.inj (Option.some.inj hr)
    simp
  | atEnd =>
    obtain ⟨rfl, rfl⟩ := Prod.mk.inj (Option.some.inj hr)
    simp [nullable]
  | @seq s a b c d₁ ps d₂ qs _ _ ih ih' =>
    obtain ⟨rfl, rfl⟩ := Prod.mk.inj (Option.some.inj hr)
    have hfirst := ih rfl
    have hsecond := ih' rfl
    have hgap := length_gap s d₁
    refine ⟨by omega, fun hn => ?_⟩
    rcases Bool.and_eq_false_iff.mp hn with hn | hn
    · have hlt := hfirst.2 hn
      omega
    · have hlt := hsecond.2 hn
      omega
  | altFirst _ ih =>
    have h := ih hr
    exact ⟨h.1, fun hn => h.2 (Bool.or_eq_false_iff.mp hn).1⟩
  | altSecond _ _ _ ih =>
    have h := ih hr
    exact ⟨h.1, fun hn => h.2 (Bool.or_eq_false_iff.mp hn).2⟩
  | opt _ ih => exact ⟨(ih hr).1, fun hn => absurd hn (by simp [nullable])⟩
  | optNot | starNot | againNot | not =>
    obtain ⟨rfl, rfl⟩ := Prod.mk.inj (Option.some.inj hr)
    simp [nullable]
  | star _ _ ih ih' =>
    obtain ⟨rfl, rfl⟩ := Prod.mk.inj (Option.some.inj hr)
    have hfirst := (ih rfl).1
    have hmore := (ih' rfl).1
    exact ⟨by omega, fun hn => absurd hn (by simp [nullable])⟩
  | @again s e c d₁ ps d₂ qs _ _ ih ih' =>
    obtain ⟨rfl, rfl⟩ := Prod.mk.inj (Option.some.inj hr)
    have hfirst := (ih rfl).1
    have hmore := (ih' rfl).1
    have hgap := length_gap s c
    exact ⟨by omega, fun hn => absurd hn (by simp [nullable])⟩
  | @rule s r c d' ps h ih =>
    obtain ⟨rfl, rfl⟩ := Prod.mk.inj (Option.some.inj hr)
    have h := ih rfl
    refine ⟨h.1, fun hn => h.2 ?_⟩
    cases hb : nullable (host r).2 with
    | false => rfl
    | true => exact absurd (nullable_body r hb) (by simpa [nullable] using hn)
  | charIfNot | charIfEnd | atEndNot | seqFirst | seqSecond | notNot | ruleNot => simp at hr

theorem style_inside (m : Mode) (s : Style) : (m.inside s).style = m.style.within s := by
  cases s <;> rfl

theorem hides_iff (m : Mode) (s : Style) : (m.around s).style = .atomic ↔ m.style.hides s = true := by
  cases s <;> cases h : m.style <;> simp [Mode.around, Style.hides, h]

theorem height_pos (e : Peg) : 0 < height e := by
  cases e with
  | rule r => exact Nat.lt_of_le_of_lt (Nat.zero_le _) (height_body r)
  | _ => simp only [height]; omega

/-- The matcher agrees with the relation once its bound allows for the characters that are left and
for the height of the expression. -/
theorem run_matches (n : Nat) : ∀ (m : Mode) (e : Peg) (c : Cursor) (t : Attempts),
    bounded e = true → 1000 * c.rest.length + height e ≤ n →
    Matches m.style e c (run host n m e c t).1 := by
  induction n with
  | zero =>
    intro m e c t _ hn
    have hpos := height_pos e
    omega
  | succ n ih =>
    intro m e c t hb hn
    cases e with
    | lit text => exact .lit
    | charIf accepts =>
      obtain ⟨i, cs⟩ := c
      cases cs with
      | nil => exact .charIfEnd
      | cons x xs =>
        cases hx : accepts x with
        | false => simpa [run, hx] using .charIfNot hx
        | true => simpa [run, hx] using .charIf hx
    | atEnd =>
      obtain ⟨i, cs⟩ := c
      cases cs with
      | nil => exact .atEnd
      | cons x xs => exact .atEndNot
    | seq a b =>
      simp only [bounded, Bool.and_eq_true, decide_eq_true_eq] at hb
      simp only [height] at hn
      have first := ih m a c t hb.1.1 (by split at hn <;> omega)
      simp only [run]
      generalize hr : run host n m a c t = r at first
      obtain ⟨r, t₁⟩ := r
      cases r with
      | none => exact .seqFirst first
      | some r =>
        obtain ⟨d, ps⟩ := r
        have hle := first.length_le rfl
        have hgap := length_gap m.style d
        have second := ih m b (m.gap d) t₁ hb.1.2 (by
          change 1000 * (m.style.gap d).rest.length + height b ≤ n
          cases hnull : nullable a with
          | true =>
            rw [hnull, if_pos rfl] at hn
            omega
          | false =>
            have hlt := hle.2 hnull
            omega)
        dsimp only
        generalize run host n m b (m.gap d) t₁ = r' at second
        obtain ⟨r', t₂⟩ := r'
        cases r' with
        | none => exact .seqSecond first second
        | some r' => exact .seq first second
    | alt a b =>
      simp only [bounded, Bool.and_eq_true] at hb
      simp only [height] at hn
      have first := ih m a c t hb.1 (by omega)
      simp only [run]
      generalize hr : run host n m a c t = r at first
      obtain ⟨r, t₁⟩ := r
      cases r with
      | none => exact .altSecond first (ih m b c t₁ hb.2 (by omega))
      | some r => exact .altFirst first
    | opt e =>
      simp only [height] at hn
      have h := ih m e c t hb (by omega)
      simp only [run]
      generalize hr : run host n m e c t = r at h
      obtain ⟨r, t₁⟩ := r
      cases r with
      | none => exact .optNot h
      | some r => exact .opt h
    | star e =>
      have hb' := hb
      simp only [bounded, Bool.and_eq_true, Bool.not_eq_true', decide_eq_true_eq] at hb
      simp only [height] at hn
      have first := ih m e c t hb.1.1 (by omega)
      simp only [run]
      generalize hr : run host n m e c t = r at first
      obtain ⟨r, t₁⟩ := r
      cases r with
      | none => exact .starNot first
      | some r =>
        obtain ⟨d, ps⟩ := r
        have hlt := (first.length_le rfl).2 hb.1.2
        have more := ih m (.again e) d t₁ hb' (by simp only [height]; omega)
        dsimp only
        generalize run host n m (.again e) d t₁ = r' at more
        obtain ⟨r', t₂⟩ := r'
        cases r' with
        | none => cases more
        | some r' => exact .star first more
    | again e =>
      have hb' := hb
      simp only [bounded, Bool.and_eq_true, Bool.not_eq_true', decide_eq_true_eq] at hb
      simp only [height] at hn
      have hgap := length_gap m.style c
      have first := ih m e (m.gap c) t hb.1.1 (by
        change 1000 * (m.style.gap c).rest.length + height e ≤ n
        omega)
      simp only [run]
      generalize hr : run host n m e (m.gap c) t = r at first
      obtain ⟨r, t₁⟩ := r
      cases r with
      | none => exact .againNot first
      | some r =>
        obtain ⟨d, ps⟩ := r
        have hlt : d.rest.length < (m.style.gap c).rest.length := (first.length_le rfl).2 hb.1.2
        have more := ih m (.again e) d t₁ hb' (by simp only [height]; omega)
        dsimp only
        generalize run host n m (.again e) d t₁ = r' at more
        obtain ⟨r', t₂⟩ := r'
        cases r' with
        | none => cases more
        | some r' => exact .again first more
    | not e =>
      simp only [height] at hn
      have h := ih { m with negated := !m.negated } e c t hb (by omega)
      simp only [run]
      generalize hr : run host n { m with negated := !m.negated } e c t = r at h
      obtain ⟨r, t₁⟩ := r
      cases r with
      | none => exact .not h
      | some r => exact .notNot h
    | rule r =>
      have hlt := height_body r
      have h := ih (m.inside (host r).1) (host r).2 c t (bounded_body r)
        (by simp only [height] at hn; omega)
      rw [style_inside] at h
      simp only [run]
      generalize hr : run host n (m.inside (host r).1) (host r).2 c t = out at h
      obtain ⟨out, t₁⟩ := out
      cases out with
      | none => exact .ruleNot h
      | some out =>
        obtain ⟨d, ps⟩ := out
        have hrule := Matches.rule h
        rw [traceOf] at hrule
        simpa only [hides_iff] using hrule

end Measure

/-- What the host grammar recognizes, without a bound. -/
theorem recognize_eq_ok_iff (input : List Char) (p : Pair) :
    recognize input = .ok p ↔
      ∃ d, Matches .loose (.rule .program) ⟨0, input⟩ (some (d, [p])) := by
  have hrun := run_matches (depthBound input) ⟨.loose, false⟩ (.rule .program) ⟨0, input⟩ .none
    rfl (by simp only [depthBound, height, rank]; omega)
  unfold recognize
  generalize run host (depthBound input) ⟨.loose, false⟩ (.rule .program) ⟨0, input⟩ .none = out
    at hrun
  obtain ⟨r, t⟩ := out
  constructor
  · intro h
    split at h
    · rename_i d p' _ heq
      obtain rfl : p' = p := by simpa using h
      obtain ⟨rfl, rfl⟩ := Prod.mk.inj heq
      exact ⟨d, hrun⟩
    · simp at h
  · rintro ⟨d, h⟩
    obtain rfl := hrun.unique h
    rfl

end MacroEngine.Grammar
