import MacroEngine.Proofs.Grammar.Matches
import MacroEngine.Tree.Printer

/-!
# Texts as tokens

A text that consists of tokens, with gaps where it has any, is matched token by token. `Lexes` says
which tokens a text consists of. `Takes` and `Fails` say what an expression does on every text of
given tokens, at a place where the gap has been skipped; the laws below follow the expressions of a
grammar.
-/

namespace MacroEngine.Grammar

open Text (byteLength takeBytes)

def trim (cs : List Char) : List Char := (skipGap 0 cs).rest

mutual

theorem rest_skipGap (i j : Nat) : ∀ cs : List Char, (skipGap i cs).rest = (skipGap j cs).rest
  | [] => by simp [skipGap]
  | c :: cs => by
    unfold skipGap
    split
    · rfl
    · rename_i rest heq
      obtain ⟨rfl, rfl⟩ := List.cons.inj heq
      exact rest_skipLine _ _ _
    · rename_i rest heq
      obtain ⟨rfl, rfl⟩ := List.cons.inj heq
      have h := rest_skipComment (i + 2) (j + 2) rest
      cases hi : skipComment (i + 2) rest <;> cases hj : skipComment (j + 2) rest <;>
        simp [hi, hj] at h ⊢
      exact h
    · rename_i rest _ _ heq
      obtain ⟨rfl, rfl⟩ := List.cons.inj heq
      split
      · exact rest_skipGap _ _ _
      · rfl

theorem rest_skipLine (i j : Nat) : ∀ cs : List Char, (skipLine i cs).rest = (skipLine j cs).rest
  | [] => by simp [skipLine]
  | c :: cs => by
    unfold skipLine
    split
    · exact rest_skipGap _ _ _
    · exact rest_skipLine _ _ _

theorem rest_skipComment (i j : Nat) : ∀ cs : List Char,
    (skipComment i cs).map Cursor.rest = (skipComment j cs).map Cursor.rest
  | [] => by simp [skipComment]
  | c :: cs => by
    unfold skipComment
    split
    · rfl
    · rename_i rest heq
      obtain ⟨rfl, rfl⟩ := List.cons.inj heq
      exact congrArg some (rest_skipGap _ _ _)
    · rename_i heq
      obtain ⟨rfl, rfl⟩ := List.cons.inj heq
      exact rest_skipComment _ _ _

end

theorem skipGap_eq (i : Nat) (cs : List Char) : ∃ j, skipGap i cs = ⟨j, trim cs⟩ :=
  ⟨(skipGap i cs).offset, by rw [trim, rest_skipGap 0 i]⟩

theorem gap_loose (c : Cursor) : ∃ j, Style.loose.gap c = ⟨j, trim c.rest⟩ := skipGap_eq _ _

mutual

theorem trim_skipGap (i : Nat) : ∀ cs : List Char, trim (skipGap i cs).rest = (skipGap i cs).rest
  | [] => by simp [skipGap, trim]
  | c :: cs => by
    unfold skipGap
    split
    · simp [skipGap, trim]
    · rename_i rest heq
      obtain ⟨rfl, rfl⟩ := List.cons.inj heq
      exact trim_skipLine _ _
    · rename_i rest heq
      obtain ⟨rfl, rfl⟩ := List.cons.inj heq
      cases h : skipComment (i + 2) rest with
      | some d => exact trim_skipComment _ _ _ h
      | none =>
        have hnone := rest_skipComment (i + 2) 2 rest
        rw [h] at hnone
        have hzero : skipComment (0 + 2) rest = none := by simpa using hnone.symm
        simp [trim, skipGap, hzero]
    · rename_i rest hline hcomment heq
      obtain ⟨rfl, rfl⟩ := List.cons.inj heq
      split
      · exact trim_skipGap _ _
      · rename_i hblank
        simp only [trim]
        unfold skipGap
        split
        · rename_i heq
          exact absurd heq (by simp)
        · rename_i rest heq
          obtain ⟨hc, hcs⟩ := List.cons.inj heq
          exact (hline rest hc hcs).elim
        · rename_i rest heq
          obtain ⟨hc, hcs⟩ := List.cons.inj heq
          exact (hcomment rest hc hcs).elim
        · rename_i heq
          obtain ⟨rfl, rfl⟩ := List.cons.inj heq
          rw [if_neg hblank]

theorem trim_skipLine (i : Nat) : ∀ cs : List Char, trim (skipLine i cs).rest = (skipLine i cs).rest
  | [] => by simp [skipLine, skipGap, trim]
  | c :: cs => by
    unfold skipLine
    split
    · exact trim_skipGap _ _
    · exact trim_skipLine _ _

theorem trim_skipComment (i : Nat) : ∀ (cs : List Char) (d : Cursor), skipComment i cs = some d →
    trim d.rest = d.rest
  | [], _, h => by simp [skipComment] at h
  | c :: cs, d, h => by
    unfold skipComment at h
    split at h
    · rename_i heq
      exact absurd heq (by simp)
    · rename_i rest heq
      obtain ⟨rfl, rfl⟩ := List.cons.inj heq
      obtain rfl := Option.some.inj h
      exact trim_skipGap _ _
    · rename_i heq
      obtain ⟨rfl, rfl⟩ := List.cons.inj heq
      exact trim_skipComment _ _ _ h

end

@[simp] theorem trim_trim (cs : List Char) : trim (trim cs) = trim cs := trim_skipGap 0 cs

theorem skipGap_of_trim_eq {cs : List Char} (h : trim cs = cs) (i : Nat) : skipGap i cs = ⟨i, cs⟩ := by
  have hrest : (skipGap i cs).rest.length = cs.length := by
    rw [rest_skipGap i 0]
    exact congrArg List.length h
  cases cs with
  | nil => simp [skipGap]
  | cons c cs =>
    unfold skipGap at hrest ⊢
    split at hrest
    · simp at hrest
    · rename_i rest heq
      obtain ⟨rfl, rfl⟩ := List.cons.inj heq
      have hle := length_skipLine (i + 2) rest
      simp only [List.length_cons] at hrest
      omega
    · rename_i rest heq
      obtain ⟨rfl, rfl⟩ := List.cons.inj heq
      cases hc : skipComment (i + 2) rest with
      | none => simp
      | some d =>
        have hle := length_skipComment (i + 2) rest d hc
        simp only [hc, Option.getD_some, List.length_cons] at hrest
        omega
    · rename_i rest hline hcomment heq
      obtain ⟨rfl, rfl⟩ := List.cons.inj heq
      split at hrest
      · rename_i hblank
        have hle := length_skipGap (i + 1) cs
        simp only [List.length_cons] at hrest
        omega
      · rename_i hblank
        rw [if_neg hblank]

/-- A token of a printed text. The sign of an assignment, arrows and infix operators stand between
blanks; `sym` is any other sign. -/
inductive Tok where
  | word (name : String)
  | exportDefault
  | num (digits : String)
  | str (value : String)
  | tmpl (raw : String)
  | sym (c : Char)
  | op (o : BinaryOp)
  | eq
  | arrow

def IsNumber (digits : List Char) : Prop :=
  ∃ whole part : List Char, whole ≠ [] ∧ (∀ c ∈ whole, c.isDigit = true) ∧
    (∀ c ∈ part, c.isDigit = true) ∧ (digits = whole ∨ digits = whole ++ '.' :: part ∧ part ≠ [])

def signs : List Char := ['(', ')', '[', ']', '\x7b', '\x7d', ',', ';', ':', '.', '!', '-']

theorem isNameChar_of_mem_signs {c : Char} (h : c ∈ signs) : Printer.isNameChar c = false := by
  have hall : signs.all (!Printer.isNameChar ·) = true := by decide
  simpa using List.all_eq_true.mp hall c h

namespace Tok

def spell : Tok → List Char
  | word name => name.toList
  | exportDefault => "export default".toList
  | num digits => digits.toList
  | str value => (Text.quote value).toList
  | tmpl raw => '`' :: (raw.toList ++ ['`'])
  | sym c => [c]
  | op o => o.token.toList
  | eq => ['=']
  | arrow => ['=', '>']

@[simp] theorem spell_word (w : String) : (word w).spell = w.toList := rfl

@[simp] theorem spell_num (digits : String) : (num digits).spell = digits.toList := rfl

@[simp] theorem spell_str (value : String) :
    (str value).spell = '"' :: (Text.escape value.toList ++ ['"']) := String.toList_ofList

@[simp] theorem spell_tmpl (raw : String) : (tmpl raw).spell = '`' :: (raw.toList ++ ['`']) := rfl

@[simp] theorem spell_sym (c : Char) : (sym c).spell = [c] := rfl

@[simp] theorem spell_op (o : BinaryOp) : (op o).spell = o.token.toList := rfl

@[simp] theorem spell_eq : eq.spell = ['='] := rfl

@[simp] theorem spell_arrow : arrow.spell = ['=', '>'] := rfl

/-- A token that a text can have. -/
def Valid : Tok → Prop
  | word name => Printer.isPlainKey name = true
  | num digits => IsNumber digits.toList
  | tmpl raw => '`' ∉ raw.toList
  | sym c => c ∈ signs
  | _ => True

/-- What may follow a token directly. -/
def Fits : Tok → List Char → Prop
  | word _, rest | exportDefault, rest => ∀ c ∈ rest.head?, Printer.isNameChar c = false
  | num digits, rest => (∀ c ∈ rest.head?, c.isDigit = false) ∧
      ('.' ∉ digits.toList → ∀ c more, rest = '.' :: c :: more → c.isDigit = false)
  | sym c, rest => c = '!' → rest.head? ≠ some '='
  | op _, rest | eq, rest | arrow, rest => rest.head? = some ' '
  | str _, _ | tmpl _, _ => True

end Tok

/-- The text consists of these tokens, with gaps between them. -/
inductive Lexes : List Char → List Tok → Prop where
  | nil {cs} (h : trim cs = []) : Lexes cs []
  | cons {cs t rest ts} (h : trim cs = t.spell ++ rest) (valid : t.Valid) (fits : t.Fits rest)
      (more : Lexes rest ts) : Lexes cs (t :: ts)

theorem Lexes.trim {cs : List Char} {ts : List Tok} (h : Lexes cs ts) : Lexes (trim cs) ts := by
  cases h with
  | nil h => exact .nil (by rw [trim_trim, h])
  | cons h valid fits more => exact .cons (by rw [trim_trim, h]) valid fits more

theorem Lexes.of_trim {cs : List Char} {ts : List Tok} (h : Lexes (Grammar.trim cs) ts) :
    Lexes cs ts := by
  cases h with
  | nil h => exact .nil (by rw [← trim_trim, h])
  | cons h valid fits more => exact .cons (by rw [← trim_trim, h]) valid fits more

def Nil (ps : List Pair) : Prop := ps = []

def One (P : Pair → Prop) (ps : List Pair) : Prop := ∃ p, ps = [p] ∧ P p

def Cat (P Q : List Pair → Prop) (ps : List Pair) : Prop := ∃ p q, ps = p ++ q ∧ P p ∧ Q q

@[simp] theorem nil_cat (P : List Pair → Prop) : Cat Nil P = P := by
  funext ps
  refine propext ⟨?_, fun h => ⟨[], ps, rfl, rfl, h⟩⟩
  rintro ⟨_, q, rfl, rfl, h⟩
  exact h

@[simp] theorem cat_nil (P : List Pair → Prop) : Cat P Nil = P := by
  funext ps
  refine propext ⟨?_, fun h => ⟨ps, [], by simp, h, rfl⟩⟩
  rintro ⟨p, _, rfl, h, rfl⟩
  simpa using h

/-- On a text of the first tokens the expression matches and leaves a text of the second tokens,
and its pairs are of the kind `P`. -/
def Takes (e : Peg) (ts : List Tok) (P : List Pair → Prop) (ts' : List Tok) : Prop :=
  ∀ i cs, Lexes cs ts → ∃ d ps, Matches .loose e ⟨i, trim cs⟩ (some (d, ps)) ∧
    Lexes d.rest ts' ∧ P ps

/-- The same of the second and later rounds of a repetition, which begin in front of the gap. -/
def TakesAgain (e : Peg) (ts : List Tok) (P : List Pair → Prop) (ts' : List Tok) : Prop :=
  ∀ i cs, Lexes cs ts → ∃ d ps, Matches .loose (.again e) ⟨i, cs⟩ (some (d, ps)) ∧
    Lexes d.rest ts' ∧ P ps

/-- On a text of these tokens the expression matches nothing. -/
def Fails (e : Peg) (ts : List Tok) : Prop :=
  ∀ i cs, Lexes cs ts → Matches .loose e ⟨i, trim cs⟩ none

section Laws

variable {e a b : Peg} {r : Rule} {ts m ts' : List Tok} {P Q : List Pair → Prop}

theorem Takes.mono (h : Takes e ts P ts') (hPQ : ∀ ps, P ps → Q ps) : Takes e ts Q ts' := by
  intro i cs hcs
  obtain ⟨d, ps, hd, hts, hP⟩ := h i cs hcs
  exact ⟨d, ps, hd, hts, hPQ ps hP⟩

theorem TakesAgain.mono (h : TakesAgain e ts P ts') (hPQ : ∀ ps, P ps → Q ps) :
    TakesAgain e ts Q ts' := by
  intro i cs hcs
  obtain ⟨d, ps, hd, hts, hP⟩ := h i cs hcs
  exact ⟨d, ps, hd, hts, hPQ ps hP⟩

theorem Takes.seq (ha : Takes a ts P m) (hb : Takes b m Q ts') :
    Takes (a ++ b) ts (Cat P Q) ts' := by
  intro i cs hcs
  obtain ⟨d, ps, hd, hm, hP⟩ := ha i cs hcs
  obtain ⟨j, hj⟩ := gap_loose d
  obtain ⟨d', qs, hd', hts, hQ⟩ := hb j d.rest hm
  rw [← hj] at hd'
  exact ⟨d', ps ++ qs, .seq hd hd', hts, ps, qs, rfl, hP, hQ⟩

theorem Fails.seq_left (ha : Fails a ts) : Fails (a ++ b) ts :=
  fun i cs hcs => .seqFirst (ha i cs hcs)

theorem Fails.seq_right (ha : Takes a ts P m) (hb : Fails b m) : Fails (a ++ b) ts := by
  intro i cs hcs
  obtain ⟨d, ps, hd, hm, -⟩ := ha i cs hcs
  obtain ⟨j, hj⟩ := gap_loose d
  have hb := hb j d.rest hm
  rw [← hj] at hb
  exact .seqSecond hd hb

theorem Takes.alt_left (ha : Takes a ts P ts') : Takes (.alt a b) ts P ts' := by
  intro i cs hcs
  obtain ⟨d, ps, hd, hts, hP⟩ := ha i cs hcs
  exact ⟨d, ps, .altFirst hd, hts, hP⟩

theorem Takes.alt_right (ha : Fails a ts) (hb : Takes b ts P ts') : Takes (.alt a b) ts P ts' := by
  intro i cs hcs
  obtain ⟨d, ps, hd, hts, hP⟩ := hb i cs hcs
  exact ⟨d, ps, .altSecond (ha i cs hcs) hd, hts, hP⟩

theorem Fails.alt (ha : Fails a ts) (hb : Fails b ts) : Fails (.alt a b) ts :=
  fun i cs hcs => .altSecond (ha i cs hcs) (hb i cs hcs)

theorem Takes.opt (h : Takes e ts P ts') : Takes (.opt e) ts P ts' := by
  intro i cs hcs
  obtain ⟨d, ps, hd, hts, hP⟩ := h i cs hcs
  exact ⟨d, ps, .opt hd, hts, hP⟩

theorem Takes.opt_none (h : Fails e ts) : Takes (.opt e) ts Nil ts :=
  fun i cs hcs => ⟨⟨i, Grammar.trim cs⟩, [], .optNot (h i cs hcs), hcs.trim, rfl⟩

theorem Takes.not (h : Fails e ts) : Takes (.not e) ts Nil ts :=
  fun i cs hcs => ⟨⟨i, Grammar.trim cs⟩, [], .not (h i cs hcs), hcs.trim, rfl⟩

theorem Fails.not (h : Takes e ts P ts') : Fails (.not e) ts := by
  intro i cs hcs
  obtain ⟨d, ps, hd, -, -⟩ := h i cs hcs
  exact .notNot hd

theorem TakesAgain.done (h : Fails e ts) : TakesAgain e ts Nil ts := by
  intro i cs hcs
  obtain ⟨j, hj⟩ := gap_loose ⟨i, cs⟩
  have h := h j cs hcs
  rw [← hj] at h
  exact ⟨⟨i, cs⟩, [], .againNot h, hcs, rfl⟩

theorem TakesAgain.step (h : Takes e ts P m) (h' : TakesAgain e m Q ts') :
    TakesAgain e ts (Cat P Q) ts' := by
  intro i cs hcs
  obtain ⟨j, hj⟩ := gap_loose ⟨i, cs⟩
  obtain ⟨d, ps, hd, hm, hP⟩ := h j cs hcs
  obtain ⟨d', qs, hd', hts, hQ⟩ := h' d.offset d.rest hm
  rw [← hj] at hd
  exact ⟨d', ps ++ qs, .again hd hd', hts, ps, qs, rfl, hP, hQ⟩

/-- The first round of a repetition begins behind the gap, and is otherwise like the later ones. -/
theorem TakesAgain.star (h : TakesAgain e ts P ts') : Takes (.star e) ts P ts' := by
  intro i cs hcs
  obtain ⟨d, ps, hd, hts, hP⟩ := h i (Grammar.trim cs) hcs.trim
  have hgap : Style.loose.gap ⟨i, Grammar.trim cs⟩ = ⟨i, Grammar.trim cs⟩ :=
    skipGap_of_trim_eq (trim_trim cs) i
  refine ⟨d, ps, ?_, hts, hP⟩
  cases hd with
  | again first more =>
    rw [hgap] at first
    exact .star first more
  | againNot h =>
    rw [hgap] at h
    exact .starNot h

/-- What a repetition reads is also read by its later rounds. -/
theorem Takes.again (h : Takes (.star e) ts P ts') : TakesAgain e ts P ts' := by
  intro i cs hcs
  obtain ⟨j, hj⟩ := gap_loose ⟨i, cs⟩
  obtain ⟨d, ps, hd, hts, hP⟩ := h j cs hcs
  rw [← hj] at hd
  cases hd with
  | star first more => exact ⟨d, _, .again first more, hts, hP⟩
  | starNot hnot =>
    rw [hj] at hts
    exact ⟨⟨i, cs⟩, [], .againNot hnot, hts.of_trim, hP⟩

theorem Takes.rule (hr : (host r).1 = .loose) (h : Takes (host r).2 ts P ts') :
    Takes (.rule r) ts (One fun p => p.rule = r ∧ P p.inner) ts' := by
  intro i cs hcs
  obtain ⟨d, ps, hd, hts, hP⟩ := h i cs hcs
  have hwithin : Matches (Style.loose.within (host r).1) (host r).2 ⟨i, Grammar.trim cs⟩
      (some (d, ps)) := by
    rw [hr]
    exact hd
  exact ⟨d, _, .rule hwithin, hts, _, rfl, rfl, hP⟩

theorem Fails.rule (hr : (host r).1 = .loose) (h : Fails (host r).2 ts) : Fails (.rule r) ts := by
  intro i cs hcs
  have hwithin : Matches (Style.loose.within (host r).1) (host r).2 ⟨i, Grammar.trim cs⟩ none := by
    rw [hr]
    exact h i cs hcs
  exact .ruleNot hwithin

/-- The alternatives before the one that matches fail. -/
theorem Takes.choice {before after : List Peg} (hbefore : ∀ e ∈ before, Fails e ts)
    (h : Takes e ts P ts') : Takes (Host.choice (before ++ e :: after)) ts P ts' := by
  induction before with
  | nil =>
    cases after with
    | nil => exact h
    | cons => exact h.alt_left
  | cons first before ih =>
    have hfirst := hbefore first List.mem_cons_self
    have hrest := ih fun e he => hbefore e (List.mem_cons_of_mem _ he)
    cases hb : before ++ e :: after with
    | nil => simp at hb
    | cons x xs =>
      rw [hb] at hrest
      rw [List.cons_append, hb]
      exact .alt_right hfirst hrest

/-- The alternatives before this one fail. -/
theorem Takes.first {α : Type} [DecidableEq α] {l : List α} {x : α} {f : α → Peg} (hx : x ∈ l)
    (hbefore : ∀ y ∈ l.takeWhile (· ≠ x), Fails (f y) ts) (h : Takes (f x) ts P ts') :
    Takes (Host.choice (l.map f)) ts P ts' := by
  obtain ⟨before, after, rfl, hnot⟩ := List.eq_append_cons_of_mem hx
  rw [List.map_append, List.map_cons]
  refine Takes.choice ?_ h
  intro e he
  obtain ⟨y, hy, rfl⟩ := List.mem_map.mp he
  refine hbefore y ?_
  rw [List.takeWhile_append_of_pos (by
    intro z hz
    simpa using fun heq : z = x => hnot (heq ▸ hz))]
  exact List.mem_append_left _ hy

end Laws

end MacroEngine.Grammar
