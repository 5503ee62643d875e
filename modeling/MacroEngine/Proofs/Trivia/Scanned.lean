import MacroEngine.Proofs.Grammar.Lookahead

/-!
# Blanks, comments and literals in a text

What may stand between two tokens is `Trivia`: spaces, tabs, ends of lines, and comments with their
ends. A place in a text is outside all comments and literals if the text before it is `Scanned`, that
is, falls into whole comments, whole literals and single characters. Where a gap is skipped, the text
behind a scanned one makes no difference.
-/

namespace MacroEngine.Grammar

open Printer (isNameChar isNameStart isPlainKey)

def isSpace (c : Char) : Bool := c = ' ' || c = '\t' || c = '\r' || c = '\n'

/-- The characters that neither stand between tokens nor begin a comment or a literal. -/
def isOrdinary (c : Char) : Bool := !(isSpace c || c = '/' || c = '"' || c = '\'' || c = '`')

inductive Comment : List Char → Prop where
  | line {body : List Char} (h : '\n' ∉ body) : Comment ('/' :: '/' :: (body ++ ['\n']))
  | block {body : List Char} (h : ¬ ['*', '/'] <:+: body) :
    Comment ('/' :: '*' :: (body ++ ['*', '/']))

inductive Trivia : List Char → Prop where
  | nil : Trivia []
  | space {c : Char} {g : List Char} (hc : isSpace c = true) (more : Trivia g) : Trivia (c :: g)
  | comment {k g : List Char} (hk : Comment k) (more : Trivia g) : Trivia (k ++ g)

/-- String literals between either kind of quotes, and template literals. -/
inductive Literal : List Char → Prop where
  | string {q : Char} {body : List Char} (hq : q = '"' ∨ q = '\'') (h : Enclosed q body) :
    Literal (q :: (body ++ [q]))
  | template {body : List Char} (h : '`' ∉ body) : Literal ('`' :: (body ++ ['`']))

/-- In front of `rest`, the text falls into whole comments, whole literals and other characters. -/
inductive Scanned (rest : List Char) : List Char → Prop where
  | nil : Scanned rest []
  | char {c : Char} {w : List Char} (hc : isOrdinary c = true ∨ isSpace c = true)
    (more : Scanned rest w) : Scanned rest (c :: w)
  | slash {w : List Char} (h : ∀ c ∈ (w ++ rest).head?, c ≠ '/' ∧ c ≠ '*')
    (more : Scanned rest w) : Scanned rest ('/' :: w)
  | comment {k w : List Char} (hk : Comment k) (more : Scanned rest w) : Scanned rest (k ++ w)
  | literal {l w : List Char} (hl : Literal l) (more : Scanned rest w) : Scanned rest (l ++ w)

section Characters

variable {c : Char}

theorem isOrdinary_iff : isOrdinary c = true ↔
    isSpace c = false ∧ c ≠ '/' ∧ c ≠ '"' ∧ c ≠ '\'' ∧ c ≠ '`' := by
  simp only [isOrdinary, Bool.not_eq_true', Bool.or_eq_false_iff, decide_eq_false_iff_not, and_assoc,
    ne_eq]

theorem not_isOrdinary_of_isSpace (h : isSpace c = true) : isOrdinary c = false := by
  rw [isOrdinary, h]
  rfl

/-- A character of a name is nothing else. -/
theorem isOrdinary_of_isNameChar (h : isNameChar c = true) : isOrdinary c = true := by
  refine isOrdinary_iff.mpr ⟨?_, ?_, ?_, ?_, ?_⟩
  · cases hc : isSpace c with
    | false => rfl
    | true =>
      simp only [isSpace, Bool.or_eq_true, decide_eq_true_eq] at hc
      rcases hc with ((rfl | rfl) | rfl) | rfl <;> exact absurd h (by decide)
  all_goals rintro rfl; exact absurd h (by decide)

theorem isOrdinary_of_isDigit (h : c.isDigit = true) : isOrdinary c = true :=
  isOrdinary_of_isNameChar (by simp [isNameChar, Char.isAlphanum, h])

end Characters

section Trim

variable {c : Char} {k g body rest : List Char}

theorem rest_skipLine_append (h : '\n' ∉ body) (i : Nat) (rest : List Char) :
    (skipLine i (body ++ '\n' :: rest)).rest = trim rest := by
  induction body generalizing i with
  | nil =>
    rw [List.nil_append, skipLine, if_pos rfl]
    exact rest_skipGap _ _ rest
  | cons c body ih =>
    obtain ⟨hc, hbody⟩ := not_or.mp (mt List.mem_cons.mpr h)
    rw [List.cons_append, skipLine, if_neg (Ne.symm hc)]
    exact ih hbody _

theorem skipComment_append (h : ¬ ['*', '/'] <:+: body) (i : Nat) (rest : List Char) :
    ∃ j, skipComment i (body ++ '*' :: '/' :: rest) = some ⟨j, trim rest⟩ := by
  induction body generalizing i with
  | nil =>
    obtain ⟨j, hj⟩ := skipGap_eq (i + 2) rest
    exact ⟨j, by rw [List.nil_append, skipComment, hj]⟩
  | cons c body ih =>
    obtain ⟨j, hj⟩ := ih (fun hin => h (hin.trans (List.suffix_cons c body).isInfix)) (i + c.utf8Size)
    refine ⟨j, ?_⟩
    rw [List.cons_append]
    unfold skipComment
    split
    · rename_i heq
      exact absurd heq (by simp)
    · rename_i more heq
      obtain ⟨rfl, hbody⟩ := List.cons.inj heq
      cases body with
      | nil => cases hbody
      | cons d body =>
        obtain rfl : d = '/' := (List.cons.inj hbody).1
        exact absurd ⟨[], body, rfl⟩ h
    · rename_i heq
      obtain ⟨rfl, rfl⟩ := List.cons.inj heq
      exact hj

theorem Comment.trim_append (h : Comment k) (rest : List Char) : trim (k ++ rest) = trim rest := by
  cases h with
  | @line body h =>
    have hskip := rest_skipLine_append h 2 rest
    simpa [trim, skipGap] using hskip
  | @block body h =>
    obtain ⟨j, hj⟩ := skipComment_append h 2 rest
    simp [trim, skipGap, hj]

theorem Trivia.trim_append (h : Trivia g) (rest : List Char) : trim (g ++ rest) = trim rest := by
  induction h with
  | nil => rfl
  | space hc _ ih =>
    rw [List.cons_append, trim_blank hc]
    exact ih
  | comment hk _ ih =>
    rw [List.append_assoc, hk.trim_append]
    exact ih

theorem trim_of_isOrdinary (h : isOrdinary c = true) (rest : List Char) :
    trim (c :: rest) = c :: rest :=
  trim_of_not_blank (isOrdinary_iff.mp h).1 (isOrdinary_iff.mp h).2.1 rest

/-- A slash that begins no comment is no gap. -/
theorem trim_slash (h : ∀ c ∈ rest.head?, c ≠ '/' ∧ c ≠ '*') : trim ('/' :: rest) = '/' :: rest := by
  unfold trim skipGap
  split
  · rename_i heq
    cases heq
  · rename_i heq
    obtain ⟨-, rfl⟩ := List.cons.inj heq
    exact absurd rfl (h '/' rfl).1
  · rename_i heq
    obtain ⟨-, rfl⟩ := List.cons.inj heq
    exact absurd rfl (h '*' rfl).2
  · rename_i heq
    obtain ⟨rfl, rfl⟩ := List.cons.inj heq
    rfl

theorem Literal.trim_append {l : List Char} (h : Literal l) (rest : List Char) :
    trim (l ++ rest) = l ++ rest := by
  cases h with
  | string hq =>
    rcases hq with rfl | rfl
    · exact trim_of_not_blank rfl (by decide) _
    · exact trim_of_not_blank rfl (by decide) _
  | template => exact trim_of_not_blank rfl (by decide) _

/-- Trivia begin with a blank or a slash. -/
theorem Trivia.not_isOrdinary_head (h : Trivia g) (hne : g ≠ []) (rest : List Char) :
    ∀ c ∈ (g ++ rest).head?, isOrdinary c = false := by
  cases h with
  | nil => exact absurd rfl hne
  | space hc =>
    intro c hmem
    obtain rfl := Option.some.inj hmem
    exact not_isOrdinary_of_isSpace hc
  | comment hk =>
    intro c hmem
    cases hk <;> obtain rfl := Option.some.inj hmem <;> rfl

theorem Trivia.spaces {spaces : List Char} (h : ∀ c ∈ spaces, isSpace c = true) : Trivia spaces := by
  induction spaces with
  | nil => exact .nil
  | cons c spaces ih =>
    obtain ⟨hc, hspaces⟩ := List.forall_mem_cons.mp h
    exact .space hc (ih hspaces)

end Trim

namespace Scanned

variable {c : Char} {w x x' : List Char}

/-- A character that is no part of a comment or a literal. -/
theorem tail (h : Scanned x (c :: w)) (hc : isOrdinary c = true ∨ isSpace c = true) :
    Scanned x w := by
  have hslash : c ≠ '/' ∧ c ≠ '"' ∧ c ≠ '\'' ∧ c ≠ '`' := by
    rcases hc with hc | hc
    · exact (isOrdinary_iff.mp hc).2
    · refine ⟨?_, ?_, ?_, ?_⟩ <;> rintro rfl <;> cases hc
  generalize hx : c :: w = y at h
  cases h with
  | nil => cases hx
  | char _ more =>
    obtain ⟨-, rfl⟩ := List.cons.inj hx
    exact more
  | slash => exact absurd (List.cons.inj hx).1 hslash.1
  | comment hk => cases hk <;> exact absurd (List.cons.inj hx).1 hslash.1
  | literal hl =>
    cases hl with
    | string hq =>
      have hcq := (List.cons.inj hx).1
      rcases hq with rfl | rfl
      · exact absurd hcq hslash.2.1
      · exact absurd hcq hslash.2.2.1
    | template => exact absurd (List.cons.inj hx).1 hslash.2.2.2

theorem chars_append {v : List Char} (hv : ∀ c ∈ v, isOrdinary c = true ∨ isSpace c = true)
    (h : Scanned x w) : Scanned x (v ++ w) := by
  induction v with
  | nil => exact h
  | cons c v ih =>
    obtain ⟨hc, hv⟩ := List.forall_mem_cons.mp hv
    exact .char hc (ih hv)

theorem drop {v : List Char} (h : Scanned x (v ++ w))
    (hv : ∀ c ∈ v, isOrdinary c = true ∨ isSpace c = true) : Scanned x w := by
  induction v with
  | nil => exact h
  | cons c v ih =>
    obtain ⟨hc, hv⟩ := List.forall_mem_cons.mp hv
    exact ih (h.tail hc) hv

/-- A slash that no gap begins with is no part of a comment. -/
theorem behind_slash (h : Scanned x ('/' :: w)) (hready : trim ('/' :: w ++ x) = '/' :: w ++ x) :
    Scanned x w := by
  generalize hy : '/' :: w = y at h hready
  cases h with
  | nil => cases hy
  | char hc =>
    obtain ⟨rfl, -⟩ := List.cons.inj hy
    rcases hc with hc | hc <;> cases hc
  | slash _ more =>
    obtain ⟨-, rfl⟩ := List.cons.inj hy
    exact more
  | @comment k w hk =>
    have hle : (trim (w ++ x)).length ≤ (w ++ x).length := length_skipGap 0 _
    have hlen := congrArg List.length hready
    rw [List.append_assoc, hk.trim_append, List.length_append] at hlen
    cases hk <;> simp only [List.length_cons] at hlen <;> omega
  | literal hl =>
    cases hl with
    | string hq =>
      obtain ⟨rfl, -⟩ := List.cons.inj hy
      rcases hq with hq | hq <;> cases hq
    | template => cases (List.cons.inj hy).1

/-- What is scanned is scanned in front of another text, unless that makes a comment of a slash. -/
theorem change (h : Scanned x w) (hx : ∀ c ∈ x'.head?, c ≠ '/' ∧ c ≠ '*') : Scanned x' w := by
  induction h with
  | nil => exact .nil
  | char hc _ ih => exact .char hc ih
  | @slash w h _ ih =>
    refine .slash ?_ ih
    cases w with
    | nil => exact hx
    | cons => exact h
  | comment hk _ ih => exact .comment hk ih
  | literal hl _ ih => exact .literal hl ih

/-- A scanned text in front of either of two others begins with a gap, which reaches to its end or
to the same place in it. -/
theorem trim_append (h : Scanned x w) (hx : ∀ c ∈ x'.head?, c ≠ '/' ∧ c ≠ '*') :
    (trim (w ++ x) = trim x ∧ trim (w ++ x') = trim x') ∨
      ∃ w', w' <:+ w ∧ Scanned x w' ∧ trim (w ++ x) = w' ++ x ∧ trim (w ++ x') = w' ++ x' := by
  have hstays {w : List Char} (h : Scanned x w) (hleft : trim (w ++ x) = w ++ x)
      (hright : trim (w ++ x') = w ++ x') :
      (trim (w ++ x) = trim x ∧ trim (w ++ x') = trim x') ∨
        ∃ w', w' <:+ w ∧ Scanned x w' ∧ trim (w ++ x) = w' ++ x ∧ trim (w ++ x') = w' ++ x' :=
    .inr ⟨w, List.suffix_rfl, h, hleft, hright⟩
  induction h with
  | nil => exact .inl ⟨rfl, rfl⟩
  | @char c w hc more ih =>
    rcases hc with hc | hc
    · exact hstays (.char (.inl hc) more) (trim_of_isOrdinary hc _) (trim_of_isOrdinary hc _)
    · rw [List.cons_append, List.cons_append, trim_blank hc, trim_blank hc]
      refine ih.imp_right ?_
      rintro ⟨w', hsuffix, hw'⟩
      exact ⟨w', hsuffix.trans (List.suffix_cons c w), hw'⟩
  | @slash w h more ih =>
    refine hstays (.slash h more) (trim_slash h) (trim_slash ?_)
    cases w with
    | nil => exact hx
    | cons => exact h
  | @comment k w hk more ih =>
    rw [List.append_assoc, List.append_assoc, hk.trim_append, hk.trim_append]
    refine ih.imp_right ?_
    rintro ⟨w', hsuffix, hw'⟩
    exact ⟨w', hsuffix.trans (List.suffix_append k w), hw'⟩
  | literal hl more ih =>
    refine hstays (.literal hl more) ?_ ?_
    · rw [List.append_assoc]
      exact hl.trim_append _
    · rw [List.append_assoc]
      exact hl.trim_append _

/-- Where no gap begins, a literal does, or a character that no literal begins with. -/
theorem literal_cases (h : Scanned x w) (hready : trim (w ++ x) = w ++ x) (hx : trim x ≠ x) :
    (∃ l w', Literal l ∧ Scanned x w' ∧ w = l ++ w') ∨
      ∃ c w', w = c :: w' ∧ c ≠ '"' ∧ c ≠ '\'' ∧ c ≠ '`' := by
  cases h with
  | nil => exact absurd hready hx
  | @char c w hc =>
    refine .inr ⟨c, w, rfl, ?_⟩
    rcases hc with hc | hc
    · exact (isOrdinary_iff.mp hc).2.2
    · refine ⟨?_, ?_, ?_⟩ <;> rintro rfl <;> cases hc
  | slash => exact .inr ⟨'/', _, rfl, by decide⟩
  | comment hk => cases hk <;> exact .inr ⟨'/', _, rfl, by decide⟩
  | literal hl more => exact .inl ⟨_, _, hl, more, rfl⟩

end Scanned

end MacroEngine.Grammar
