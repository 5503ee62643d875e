import MacroEngine.Proofs.Grammar.Terminals

/-!
# Literals between delimiters

A string stands between two quotes of a kind, a template between backticks. `Enclosed` says what may
stand between two quotes, and what escaping leaves of a text may stand there. The rules read such a
literal from its first delimiter to its last one, whatever text comes behind it.
-/

namespace MacroEngine.Grammar

open Text (byteLength)

/-- What may stand between two quotes of a kind: the quote itself only behind a backslash. -/
inductive Enclosed (q : Char) : List Char → Prop where
  | nil : Enclosed q []
  | escaped {body : List Char} (x : Char) (more : Enclosed q body) : Enclosed q ('\\' :: x :: body)
  | char {c : Char} {body : List Char} (hquote : c ≠ q) (hslash : c ≠ '\\')
    (more : Enclosed q body) : Enclosed q (c :: body)

theorem escapeChar_cases (c : Char) :
    (∃ x, Text.escapeChar c = ['\\', x]) ∨ (Text.escapeChar c = [c] ∧ c ≠ '"' ∧ c ≠ '\\') := by
  unfold Text.escapeChar
  split
  all_goals first | exact .inl ⟨_, rfl⟩ | skip
  rename_i hquote hslash _ _ _ _
  exact .inr ⟨rfl, hquote, hslash⟩

/-- An escaped text may stand between double quotes. -/
theorem enclosed_escape (v : List Char) : Enclosed '"' (Text.escape v) := by
  induction v with
  | nil => exact .nil
  | cons c v ih =>
    have hcons : Text.escape (c :: v) = Text.escapeChar c ++ Text.escape v := rfl
    rw [hcons]
    rcases escapeChar_cases c with ⟨x, hx⟩ | ⟨hx, hquote, hslash⟩
    · rw [hx]
      exact .escaped x ih
    · rw [hx]
      exact .char hquote hslash ih

theorem host_templateRaw : host .templateRaw = (.atomic, .star (Peg.not (text "`") ++ anyChar)) := rfl

theorem host_string : host .string =
    (.compound, .alt (text "\"" ++ Peg.rule .doubleQuoted ++ text "\"")
      (text "'" ++ Peg.rule .singleQuoted ++ text "'")) := rfl

theorem host_template : host .template =
    (.compound, text "`" ++ Peg.rule .templateRaw ++ text "`") := rfl

/-- One round of the inside of a literal: an escaped character, or one that is neither a backslash nor
what closes the literal. -/
def insideRound (close : String) : Peg :=
  .alt (text "\\" ++ anyChar) (Peg.not (.alt (text close) (text "\\")) ++ anyChar)

theorem host_doubleQuoted : host .doubleQuoted = (.atomic, .star (insideRound "\"")) := rfl

theorem host_singleQuoted : host .singleQuoted = (.atomic, .star (insideRound "'")) := rfl

section Inside

variable {close : String} {q : Char} {body : List Char}

/-- A character of the inside of a literal. -/
theorem Matches.inside_char {c : Char} (hclose : close.toList = [q]) (hquote : c ≠ q)
    (hslash : c ≠ '\\') (i : Nat) (rest : List Char) :
    Matches .atomic (insideRound close) ⟨i, c :: rest⟩ (some (⟨i + c.utf8Size, rest⟩, [])) := by
  have hslash : Matches .atomic (text "\\") ⟨i, c :: rest⟩ none :=
    .lit_none (by rintro ⟨u, hu⟩; exact hslash (List.cons.inj hu).1.symm) i
  have hend : Matches .atomic (text close) ⟨i, c :: rest⟩ none := by
    refine .lit_none ?_ i
    rw [hclose]
    rintro ⟨u, hu⟩
    exact hquote (List.cons.inj hu).1.symm
  exact .altSecond (.seqFirst hslash) (.seq (.not (.altSecond hend hslash)) (.charIf rfl))

/-- The inside of a string ends at the quote that closes it. -/
theorem Matches.enclosed (hclose : close.toList = [q]) (hq : q ≠ '\\') (h : Enclosed q body)
    (i : Nat) (rest : List Char) :
    Matches .atomic (.again (insideRound close)) ⟨i, body ++ q :: rest⟩
      (some (⟨i + byteLength body, q :: rest⟩, [])) := by
  induction h generalizing i with
  | nil =>
    have hslash : Matches .atomic (text "\\") ⟨i, q :: rest⟩ none :=
      .lit_none (by rintro ⟨u, hu⟩; exact hq (List.cons.inj hu).1.symm) i
    have hend := Matches.lit_append (s := .atomic) close i rest
    rw [hclose] at hend
    exact .againNot (.altSecond (.seqFirst hslash) (.seqFirst (.notNot (.altFirst hend))))
  | @escaped body x _ ih =>
    have hslash : Matches .atomic (text "\\") ⟨i, '\\' :: x :: (body ++ q :: rest)⟩ _ :=
      .lit_append "\\" i _
    have hany : ∀ j, Matches .atomic anyChar ⟨j, x :: (body ++ q :: rest)⟩
        (some (⟨j + x.utf8Size, body ++ q :: rest⟩, [])) := fun j => .charIf rfl
    have hlen : byteLength ('\\' :: x :: body) =
        byteLength "\\".toList + x.utf8Size + byteLength body := by
      simp [byteLength, show "\\".toList = ['\\'] from rfl, Nat.add_assoc]
    rw [hlen, ← Nat.add_assoc, ← Nat.add_assoc]
    exact .again (.altFirst (.seq hslash (hany _))) (ih _)
  | char hquote hslash _ ih =>
    rw [byteLength, ← Nat.add_assoc]
    exact .again (.inside_char hclose hquote hslash i _) (ih _)

/-- The inside of a template ends at the first backtick, or with the text. -/
theorem Matches.raw {w rest : List Char} (hw : '`' ∉ w) (hrest : ∀ c ∈ rest.head?, c = '`')
    (i : Nat) : Matches .atomic (.again (Peg.not (text "`") ++ anyChar)) ⟨i, w ++ rest⟩
      (some (⟨i + byteLength w, rest⟩, [])) := by
  induction w generalizing i with
  | nil =>
    refine .againNot ?_
    cases rest with
    | nil => exact .seqSecond (.not (.lit_none (by simp) i)) .charIfEnd
    | cons c rest =>
      obtain rfl := hrest c rfl
      have htick : Matches .atomic (text "`") ⟨i, '`' :: rest⟩ _ := .lit_append "`" i rest
      exact .seqFirst (.notNot htick)
  | cons c w ih =>
    obtain ⟨hc, hw⟩ := not_or.mp (mt List.mem_cons.mpr hw)
    have htick : Matches .atomic (text "`") ⟨i, c :: (w ++ rest)⟩ none :=
      .lit_none (by rintro ⟨u, hu⟩; exact hc (List.cons.inj hu).1) i
    rw [byteLength, ← Nat.add_assoc]
    exact .again (.seq (.not htick) (.charIf rfl)) (ih hw _)

end Inside

section Literals

variable {s : Style} {r : Rule} {e : Peg} {q : Char} {body : List Char}

def literalText (q : Char) (body : List Char) : List Char := q :: (body ++ [q])

theorem literalText_append (q : Char) (body rest : List Char) :
    literalText q body ++ rest = q :: (body ++ q :: rest) := by
  simp [literalText]

theorem byteLength_literalText (q : Char) (body : List Char) :
    byteLength (literalText q body) = q.utf8Size + byteLength body + q.utf8Size := by
  rw [literalText, byteLength, Text.byteLength_append, Nat.add_assoc]
  rfl

def insidePair (inside : Rule) (q : Char) (body : List Char) (i : Nat) (rest : List Char) : Pair :=
  .mk inside (i + q.utf8Size) (i + q.utf8Size + byteLength body) (body ++ q :: rest) []

def literalPair (r inside : Rule) (q : Char) (body : List Char) (i : Nat) (rest : List Char) : Pair :=
  .mk r i (i + byteLength (literalText q body)) (literalText q body ++ rest)
    [insidePair inside q body i rest]

section Pairs

variable {inside : Rule} {i : Nat} {rest : List Char}

theorem text_literalPair :
    (literalPair r inside q body i rest).text = String.ofList (literalText q body) :=
  Pair.text_mk r i (literalText q body) rest _

theorem insideText_literalPair :
    insideText (literalPair r inside q body i rest) = String.ofList body :=
  Pair.text_mk inside (i + q.utf8Size) body (q :: rest) []

end Pairs

/-- Without gaps, what is matched between two delimiters is matched together with them. -/
theorem Matches.delimited {delimiter : String} {inside : Rule} (hdelimiter : delimiter.toList = [q])
    (hinside : host inside = (.atomic, .star e))
    (hbody : ∀ i rest, Matches .atomic (.again e) ⟨i, body ++ q :: rest⟩
      (some (⟨i + byteLength body, q :: rest⟩, []))) (i : Nat) (rest : List Char) :
    Matches .compound (text delimiter ++ Peg.rule inside ++ text delimiter)
      ⟨i, literalText q body ++ rest⟩
      (some (⟨i + byteLength (literalText q body), rest⟩,
        [insidePair inside q body i rest])) := by
  have hsize : byteLength [q] = q.utf8Size := rfl
  have hopen := Matches.lit_append (s := .compound) delimiter i (body ++ q :: rest)
  have hclose := Matches.lit_append (s := .compound) delimiter
    (i + q.utf8Size + byteLength body) rest
  rw [hdelimiter, hsize] at hopen hclose
  have hrule : Matches .compound (.rule inside) ⟨i + q.utf8Size, body ++ q :: rest⟩
      (some (⟨i + q.utf8Size + byteLength body, q :: rest⟩, [insidePair inside q body i rest])) := by
    have hstar : Matches (Style.compound.within (host inside).1) (host inside).2
        ⟨i + q.utf8Size, body ++ q :: rest⟩
        (some (⟨i + q.utf8Size + byteLength body, q :: rest⟩, [])) := by
      rw [hinside]
      exact (hbody _ rest).star_of_again
    have h := Matches.rule hstar
    rwa [traceOf, hinside] at h
  rw [literalText_append, byteLength_literalText, ← Nat.add_assoc, ← Nat.add_assoc]
  exact .seq (.seq hopen hrule) hclose

/-- A literal is matched in the same way in every style, and always leaves its pair. -/
theorem Matches.literal {inside : Rule} {i : Nat} {rest : List Char} (hr : host r = (.compound, e))
    (h : Matches .compound e ⟨i, literalText q body ++ rest⟩
      (some (⟨i + byteLength (literalText q body), rest⟩,
        [insidePair inside q body i rest]))) :
    Matches s (.rule r) ⟨i, literalText q body ++ rest⟩
      (some (⟨i + byteLength (literalText q body), rest⟩,
        [literalPair r inside q body i rest])) := by
  have hrule := Matches.rule (s := s) (r := r) (by rwa [hr])
  have hshown : s.hides (host r).1 = false := by
    rw [hr]
    exact Bool.and_false _
  rwa [traceOf, hshown] at hrule

def insideRule (q : Char) : Rule := if q = '"' then .doubleQuoted else .singleQuoted

theorem Matches.string (hq : q = '"' ∨ q = '\'') (h : Enclosed q body) (i : Nat)
    (rest : List Char) :
    Matches s (.rule .string) ⟨i, literalText q body ++ rest⟩
      (some (⟨i + byteLength (literalText q body), rest⟩,
        [literalPair .string (insideRule q) q body i rest])) := by
  refine .literal host_string ?_
  rcases hq with rfl | rfl
  · have hclose : "\"".toList = ['"'] := rfl
    exact .altFirst (.delimited hclose host_doubleQuoted (.enclosed hclose (by decide) h) i rest)
  · have hclose : "'".toList = ['\''] := rfl
    have hdouble : Matches .compound (text "\"") ⟨i, literalText '\'' body ++ rest⟩ none :=
      .lit_none (by rintro ⟨u, hu⟩; cases (List.cons.inj hu).1) i
    exact .altSecond (.seqFirst (.seqFirst hdouble))
      (.delimited hclose host_singleQuoted (.enclosed hclose (by decide) h) i rest)

theorem Matches.template (h : '`' ∉ body) (i : Nat) (rest : List Char) :
    Matches s (.rule .template) ⟨i, literalText '`' body ++ rest⟩
      (some (⟨i + byteLength (literalText '`' body), rest⟩,
        [literalPair .template .templateRaw '`' body i rest])) := by
  have hticks (rest : List Char) : ∀ c ∈ ('`' :: rest).head?, c = '`' := by simp
  have hbody (i : Nat) (rest : List Char) := Matches.raw h (hticks rest) i
  exact .literal host_template (.delimited rfl host_templateRaw hbody i rest)

def IsQuoted (r : Rule) (w : String) (p : Pair) : Prop := p.rule = r ∧ insideText p = w

theorem spots_string (v : String) :
    Spots (.rule .string) (.str v)
      (One (IsQuoted .string (String.ofList (Text.escape v.toList)))) := by
  intro i rest _ _
  rw [Tok.spell_str]
  exact ⟨_, .string (.inl rfl) (enclosed_escape v.toList) i rest, _, rfl, rfl,
    insideText_literalPair⟩

theorem spots_template (raw : String) :
    Spots (.rule .template) (.tmpl raw) (One (IsQuoted .template raw)) := by
  intro i rest valid _
  rw [Tok.spell_tmpl]
  exact ⟨_, .template valid i rest, _, rfl, rfl,
    insideText_literalPair.trans String.ofList_toList⟩

end Literals

end MacroEngine.Grammar
