import MacroEngine.Proofs.Parsed.Grown

/-!
# Strings that are quoted and read back

The rule for strings reads a literal off the front of a text, and the value of the literal is what
its inside stands for. What it reads are exactly the `Enclosed` texts between two quotes of a kind,
whatever follows them. The written form of a text is one of these and stands for the text, so a
literal that is accepted can be written anew without a change of its value.
-/

namespace MacroEngine.Grammar

open Text (byteLength)

section Inversion

variable {s : Style} {c d : Cursor} {ps : List Pair} {close : String} {q : Char}

/-- A text that begins with the character has its literal there. -/
theorem Matches.ne_of_lit_none {x : Char} {rest : List Char} (hclose : close.toList = [q])
    (hc : c.rest = x :: rest) (h : Matches s (text close) c none) : x ≠ q := by
  rintro rfl
  obtain ⟨i, cs⟩ := c
  obtain rfl : cs = x :: rest := hc
  have hlit := Matches.lit_append (s := s) close i rest
  rw [hclose] at hlit
  exact absurd (h.unique hlit) (by simp)

theorem Matches.inside_inv (hclose : close.toList = [q])
    (h : Matches .atomic (insideRound close) c (some (d, ps))) :
    (∃ x, c.rest = '\\' :: x :: d.rest) ∨ ∃ x, x ≠ q ∧ x ≠ '\\' ∧ c.rest = x :: d.rest := by
  cases h with
  | altFirst h =>
    obtain ⟨b, _, _, -, slash, any⟩ := h.seq_inv
    obtain ⟨-, hslash⟩ := slash.lit_inv
    obtain ⟨x, hx⟩ := any.anyChar_inv
    have hx : b.rest = x :: d.rest := hx
    exact .inl ⟨x, by rw [hslash, hx]; rfl⟩
  | altSecond _ h =>
    obtain ⟨b, _, _, -, ahead, any⟩ := h.seq_inv
    obtain ⟨rfl, hnone⟩ := ahead.not_inv
    obtain ⟨x, hx⟩ := any.anyChar_inv
    have hx : b.rest = x :: d.rest := hx
    cases hnone with
    | altSecond hquote hslash =>
      exact .inr ⟨x, hquote.ne_of_lit_none hclose hx, hslash.ne_of_lit_none rfl hx, hx⟩

/-- All rounds together read an enclosed text. A backslash takes the character behind it along, so no
round begins inside an escape. -/
theorem Matches.enclosed_inv (hclose : close.toList = [q])
    (h : Matches .atomic (.again (insideRound close)) c (some (d, ps))) :
    ∃ body, Enclosed q body ∧ c.rest = body ++ d.rest := by
  generalize hs : Style.atomic = s at h
  generalize hx : Peg.again _ = x at h
  generalize hr : some (d, ps) = r at h
  induction h generalizing ps with
  | @again s e c b _ _ _ first more _ ih =>
    subst hs
    cases hx
    cases hr
    obtain ⟨body, hbody, hb⟩ := ih rfl rfl rfl
    have first : Matches .atomic (insideRound close) c _ := first
    rcases first.inside_inv hclose with ⟨x, hc⟩ | ⟨x, hquote, hslash, hc⟩
    · exact ⟨_, .escaped x hbody, by rw [hc, hb]; rfl⟩
    · exact ⟨_, .char hquote hslash hbody, by rw [hc, hb]; rfl⟩
  | againNot =>
    cases hr
    exact ⟨[], .nil, rfl⟩
  | _ => cases hx

theorem Matches.delimited_inv {inside : Rule} (hclose : close.toList = [q])
    (hinside : host inside = (.atomic, .star (insideRound close)))
    (h : Matches .compound (text close ++ Peg.rule inside ++ text close) c (some (d, ps))) :
    ∃ body, Enclosed q body ∧ c.rest = literalText q body ++ d.rest := by
  obtain ⟨b, _, _, -, front, last⟩ := h.seq_inv
  obtain ⟨a, _, _, -, first, between⟩ := front.seq_inv
  obtain ⟨-, hfirst⟩ := first.lit_inv
  obtain ⟨-, hlast⟩ := last.lit_inv
  have between : Matches .compound (.rule inside) a (some (b, _)) := between
  have hlast : b.rest = close.toList ++ d.rest := hlast
  cases between with
  | rule body =>
    rw [hinside] at body
    obtain ⟨w, hw, hrest⟩ := (Matches.again_of_star body).enclosed_inv hclose
    refine ⟨w, hw, ?_⟩
    rw [hfirst, hrest, hlast, hclose, literalText_append]
    rfl

/-- Whatever the rule for strings accepts stands between two quotes of a kind. -/
theorem Matches.string_inv (h : Matches s (.rule .string) c (some (d, ps))) :
    ∃ q body, (q = '"' ∨ q = '\'') ∧ Enclosed q body ∧ c.rest = literalText q body ++ d.rest := by
  cases h with
  | rule body =>
    rw [host_string] at body
    cases body with
    | altFirst body =>
      obtain ⟨w, hw, hrest⟩ := Matches.delimited_inv (q := '"') rfl host_doubleQuoted body
      exact ⟨_, w, .inl rfl, hw, hrest⟩
    | altSecond _ body =>
      obtain ⟨w, hw, hrest⟩ := Matches.delimited_inv (q := '\'') rfl host_singleQuoted body
      exact ⟨_, w, .inr rfl, hw, hrest⟩

end Inversion

section Values

variable {q : Char} {body literal : List Char} {value : String}

theorem stringValue_literalPair {r inside : Rule} {i : Nat} {rest : List Char} :
    stringValue (literalPair r inside q body i rest) = String.ofList (Text.unescape body) := by
  rw [stringValue, insideText_literalPair, String.toList_ofList]

/-- In front of `rest`, the rule for strings reads `literal`, no less and no more, and the value of
the literal is `value`: at every offset, whatever the surroundings and whatever was tried before, once
the depth allows for the text that is left. -/
def ReadsString (literal rest : List Char) (value : String) : Prop :=
  ∀ (n : Nat) (m : Mode) (i : Nat) (t : Attempts),
    1000 * (literal ++ rest).length + height (.rule .string) ≤ n →
    ∃ p, (run host n m (.rule .string) ⟨i, literal ++ rest⟩ t).1 =
        some (⟨i + byteLength literal, rest⟩, [p]) ∧
      p.text = String.ofList literal ∧ stringValue p = value

/-- A text between two quotes of a kind stands for what its inside stands for. -/
theorem readsString_literalText (hq : q = '"' ∨ q = '\'') (h : Enclosed q body) (rest : List Char) :
    ReadsString (literalText q body) rest (String.ofList (Text.unescape body)) := by
  intro n m i t hn
  have hrun := run_matches n m (.rule .string) ⟨i, literalText q body ++ rest⟩ t rfl hn
  exact ⟨_, hrun.unique (.string hq h i rest), text_literalPair, stringValue_literalPair⟩

/-- The written form of a text is read as the text. -/
theorem readsString_quote (value : String) (rest : List Char) :
    ReadsString (Text.quote value).toList rest value := by
  have h := readsString_literalText (.inl rfl) (enclosed_escape value.toList) rest
  rw [Text.unescape_escape, String.ofList_toList] at h
  rw [Text.quote, String.toList_ofList]
  exact h

theorem ReadsString.exists_literalText {rest : List Char} (h : ReadsString literal rest value) :
    ∃ q body, (q = '"' ∨ q = '\'') ∧ Enclosed q body ∧ literal = literalText q body ∧
      value = String.ofList (Text.unescape body) := by
  obtain ⟨p, hrun, -, rfl⟩ := h _ ⟨.loose, false⟩ 0 .none (Nat.le_refl _)
  have hmatch := run_matches _ ⟨.loose, false⟩ (.rule .string) ⟨0, literal ++ rest⟩ .none rfl
    (Nat.le_refl _)
  rw [hrun] at hmatch
  obtain ⟨q, body, hq, hbody, heq⟩ := hmatch.string_inv
  obtain rfl : literal = literalText q body := List.append_cancel_right heq
  obtain ⟨-, hp⟩ := Prod.mk.inj (Option.some.inj (hmatch.unique (.string hq hbody 0 rest)))
  obtain rfl := List.singleton_inj.mp hp
  exact ⟨q, body, hq, hbody, rfl, stringValue_literalPair⟩

/-- Strings survive quoting. The written form of a text is read as the text, whatever follows it. The
texts that are read as strings are those between two quotes of a kind that hold this quote only
behind a backslash, and each stands for its unescaped inside. Whenever the rule for strings accepts
something, it is such a literal, and its value written anew is read as that value. -/
theorem strings_survive_quoting :
    (∀ (value : String) (rest : List Char), ReadsString (Text.quote value).toList rest value) ∧
    (∀ (literal rest : List Char) (value : String), ReadsString literal rest value ↔
      ∃ q body, (q = '"' ∨ q = '\'') ∧ Enclosed q body ∧ literal = literalText q body ∧
        value = String.ofList (Text.unescape body)) ∧
    ∀ (n : Nat) (m : Mode) (c d : Cursor) (t : Attempts) (ps : List Pair),
      1000 * c.rest.length + height (.rule .string) ≤ n →
      (run host n m (.rule .string) c t).1 = some (d, ps) →
      ∃ literal p, c.rest = literal ++ d.rest ∧ ps = [p] ∧
        ReadsString literal d.rest (stringValue p) ∧
        ∀ rest, ReadsString (Text.quote (stringValue p)).toList rest (stringValue p) := by
  refine ⟨readsString_quote, fun literal rest value => ⟨fun h => h.exists_literalText, ?_⟩, ?_⟩
  · rintro ⟨q, body, hq, hbody, rfl, rfl⟩
    exact readsString_literalText hq hbody rest
  · intro n m c d t ps hn hrun
    have hmatch := run_matches n m (.rule .string) c t rfl hn
    rw [hrun] at hmatch
    obtain ⟨q, body, hq, hbody, hrest⟩ := hmatch.string_inv
    -- What the rule yields on such a text is known, and a match is unique.
    obtain ⟨i, cs⟩ := c
    obtain rfl : cs = literalText q body ++ d.rest := hrest
    obtain ⟨-, rfl⟩ := Prod.mk.inj (Option.some.inj (hmatch.unique (.string hq hbody i d.rest)))
    refine ⟨_, _, rfl, rfl, ?_, readsString_quote _⟩
    rw [stringValue_literalPair]
    exact readsString_literalText hq hbody d.rest

/-- A string between single quotes, with a quote of either kind in it, an escape without a meaning,
and a quote behind the string. -/
def singleQuoted : List Char := "'it\\'s \\q\"\\0\\n\\\\' + 'x'".toList

/-- The escape without a meaning is written without its backslash the second time. -/
theorem strings_survive_quoting_singleQuoted :
    1000 * singleQuoted.length + height (.rule .string) ≤ depthBound singleQuoted ∧
      ∃ d p, (run host (depthBound singleQuoted) ⟨.loose, false⟩ (.rule .string) ⟨7, singleQuoted⟩
          .none).1 = some (d, [p]) ∧ d.rest = " + 'x'".toList ∧
        stringValue p = "it's q\"\x00\n\\" ∧
        ReadsString "\"it's q\\\"\\0\\n\\\\\"".toList "\";".toList "it's q\"\x00\n\\" := by
  have hdepth : 1000 * singleQuoted.length + height (.rule .string) ≤ depthBound singleQuoted := by
    decide
  have hrun : (run host (depthBound singleQuoted) ⟨.loose, false⟩ (.rule .string) ⟨7, singleQuoted⟩
      .none).1 = some (⟨24, " + 'x'".toList⟩, [literalPair .string .singleQuoted '\''
        "it\\'s \\q\"\\0\\n\\\\".toList 7 " + 'x'".toList]) := rfl
  obtain ⟨_, p, -, hp, -, hquoted⟩ := strings_survive_quoting.2.2 _ _ _ _ _ _ hdepth hrun
  obtain rfl := List.singleton_inj.mp hp
  have hvalue : stringValue (literalPair .string .singleQuoted '\''
      "it\\'s \\q\"\\0\\n\\\\".toList 7 " + 'x'".toList) = "it's q\"\x00\n\\" := by
    decide +kernel
  have hwritten : (Text.quote "it's q\"\x00\n\\").toList = "\"it's q\\\"\\0\\n\\\\\"".toList := by
    decide +kernel
  refine ⟨hdepth, _, _, hrun, rfl, hvalue, ?_⟩
  rw [← hwritten, ← hvalue]
  exact hquoted _

end Values

end MacroEngine.Grammar
