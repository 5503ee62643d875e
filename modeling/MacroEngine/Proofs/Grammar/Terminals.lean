import MacroEngine.Proofs.Grammar.Tokens
import MacroEngine.Grammar.Reading

/-!
# Words, names and literals

The rules that stand for tokens read exactly their token: `Spots` says so, with the text of the
pair. A word and a name are told apart by the whole run of name characters; a rule that begins with
a letter fails in front of anything else.
-/

namespace MacroEngine.Grammar

open Text (byteLength takeBytes)
open Printer (isNameChar isNameStart isPlainKey)

theorem afterLit_append (text rest : List Char) (i : Nat) :
    afterLit text ⟨i, text ++ rest⟩ = some ⟨i + byteLength text, rest⟩ := by
  induction text generalizing i with
  | nil => simp [afterLit, byteLength]
  | cons c text ih => simp [afterLit, byteLength, ih, Nat.add_assoc]

theorem afterLit_eq_some {text : List Char} {c d : Cursor} (h : afterLit text c = some d) :
    c.rest = text ++ d.rest := by
  induction text generalizing c with
  | nil =>
    obtain rfl := Option.some.inj h
    rfl
  | cons x text ih =>
    obtain ⟨i, cs⟩ := c
    cases cs with
    | nil => simp [afterLit] at h
    | cons y ys =>
      simp only [afterLit] at h
      split at h
      · rename_i hxy
        have hys : ys = text ++ d.rest := ih h
        simp [hxy, hys]
      · simp at h

theorem afterLit_eq_none {text cs : List Char} (h : ¬ text <+: cs) (i : Nat) :
    afterLit text ⟨i, cs⟩ = none := by
  cases hd : afterLit text ⟨i, cs⟩ with
  | none => rfl
  | some d => exact absurd ⟨d.rest, (afterLit_eq_some hd).symm⟩ h

theorem Matches.lit_append {s : Style} (t : String) (i : Nat) (rest : List Char) :
    Matches s (text t) ⟨i, t.toList ++ rest⟩ (some (⟨i + byteLength t.toList, rest⟩, [])) := by
  have h : Matches s (.lit t.toList) ⟨i, t.toList ++ rest⟩ _ := .lit
  rwa [afterLit_append] at h

theorem Matches.lit_none {s : Style} {t : String} {cs : List Char} (h : ¬ t.toList <+: cs) (i : Nat) :
    Matches s (text t) ⟨i, cs⟩ none := by
  have hlit : Matches s (.lit t.toList) ⟨i, cs⟩ _ := .lit
  rwa [afterLit_eq_none h] at hlit

theorem takeBytes_append (w rest : List Char) : takeBytes (byteLength w) (w ++ rest) = w := by
  induction w with
  | nil =>
    cases rest with
    | nil => rfl
    | cons c rest =>
      have hpos := Char.utf8Size_pos c
      simp only [byteLength, List.nil_append, takeBytes]
      rw [if_neg (by omega)]
  | cons c w ih =>
    simp only [byteLength, List.cons_append, takeBytes]
    rw [if_pos (by omega), Nat.add_sub_cancel_left, ih]

theorem Pair.text_mk (r : Rule) (i : Nat) (w rest : List Char) (ps : List Pair) :
    (Pair.mk r i (i + byteLength w) (w ++ rest) ps).text = String.ofList w := by
  simp [Pair.text, takeBytes_append]

/-- A run of characters of one kind, as far as it goes. -/
theorem Matches.chars {accepts : Char → Bool} {w rest : List Char} (hw : ∀ c ∈ w, accepts c = true)
    (hrest : ∀ c ∈ rest.head?, accepts c = false) (i : Nat) :
    Matches .atomic (.again (.charIf accepts)) ⟨i, w ++ rest⟩
      (some (⟨i + byteLength w, rest⟩, [])) := by
  induction w generalizing i with
  | nil =>
    refine .againNot ?_
    cases rest with
    | nil => exact .charIfEnd
    | cons c rest => exact .charIfNot (hrest c rfl)
  | cons c w ih =>
    have first : Matches .atomic (.charIf accepts) ⟨i, c :: (w ++ rest)⟩
        (some (⟨i + c.utf8Size, w ++ rest⟩, [])) := .charIf (hw c List.mem_cons_self)
    have more := ih (fun c hc => hw c (List.mem_cons_of_mem _ hc)) (i + c.utf8Size)
    have h := Matches.again first more
    simpa [byteLength, Nat.add_assoc] using h

/-- Without gaps the first round of a repetition is like the later ones. -/
theorem Matches.star_of_again {e : Peg} {c d : Cursor} {ps : List Pair}
    (h : Matches .atomic (.again e) c (some (d, ps))) :
    Matches .atomic (.star e) c (some (d, ps)) := by
  cases h with
  | again first more => exact .star first more
  | againNot h => exact .starNot h

theorem Matches.again_of_star {e : Peg} {c d : Cursor} {ps : List Pair}
    (h : Matches .atomic (.star e) c (some (d, ps))) :
    Matches .atomic (.again e) c (some (d, ps)) := by
  cases h with
  | star first more => exact .again first more
  | starNot h => exact .againNot h

theorem eq_of_append_eq {accepts : Char → Bool} {v w rest rest' : List Char}
    (hv : ∀ c ∈ v, accepts c = true) (hw : ∀ c ∈ w, accepts c = true)
    (hrest : ∀ c ∈ rest.head?, accepts c = false) (hrest' : ∀ c ∈ rest'.head?, accepts c = false)
    (h : v ++ rest = w ++ rest') : v = w := by
  have hrun : ∀ {u r : List Char}, (∀ c ∈ u, accepts c = true) →
      (∀ c ∈ r.head?, accepts c = false) → (u ++ r).takeWhile accepts = u := by
    intro u r hu hr
    rw [List.takeWhile_append_of_pos hu]
    cases r with
    | nil => simp
    | cons c r => simp [hr c rfl]
  rw [← hrun hv hrest, ← hrun hw hrest', h]

section Words

variable {v w : String} {i : Nat} {rest cs : List Char}

def IsRun (w : String) : Prop := ∀ c ∈ w.toList, isNameChar c = true

instance (w : String) : Decidable (IsRun w) :=
  decidable_of_iff (w.toList.all isNameChar = true) List.all_eq_true

theorem isNameChar_of_isNameStart {c : Char} (h : isNameStart c = true) : isNameChar c = true := by
  simp only [isNameStart, isNameChar, Char.isAlphanum, Bool.or_eq_true] at h ⊢
  rcases h with (h | h) | h <;> simp [h]

theorem isPlainKey_iff : isPlainKey w = true ↔
    ∃ c more, w.toList = c :: more ∧ isNameStart c = true ∧ ∀ c ∈ more, isNameChar c = true := by
  unfold isPlainKey
  cases h : w.toList with
  | nil => simp
  | cons c more =>
    simp only [Bool.and_eq_true, List.all_eq_true]
    constructor
    · rintro ⟨hc, hmore⟩
      exact ⟨c, more, rfl, hc, hmore⟩
    · rintro ⟨x, xs, heq, hx, hxs⟩
      obtain ⟨rfl, rfl⟩ := List.cons.inj heq
      exact ⟨hx, hxs⟩

theorem isRun_of_isPlainKey (h : isPlainKey w = true) : IsRun w := by
  obtain ⟨c, more, hw, hc, hmore⟩ := isPlainKey_iff.mp h
  intro x hx
  rw [hw] at hx
  rcases List.mem_cons.mp hx with rfl | hx
  · exact isNameChar_of_isNameStart hc
  · exact hmore x hx

theorem Matches.wholeWord (h : ∀ c ∈ rest.head?, isNameChar c = false) :
    Matches .atomic (Host.wholeWord w) ⟨i, w.toList ++ rest⟩
      (some (⟨i + byteLength w.toList, rest⟩, [])) := by
  refine .seq (.lit_append w i rest) (.not ?_)
  cases rest with
  | nil => exact .charIfEnd
  | cons c rest => exact .charIfNot (h c rfl)

/-- A literal that name characters follow is not the whole word. -/
theorem Matches.not_wholeWord {e : Peg} {d : Cursor} {ps : List Pair} {c : Cursor}
    (h : Matches .atomic e c (some (d, ps))) (hd : ∃ x ∈ d.rest.head?, isNameChar x = true) :
    Matches .atomic (e ++ Peg.not Host.nameChar) c none := by
  obtain ⟨x, hx, hname⟩ := hd
  obtain ⟨j, cs⟩ := d
  cases cs with
  | nil => simp at hx
  | cons y cs =>
    obtain rfl : y = x := by simpa using hx
    exact .seqSecond h (.notNot (.charIf hname))

theorem head_rest_of_ne {d : Cursor} (hv : IsRun v) (hw : IsRun w)
    (hrest : ∀ c ∈ rest.head?, isNameChar c = false) (hne : w ≠ v)
    (h : v.toList ++ rest = w.toList ++ d.rest) : ∃ x ∈ d.rest.head?, isNameChar x = true := by
  cases hd : d.rest.head? with
  | none =>
    have heq := eq_of_append_eq hv hw hrest (by simp [hd]) h
    exact absurd (String.toList_inj.mp heq).symm hne
  | some x =>
    cases hx : isNameChar x with
    | true => exact ⟨x, rfl, hx⟩
    | false =>
      have heq := eq_of_append_eq hv hw hrest (by simpa [hd] using hx) h
      exact absurd (String.toList_inj.mp heq).symm hne

theorem Matches.wholeWord_none (hv : IsRun v) (hw : IsRun w)
    (hrest : ∀ c ∈ rest.head?, isNameChar c = false) (hne : w ≠ v) :
    Matches .atomic (Host.wholeWord w) ⟨i, v.toList ++ rest⟩ none := by
  cases hd : afterLit w.toList ⟨i, v.toList ++ rest⟩ with
  | none =>
    have h : Matches .atomic (.lit w.toList) ⟨i, v.toList ++ rest⟩ _ := .lit
    rw [hd] at h
    exact .seqFirst h
  | some d =>
    have h : Matches .atomic (.lit w.toList) ⟨i, v.toList ++ rest⟩ _ := .lit
    rw [hd] at h
    exact h.not_wholeWord (head_rest_of_ne hv hw hrest hne (afterLit_eq_some hd))

theorem not_isPrefix_of_head (hw : isPlainKey w = true)
    (hcs : ∀ c ∈ cs.head?, isNameStart c = false) : ¬ w.toList <+: cs := by
  obtain ⟨c, more, heq, hc, -⟩ := isPlainKey_iff.mp hw
  rw [heq]
  rintro ⟨rest, rfl⟩
  have := hcs c rfl
  simp [hc] at this

end Words

section Reserved

variable {s : Style} {v : String} {i : Nat} {rest cs : List Char}

/-- One of several literals matches, or none of them does. -/
theorem Matches.choice_lits (ws : List String) (c : Cursor) :
    (∃ w ∈ ws, ∃ d, c.rest = w.toList ++ d.rest ∧
      Matches s (Host.choice (ws.map Grammar.text)) c (some (d, []))) ∨
    ((∀ w ∈ ws, ¬ w.toList <+: c.rest) ∧ Matches s (Host.choice (ws.map Grammar.text)) c none) := by
  induction ws with
  | nil =>
    refine .inr ⟨by simp, ?_⟩
    obtain ⟨i, cs⟩ := c
    cases cs with
    | nil => exact .charIfEnd
    | cons => exact .charIfNot rfl
  | cons w ws ih =>
    have hlit : Matches s (Grammar.text w) c _ := .lit
    cases hd : afterLit w.toList c with
    | some d =>
      rw [hd] at hlit
      refine .inl ⟨w, List.mem_cons_self, d, afterLit_eq_some hd, ?_⟩
      cases ws with
      | nil => exact hlit
      | cons => exact .altFirst hlit
    | none =>
      rw [hd] at hlit
      have hnot : ¬ w.toList <+: c.rest := by
        rintro ⟨rest, hrest⟩
        have h := afterLit_append w.toList rest c.offset
        rw [hrest] at h
        simp [h] at hd
      cases ws with
      | nil => exact .inr ⟨by simpa using hnot, hlit⟩
      | cons w' ws =>
        rcases ih with ⟨u, hu, d, heq, h⟩ | ⟨hall, h⟩
        · exact .inl ⟨u, List.mem_cons_of_mem _ hu, d, heq, .altSecond hlit h⟩
        · refine .inr ⟨?_, .altSecond hlit h⟩
          intro u hu
          rcases List.mem_cons.mp hu with rfl | hu
          · exact hnot
          · exact hall u hu

theorem isPlainKey_of_mem_reserved : ∀ w ∈ Host.reserved, isPlainKey w = true := by decide

/-- No reserved word begins with another one. -/
theorem eq_of_reserved_prefix : ∀ w ∈ Host.reserved, ∀ v ∈ Host.reserved,
    w.toList <+: v.toList → w = v := by decide

theorem Matches.keyword_none_of_head (hcs : ∀ c ∈ cs.head?, isNameStart c = false) :
    Matches .atomic (.rule .keyword) ⟨i, cs⟩ none := by
  refine .ruleNot (.seqFirst ?_)
  rcases Matches.choice_lits Host.reserved ⟨i, cs⟩ with ⟨w, hw, d, heq, -⟩ | ⟨-, h⟩
  · exact absurd ⟨d.rest, heq.symm⟩ (not_isPrefix_of_head (isPlainKey_of_mem_reserved w hw) hcs)
  · exact h

theorem Matches.keyword_none (hv : IsRun v) (hrest : ∀ c ∈ rest.head?, isNameChar c = false)
    (hfree : v ∉ Host.reserved) : Matches .atomic (.rule .keyword) ⟨i, v.toList ++ rest⟩ none := by
  refine .ruleNot ?_
  rcases Matches.choice_lits Host.reserved ⟨i, v.toList ++ rest⟩ with ⟨w, hw, d, heq, h⟩ | ⟨-, h⟩
  · have hrun := isRun_of_isPlainKey (isPlainKey_of_mem_reserved w hw)
    have hne : w ≠ v := fun h => hfree (h ▸ hw)
    exact h.not_wholeWord (head_rest_of_ne hv hrun hrest hne heq)
  · exact .seqFirst h

theorem Matches.keyword (hrest : ∀ c ∈ rest.head?, isNameChar c = false)
    (hv : v ∈ Host.reserved) : ∃ r, Matches .atomic (.rule .keyword) ⟨i, v.toList ++ rest⟩ (some r) := by
  have hrun := isRun_of_isPlainKey (isPlainKey_of_mem_reserved v hv)
  rcases Matches.choice_lits Host.reserved ⟨i, v.toList ++ rest⟩ with ⟨w, hw, d, heq, h⟩ | ⟨hall, -⟩
  · have hwrun := isRun_of_isPlainKey (isPlainKey_of_mem_reserved w hw)
    have hpre : w.toList <+: v.toList := by
      rcases List.append_eq_append_iff.mp heq with ⟨u, hu, hrest'⟩ | ⟨u, hu, -⟩
      · cases u with
        | nil => exact ⟨[], by simp [hu]⟩
        | cons x u =>
          have hx := hwrun x (by simp [hu])
          simp [hrest x (by simp [hrest'])] at hx
      · exact ⟨u, hu.symm⟩
    have hwv : w = v := eq_of_reserved_prefix w hw v hv hpre
    rw [hwv] at heq
    have hd : rest = d.rest := List.append_cancel_left heq
    rw [hd] at hrest
    refine ⟨_, .rule (.seq h (.not ?_))⟩
    obtain ⟨j, cs⟩ := d
    cases cs with
    | nil => exact .charIfEnd
    | cons c cs => exact .charIfNot (hrest c rfl)
  · exact absurd ⟨rest, rfl⟩ (hall v hv)

end Reserved

/-- The expression reads exactly this token, and its pairs are of the kind `P`. -/
def Spots (e : Peg) (t : Tok) (P : List Pair → Prop) : Prop :=
  ∀ i rest, t.Valid → t.Fits rest → ∃ ps,
    Matches .loose e ⟨i, t.spell ++ rest⟩ (some (⟨i + byteLength t.spell, rest⟩, ps)) ∧ P ps

theorem Spots.takes {e : Peg} {t : Tok} {P : List Pair → Prop} (h : Spots e t P) (ts : List Tok) :
    Takes e (t :: ts) P ts := by
  intro i cs hcs
  cases hcs with
  | @cons _ _ rest _ htrim valid fits more =>
    obtain ⟨ps, hps, hP⟩ := h i rest valid fits
    rw [← htrim] at hps
    exact ⟨_, ps, hps, more, hP⟩

theorem Spots.mono {e : Peg} {t : Tok} {P Q : List Pair → Prop} (h : Spots e t P)
    (hPQ : ∀ ps, P ps → Q ps) : Spots e t Q := by
  intro i rest valid fits
  obtain ⟨ps, hps, hP⟩ := h i rest valid fits
  exact ⟨ps, hps, hPQ ps hP⟩

def IsToken (r : Rule) (w : String) (p : Pair) : Prop := p.rule = r ∧ p.text = w

/-- In front of these tokens the expression reads exactly the first one. -/
def SpotsFirst (e : Peg) (t : Tok) (ts : List Tok) (P : List Pair → Prop) : Prop :=
  ∀ i cs, Lexes cs (t :: ts) → ∃ rest ps, trim cs = t.spell ++ rest ∧ Lexes rest ts ∧
    Matches .loose e ⟨i, trim cs⟩ (some (⟨i + byteLength t.spell, rest⟩, ps)) ∧ P ps

section SpotsFirst

variable {e a b : Peg} {r : Rule} {t : Tok} {ts : List Tok} {P : List Pair → Prop}

theorem Spots.first (h : Spots e t P) (ts : List Tok) : SpotsFirst e t ts P := by
  intro i cs hcs
  cases hcs with
  | @cons _ _ rest _ htrim valid fits more =>
    obtain ⟨ps, hps, hP⟩ := h i rest valid fits
    rw [← htrim] at hps
    exact ⟨rest, ps, htrim, more, hps, hP⟩

theorem SpotsFirst.alt_left (ha : SpotsFirst a t ts P) : SpotsFirst (.alt a b) t ts P := by
  intro i cs hcs
  obtain ⟨rest, ps, htrim, more, hps, hP⟩ := ha i cs hcs
  exact ⟨rest, ps, htrim, more, .altFirst hps, hP⟩

theorem SpotsFirst.alt_right (ha : Fails a (t :: ts)) (hb : SpotsFirst b t ts P) :
    SpotsFirst (.alt a b) t ts P := by
  intro i cs hcs
  obtain ⟨rest, ps, htrim, more, hps, hP⟩ := hb i cs hcs
  exact ⟨rest, ps, htrim, more, .altSecond (ha i cs hcs) hps, hP⟩

theorem SpotsFirst.rule (hr : (host r).1 = .loose) (h : SpotsFirst (host r).2 t ts P) :
    Takes (.rule r) (t :: ts) (One (IsToken r (String.ofList t.spell))) ts := by
  intro i cs hcs
  obtain ⟨rest, ps, htrim, more, hps, -⟩ := h i cs hcs
  have hwithin : Matches (Style.loose.within (host r).1) (host r).2 ⟨i, trim cs⟩
      (some (⟨i + byteLength t.spell, rest⟩, ps)) := by
    rw [hr]
    exact hps
  refine ⟨_, _, .rule hwithin, more, _, rfl, rfl, ?_⟩
  rw [htrim]
  exact Pair.text_mk r i t.spell rest ps

end SpotsFirst

theorem Spots.atomic {r : Rule} {e : Peg} {t : Tok} (hr : host r = (.atomic, e))
    (h : ∀ i rest, t.Valid → t.Fits rest → ∃ ps, Matches .atomic e ⟨i, t.spell ++ rest⟩
      (some (⟨i + byteLength t.spell, rest⟩, ps))) :
    Spots (.rule r) t (One (IsToken r (String.ofList t.spell))) := by
  intro i rest valid fits
  obtain ⟨ps, hps⟩ := h i rest valid fits
  have hwithin : Matches (Style.loose.within (host r).1) (host r).2 ⟨i, t.spell ++ rest⟩
      (some (⟨i + byteLength t.spell, rest⟩, ps)) := by
    rw [hr]
    exact hps
  have hrule := Matches.rule hwithin
  simp only [traceOf, Style.hides] at hrule
  exact ⟨_, hrule, _, rfl, rfl, Pair.text_mk r i t.spell rest ps⟩

def wordOf? : Rule → Option String
  | .word w => some w
  | .exportNamed => some "export"
  | .asyncWord => some "async"
  | .varConst => some "const"
  | .varLet => some "let"
  | .macroTemplate => some "template"
  | .macroDerive => some "derive"
  | .awaitWord => some "await"
  | .voidWord => some "void"
  | .typeofWord => some "typeof"
  | .nullLit => some "null"
  | .thisLit => some "this"
  | _ => none

theorem host_of_wordOf? {r : Rule} {w : String} (h : wordOf? r = some w) :
    host r = (.atomic, Host.wholeWord w) := by
  cases r <;> cases h <;> rfl

theorem spots_word {r : Rule} {w : String} (hr : wordOf? r = some w) :
    Spots (.rule r) (.word w) (One (IsToken r w)) := by
  have hhost := host_of_wordOf? hr
  have h : Spots (.rule r) (.word w) (One (IsToken r (String.ofList w.toList))) := by
    refine Spots.atomic hhost ?_
    intro i rest _ fits
    exact ⟨[], .wholeWord fits⟩
  rwa [String.ofList_toList] at h

theorem spots_identifier {w : String} (hw : w ∉ Host.reserved) :
    Spots (.rule .identifier) (.word w) (One (IsToken .identifier w)) := by
  have h : Spots (.rule .identifier) (.word w) (One (IsToken .identifier (String.ofList w.toList))) := by
    refine Spots.atomic (rfl : host .identifier =
      (.atomic, Peg.not (.rule .keyword) ++ Host.nameStart ++ Peg.star Host.nameChar)) ?_
    intro i rest valid fits
    obtain ⟨c, more, heq, hc, hmore⟩ := isPlainKey_iff.mp valid
    have hkey := Matches.keyword_none (i := i) (isRun_of_isPlainKey valid) fits hw
    rw [heq] at hkey
    rw [Tok.spell_word, heq, byteLength, ← Nat.add_assoc]
    have hstart : Matches .atomic Host.nameStart ⟨i, c :: (more ++ rest)⟩ _ := .charIf hc
    have hrest := (Matches.chars hmore fits (i + c.utf8Size)).star_of_again
    exact ⟨_, .seq (.seq (.not hkey) hstart) hrest⟩
  rwa [String.ofList_toList] at h

theorem spots_propertyName (w : String) :
    Spots (.rule .propertyName) (.word w) (One (IsToken .propertyName w)) := by
  have h : Spots (.rule .propertyName) (.word w)
      (One (IsToken .propertyName (String.ofList w.toList))) := by
    refine Spots.atomic (rfl : host .propertyName =
      (.atomic, Host.nameStart ++ Peg.star Host.nameChar)) ?_
    intro i rest valid fits
    obtain ⟨c, more, heq, hc, hmore⟩ := isPlainKey_iff.mp valid
    rw [Tok.spell_word, heq, byteLength, ← Nat.add_assoc]
    have hstart : Matches .atomic Host.nameStart ⟨i, c :: (more ++ rest)⟩ _ := .charIf hc
    have hrest := (Matches.chars hmore fits (i + c.utf8Size)).star_of_again
    exact ⟨_, .seq hstart hrest⟩
  rwa [String.ofList_toList] at h

theorem Matches.digits {w rest : List Char} (hne : w ≠ []) (hw : ∀ c ∈ w, c.isDigit = true)
    (hrest : ∀ c ∈ rest.head?, c.isDigit = false) (i : Nat) :
    Matches .atomic Host.digit.plus ⟨i, w ++ rest⟩ (some (⟨i + byteLength w, rest⟩, [])) := by
  cases w with
  | nil => exact absurd rfl hne
  | cons c w =>
    have hfirst : Matches .atomic Host.digit ⟨i, c :: (w ++ rest)⟩ _ :=
      .charIf (hw c List.mem_cons_self)
    have hmore := (Matches.chars (fun c hc => hw c (List.mem_cons_of_mem _ hc)) hrest
      (i + c.utf8Size)).star_of_again
    have h := Matches.seq hfirst hmore
    rw [Nat.add_assoc] at h
    exact h

theorem spots_number (digits : String) :
    Spots (.rule .number) (.num digits) (One (IsToken .number digits)) := by
  have h : Spots (.rule .number) (.num digits)
      (One (IsToken .number (String.ofList digits.toList))) := by
    refine Spots.atomic (rfl : host .number =
      (.atomic, Host.digit.plus ++ Peg.opt (text "." ++ Host.digit.plus))) ?_
    intro i rest valid fits
    obtain ⟨whole, part, hne, hwhole, hpart, heq | ⟨heq, hpne⟩⟩ := valid
    · rw [Tok.spell_num, heq]
      refine ⟨_, .seq (.digits hne hwhole fits.1 i) (.optNot ?_)⟩
      cases rest with
      | nil => exact .seqFirst (.lit_none (by simp) _)
      | cons c rest =>
        by_cases hc : c = '.'
        · obtain rfl := hc
          have hdot : Matches .atomic (text ".") ⟨i + byteLength whole, '.' :: rest⟩ _ :=
            .lit_append "." _ rest
          refine .seqSecond hdot (.seqFirst ?_)
          cases rest with
          | nil => exact .charIfEnd
          | cons c rest =>
            have hpoint : '.' ∉ digits.toList := by
              intro hmem
              rw [heq] at hmem
              simpa using hwhole '.' hmem
            exact .charIfNot (fits.2 hpoint c rest rfl)
        · exact .seqFirst (.lit_none (by simp [Ne.symm hc]) _)
    · rw [Tok.spell_num, heq, List.append_assoc, List.cons_append]
      have hfirst : Matches .atomic Host.digit.plus ⟨i, whole ++ '.' :: (part ++ rest)⟩ _ :=
        .digits hne hwhole (by simp) i
      have hdot : Matches .atomic (text ".") ⟨i + byteLength whole, '.' :: (part ++ rest)⟩ _ :=
        .lit_append "." _ (part ++ rest)
      have hpart := Matches.digits hpne hpart fits.1 (i + byteLength whole + byteLength ['.'])
      have h := Matches.seq hfirst (.opt (.seq hdot hpart))
      have hlen : byteLength (whole ++ '.' :: part) =
          byteLength whole + byteLength ['.'] + byteLength part := by
        rw [Text.byteLength_append, Nat.add_assoc]
        simp [byteLength]
      rw [hlen, ← Nat.add_assoc, ← Nat.add_assoc]
      exact ⟨_, h⟩
  rwa [String.ofList_toList] at h

theorem spots_boolean (b : Bool) :
    Spots (.rule .boolean) (.word (if b then "true" else "false"))
      (One (IsToken .boolean (if b then "true" else "false"))) := by
  have h : Spots (.rule .boolean) (.word (if b then "true" else "false"))
      (One (IsToken .boolean (String.ofList (if b then "true" else "false").toList))) := by
    refine Spots.atomic (rfl : host .boolean =
      (.atomic, Peg.alt (text "true") (text "false") ++ Peg.not Host.nameChar)) ?_
    intro i rest _ fits
    have hend : ∀ j, Matches .atomic (Peg.not Host.nameChar) ⟨j, rest⟩ (some (⟨j, rest⟩, [])) := by
      intro j
      refine .not ?_
      cases rest with
      | nil => exact .charIfEnd
      | cons c rest => exact .charIfNot (fits c rfl)
    cases b with
    | true => exact ⟨_, .seq (.altFirst (.lit_append "true" i rest)) (hend _)⟩
    | false =>
      have hnot : Matches .atomic (text "true") ⟨i, "false".toList ++ rest⟩ none :=
        .lit_none (by simp [show "true".toList = ['t', 'r', 'u', 'e'] from rfl,
          show "false".toList = ['f', 'a', 'l', 's', 'e'] from rfl]) i
      exact ⟨_, .seq (.altSecond hnot (.lit_append "false" i rest)) (hend _)⟩
  rwa [String.ofList_toList] at h

theorem spots_exportDefault :
    Spots (.rule .exportDefault) .exportDefault (One fun p => p.rule = .exportDefault) := by
  have h : Spots (.rule .exportDefault) .exportDefault
      (One (IsToken .exportDefault (String.ofList Tok.exportDefault.spell))) := by
    refine Spots.atomic (rfl : host .exportDefault =
      (.atomic, text "export" ++ Host.blank.plus ++ Host.wholeWord "default")) ?_
    intro i rest _ fits
    have hexport := Matches.lit_append (s := .atomic) "export" i (' ' :: ("default".toList ++ rest))
    have hblank : Matches .atomic Host.blank ⟨_, ' ' :: ("default".toList ++ rest)⟩ _ :=
      .charIf (i := i + byteLength "export".toList) (by decide)
    have hmore : Matches .atomic (.star Host.blank)
        ⟨i + byteLength "export".toList + ' '.utf8Size, "default".toList ++ rest⟩
        (some (⟨_, "default".toList ++ rest⟩, [])) := .starNot (.charIfNot (by decide))
    have hword := Matches.wholeWord (w := "default")
      (i := i + byteLength "export".toList + ' '.utf8Size) fits
    exact ⟨_, .seq (.seq hexport (.seq hblank hmore)) hword⟩
  refine h.mono ?_
  rintro ps ⟨p, rfl, hp⟩
  exact ⟨p, rfl, hp.1⟩

end MacroEngine.Grammar
