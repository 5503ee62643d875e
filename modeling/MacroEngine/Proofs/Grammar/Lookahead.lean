import MacroEngine.Proofs.Grammar.Delimited

/-!
# Deciding by the next tokens

Which alternative of the grammar applies is settled by a few tokens. `look` evaluates an expression
on what is known of the next tokens; where it says that the expression fails, it does, on every text
that begins with such tokens. So that the alternatives in front of the right one fail is found by
evaluation.
-/

namespace MacroEngine.Grammar

open Printer (isNameChar isNameStart isPlainKey)

def Tok.run? : Tok → Option String
  | .word w => some w
  | .exportDefault => some "export"
  | _ => none

/-- Every text of the token begins with a character that is not accepted. -/
def Tok.Avoids (accepts : Char → Bool) (t : Tok) : Prop :=
  t.Valid → ∀ c ∈ t.spell.head?, accepts c = false

def initial (r : Rule) : Option (Char → Bool) :=
  match wordOf? r with
  | some w => if isPlainKey w then some isNameStart else none
  | none =>
    match r with
    | .identifier | .propertyName | .exportDefault | .boolean => some isNameStart
    | .number => some Char.isDigit
    | .string => some fun c => c = '"' || c = '\''
    | .template => some fun c => c = '`'
    | _ => none

section Failures

variable {r : Rule} {t : Tok} {ts : List Tok} {v w : String} {cs : List Char} {i : Nat}

theorem Matches.rule_none {s : Style} {e : Peg} {c : Cursor} (hr : host r = (s, e))
    (h : Matches (Style.loose.within s) e c none) : Matches .loose (.rule r) c none := by
  refine .ruleNot ?_
  rw [hr]
  exact h

theorem Matches.rule_some {s : Style} {e : Peg} {c d : Cursor} {ps : List Pair}
    (hr : host r = (s, e)) (h : Matches (Style.loose.within s) e c (some (d, ps))) :
    Matches .loose (.rule r) c (some (d, [.mk r c.offset d.offset c.rest ps])) := by
  have hbody : Matches (Style.loose.within (host r).1) (host r).2 c (some (d, ps)) := by
    rw [hr]
    exact h
  exact .rule hbody

theorem host_identifier : host .identifier =
    (.atomic, Peg.not (.rule .keyword) ++ Host.nameStart ++ Peg.star Host.nameChar) := rfl

theorem host_propertyName : host .propertyName =
    (.atomic, Host.nameStart ++ Peg.star Host.nameChar) := rfl

theorem host_exportDefault : host .exportDefault =
    (.atomic, text "export" ++ Host.blank.plus ++ Host.wholeWord "default") := rfl

theorem host_boolean : host .boolean =
    (.atomic, Peg.alt (text "true") (text "false") ++ Peg.not Host.nameChar) := rfl

theorem host_number : host .number =
    (.atomic, Host.digit.plus ++ Peg.opt (text "." ++ Host.digit.plus)) := rfl

/-- A rule for a token fails in front of a character that it cannot begin with. -/
theorem Matches.initial_none {accepts : Char → Bool} (hr : initial r = some accepts)
    (hcs : ∀ c ∈ cs.head?, accepts c = false) : Matches .loose (.rule r) ⟨i, cs⟩ none := by
  have hstart : Matches .atomic (.charIf accepts) ⟨i, cs⟩ none := by
    cases cs with
    | nil => exact .charIfEnd
    | cons c cs => exact .charIfNot (hcs c rfl)
  have hlit {w : String} {x : Char} (hw : w.toList = [x]) (hx : accepts x = true) :
      Matches .compound (text w) ⟨i, cs⟩ none := by
    refine .lit_none ?_ i
    rw [hw]
    rintro ⟨rest, rfl⟩
    have := hcs x rfl
    simp [hx] at this
  have hword {w : String} (hw : isPlainKey w = true) (h : accepts = isNameStart) :
      Matches .atomic (text w) ⟨i, cs⟩ none := .lit_none (not_isPrefix_of_head hw (h ▸ hcs)) i
  unfold initial at hr
  split at hr
  · rename_i w hw
    split at hr
    · rename_i hplain
      exact .rule_none (host_of_wordOf? hw) (.seqFirst (hword hplain (Option.some.inj hr).symm))
    · simp at hr
  · split at hr
    · obtain rfl := Option.some.inj hr
      exact .rule_none host_identifier
        (.seqFirst (.seqSecond (.not (.keyword_none_of_head hcs)) hstart))
    · obtain rfl := Option.some.inj hr
      exact .rule_none host_propertyName (.seqFirst hstart)
    · have h := (Option.some.inj hr).symm
      exact .rule_none host_exportDefault (.seqFirst (.seqFirst (hword (by decide) h)))
    · have h := (Option.some.inj hr).symm
      exact .rule_none host_boolean
        (.seqFirst (.altSecond (hword (by decide) h) (hword (by decide) h)))
    · obtain rfl := Option.some.inj hr
      exact .rule_none host_number (.seqFirst (.seqFirst hstart))
    · obtain rfl := Option.some.inj hr
      exact .rule_none host_string
        (.altSecond (.seqFirst (.seqFirst (hlit rfl rfl))) (.seqFirst (.seqFirst (hlit rfl rfl))))
    · obtain rfl := Option.some.inj hr
      exact .rule_none host_template (.seqFirst (.seqFirst (hlit rfl rfl)))
    · simp at hr

theorem Tok.spell_ne_nil (h : t.Valid) : t.spell ≠ [] := by
  cases t with
  | word w =>
    obtain ⟨c, more, hw, -⟩ := isPlainKey_iff.mp h
    simp [hw]
  | exportDefault => decide
  | num digits =>
    obtain ⟨whole, part, hne, -, -, heq | ⟨heq, -⟩⟩ := h
    all_goals simp [heq, hne]
  | op o => cases o <;> decide
  | str | tmpl | sym | eq | arrow => simp

theorem fails_of_avoids {accepts : Char → Bool} (hr : initial r = some accepts)
    (ht : t.Avoids accepts) : Fails (.rule r) (t :: ts) := by
  intro i cs hcs
  cases hcs with
  | @cons _ _ rest _ htrim valid _ _ =>
    refine Matches.initial_none hr ?_
    rw [htrim]
    have hhead := ht valid
    cases hspell : t.spell with
    | nil => exact absurd hspell (Tok.spell_ne_nil valid)
    | cons c cs =>
      rw [hspell] at hhead
      exact hhead

theorem fails_nil {accepts : Char → Bool} (hr : initial r = some accepts) :
    Fails (.rule r) [] := by
  intro i cs hcs
  cases hcs with
  | nil htrim =>
    rw [htrim]
    exact Matches.initial_none hr (by simp)

theorem exists_run (h : Lexes cs (t :: ts)) (ht : t.run? = some v) :
    ∃ rest, trim cs = v.toList ++ rest ∧ IsRun v ∧ ∀ c ∈ rest.head?, isNameChar c = false := by
  cases h with
  | @cons _ _ rest _ htrim valid fits _ =>
    cases t with
    | word w =>
      obtain rfl := Option.some.inj ht
      exact ⟨rest, htrim, isRun_of_isPlainKey valid, fits⟩
    | exportDefault =>
      obtain rfl := Option.some.inj ht
      have hspell : Tok.exportDefault.spell = "export".toList ++ " default".toList := by decide
      rw [hspell, List.append_assoc] at htrim
      exact ⟨_, htrim, by decide, by simp; decide⟩
    | _ => simp [Tok.run?] at ht

theorem fails_word (hr : wordOf? r = some w) (hw : isPlainKey w = true) (ht : t.run? = some v)
    (hne : v ≠ w) : Fails (.rule r) (t :: ts) := by
  intro i cs hcs
  obtain ⟨rest, htrim, hv, hrest⟩ := exists_run hcs ht
  rw [htrim]
  exact .rule_none (host_of_wordOf? hr)
    (.wholeWord_none hv (isRun_of_isPlainKey hw) hrest hne.symm)

theorem fails_identifier (ht : t.run? = some v) (hv : v ∈ Host.reserved) :
    Fails (.rule .identifier) (t :: ts) := by
  intro i cs hcs
  obtain ⟨rest, htrim, -, hrest⟩ := exists_run hcs ht
  rw [htrim]
  obtain ⟨r, hkey⟩ := Matches.keyword (i := i) hrest hv
  exact .rule_none host_identifier (.seqFirst (.seqFirst (.notNot hkey)))

theorem fails_boolean (ht : t.run? = some v) (htrue : v ≠ "true") (hfalse : v ≠ "false") :
    Fails (.rule .boolean) (t :: ts) := by
  intro i cs hcs
  obtain ⟨rest, htrim, hv, hrest⟩ := exists_run hcs ht
  rw [htrim]
  refine .rule_none host_boolean ?_
  have hlit {w : String} (hw : IsRun w) (hne : v ≠ w) :
      Matches .atomic (text w) ⟨i, v.toList ++ rest⟩ none ∨
        ∃ d, Matches .atomic (text w) ⟨i, v.toList ++ rest⟩ (some (d, [])) ∧
          ∃ x ∈ d.rest.head?, isNameChar x = true := by
    have h : Matches .atomic (text w) ⟨i, v.toList ++ rest⟩ _ := .lit
    cases hd : afterLit w.toList ⟨i, v.toList ++ rest⟩ with
    | none =>
      rw [hd] at h
      exact .inl h
    | some d =>
      rw [hd] at h
      exact .inr ⟨d, h, head_rest_of_ne hv hw hrest hne.symm (afterLit_eq_some hd)⟩
  rcases hlit (by decide) htrue with h | ⟨d, h, hd⟩
  · rcases hlit (by decide) hfalse with h' | ⟨d, h', hd⟩
    · exact .seqFirst (.altSecond h h')
    · exact Matches.not_wholeWord (.altSecond h h') hd
  · exact Matches.not_wholeWord (.altFirst h) hd

theorem trim_of_not_blank {c : Char} (h : (c = ' ' || c = '\t' || c = '\r' || c = '\n') = false)
    (hc : c ≠ '/') (cs : List Char) : trim (c :: cs) = c :: cs := by
  unfold trim skipGap
  split
  · simp_all
  · rename_i heq
    exact absurd (List.cons.inj heq).1 hc
  · rename_i heq
    exact absurd (List.cons.inj heq).1 hc
  · rename_i heq
    obtain ⟨rfl, rfl⟩ := List.cons.inj heq
    rw [h]
    rfl

theorem trim_blank {c : Char} (h : (c = ' ' || c = '\t' || c = '\r' || c = '\n') = true)
    (cs : List Char) : trim (c :: cs) = trim cs := by
  change (skipGap 0 (c :: cs)).rest = trim cs
  unfold skipGap
  split
  · simp_all
  · rename_i heq
    obtain ⟨rfl, rfl⟩ := List.cons.inj heq
    simp at h
  · rename_i heq
    obtain ⟨rfl, rfl⟩ := List.cons.inj heq
    simp at h
  · rename_i heq
    obtain ⟨rfl, rfl⟩ := List.cons.inj heq
    rw [if_pos h]
    exact rest_skipGap 1 0 cs

theorem fails_exportDefault (ht : t.run? = some v) (hne : v ≠ "export") :
    Fails (.rule .exportDefault) (t :: ts) := by
  intro i cs hcs
  obtain ⟨rest, htrim, hv, hrest⟩ := exists_run hcs ht
  rw [htrim]
  refine .rule_none host_exportDefault (.seqFirst ?_)
  have h : Matches .atomic (text "export") ⟨i, v.toList ++ rest⟩ _ := .lit
  cases hd : afterLit "export".toList ⟨i, v.toList ++ rest⟩ with
  | none =>
    rw [hd] at h
    exact .seqFirst h
  | some d =>
    rw [hd] at h
    obtain ⟨x, hx, hname⟩ := head_rest_of_ne hv (by decide) hrest hne.symm (afterLit_eq_some hd)
    refine .seqSecond h (.seqFirst ?_)
    obtain ⟨j, ds⟩ := d
    cases ds with
    | nil => simp at hx
    | cons y ds =>
      obtain rfl : y = x := by simpa using hx
      refine .charIfNot ?_
      simp only [Bool.or_eq_false_iff, decide_eq_false_iff_not]
      refine ⟨⟨⟨?_, ?_⟩, ?_⟩, ?_⟩ <;> rintro rfl <;> revert hname <;> decide

theorem fails_exportDefault_of_second (hdefault : Fails (.rule (.word "default")) ts) :
    Fails (.rule .exportDefault) (.word "export" :: ts) := by
  intro i cs hcs
  cases hcs with
  | @cons _ _ rest _ htrim _ _ more =>
    have hword : ∀ j, Matches .atomic (Host.wholeWord "default") ⟨j, trim rest⟩ none := by
      intro j
      cases hdefault j rest more with
      | ruleNot h => exact h
    rw [htrim]
    refine .rule_none host_exportDefault ?_
    have hexport : Matches .atomic (text "export") ⟨i, "export".toList ++ rest⟩ _ :=
      .lit_append "export" i rest
    -- The blanks are all read, and then no gap is left in front of the second word.
    have hblanks : ∀ (bs : List Char) (j : Nat), trim bs = trim rest →
        ∃ d ps, Matches .atomic (.again Host.blank) ⟨j, bs⟩ (some (d, ps)) ∧
          Matches .atomic (Host.wholeWord "default") d none := by
      intro bs
      induction bs with
      | nil =>
        intro j _
        refine ⟨_, _, .againNot .charIfEnd, .seqFirst (.lit_none (by decide) j)⟩
      | cons b bs ih =>
        intro j hbs
        cases hb : (b = ' ' || b = '\t' || b = '\r' || b = '\n' : Bool) with
        | true =>
          rw [trim_blank hb] at hbs
          obtain ⟨d, ps, hd, hnot⟩ := ih (j + b.utf8Size) hbs
          exact ⟨d, _, .again (.charIf hb) hd, hnot⟩
        | false =>
          refine ⟨_, _, .againNot (.charIfNot hb), ?_⟩
          by_cases hpre : "default".toList <+: b :: bs
          · obtain ⟨more, hmore⟩ := hpre
            have hd : b = 'd' := (List.cons.inj hmore).1.symm
            rw [trim_of_not_blank hb (by rw [hd]; decide)] at hbs
            rw [hbs]
            exact hword j
          · exact .seqFirst (.lit_none hpre j)
    obtain ⟨d, ps, hd, hnot⟩ := hblanks rest (i + Text.byteLength "export".toList) rfl
    cases hd with
    | againNot h => exact .seqFirst (.seqSecond hexport (.seqFirst h))
    | again first more =>
      exact .seqSecond (.seq hexport (.seq first more.star_of_again)) hnot

theorem not_isNameStart_of_isDigit {c : Char} (h : c.isDigit = true) : isNameStart c = false := by
  have hc : 48 ≤ c.val.toNat ∧ c.val.toNat ≤ 57 := by
    simpa [Char.isDigit, UInt32.le_iff_toNat_le] using h
  have hne : ∀ x : Char, 57 < x.val.toNat ∨ x.val.toNat < 48 → c ≠ x := by
    rintro x hx rfl
    omega
  change (((('A'.val ≤ c.val ∧ c.val ≤ 'Z'.val : Bool) || ('a'.val ≤ c.val && c.val ≤ 'z'.val)) ||
    c = '_') || c = '$') = false
  simp only [Bool.or_eq_false_iff, Bool.and_eq_false_iff, decide_eq_false_iff_not,
    UInt32.le_iff_toNat_le]
  have hupper : 'A'.val.toNat = 65 := rfl
  have hlower : 'a'.val.toNat = 97 := rfl
  exact ⟨⟨⟨by omega, by omega⟩, hne '_' (by decide)⟩, hne '$' (by decide)⟩

theorem not_isNameStart_of_not_isNameChar {c : Char} (h : isNameChar c = false) :
    isNameStart c = false :=
  Bool.eq_false_iff.mpr fun hc => Bool.eq_false_iff.mp h (isNameChar_of_isNameStart hc)

theorem not_isDigit_of_not_isNameChar {c : Char} (h : isNameChar c = false) :
    c.isDigit = false := by
  simp only [isNameChar, Char.isAlphanum, Bool.or_eq_false_iff] at h
  exact h.1.1.2

theorem not_isNameChar_of_op {o : BinaryOp} {c : Char} (h : c ∈ (Tok.op o).spell.head?) :
    isNameChar c = false := by
  cases o <;> obtain rfl := Option.some.inj h <;> decide

theorem Tok.run_head (ht : t.run? = some v) (valid : t.Valid) :
    ∀ c ∈ t.spell.head?, isNameStart c = true := by
  cases t with
  | word w =>
    obtain ⟨c, more, hw, hc, -⟩ := isPlainKey_iff.mp valid
    simpa [hw] using hc
  | exportDefault =>
    rintro c ⟨⟩
    decide
  | _ => simp [Tok.run?] at ht

theorem Tok.num_head {digits : String} (valid : (Tok.num digits).Valid) :
    ∀ c ∈ (Tok.num digits).spell.head?, c.isDigit = true := by
  obtain ⟨whole, part, hne, hwhole, -, heq⟩ := valid
  obtain ⟨c, more, rfl⟩ := List.exists_cons_of_ne_nil hne
  rcases heq with heq | ⟨heq, -⟩ <;> simpa [heq] using hwhole c List.mem_cons_self

theorem Tok.avoids_isNameStart (ht : t.run? = none) : t.Avoids isNameStart := by
  intro valid
  cases t with
  | word | exportDefault => simp [Tok.run?] at ht
  | num digits => exact fun c hc => not_isNameStart_of_isDigit (Tok.num_head valid c hc)
  | sym c => simpa using not_isNameStart_of_not_isNameChar (isNameChar_of_mem_signs valid)
  | op o => exact fun c hc => not_isNameStart_of_not_isNameChar (not_isNameChar_of_op hc)
  | str | tmpl | eq | arrow => simp; decide

theorem Tok.avoids_isDigit (ht : ∀ digits, t ≠ .num digits) : t.Avoids Char.isDigit := by
  intro valid
  have hname : ∀ v, t.run? = some v → ∀ c ∈ t.spell.head?, c.isDigit = false := by
    intro v hv c hc
    have hstart := Tok.run_head hv valid c hc
    cases hdigit : c.isDigit with
    | false => rfl
    | true => simp [not_isNameStart_of_isDigit hdigit] at hstart
  cases t with
  | word w => exact hname w rfl
  | exportDefault => exact hname _ rfl
  | num digits => exact absurd rfl (ht digits)
  | sym c => simpa using not_isDigit_of_not_isNameChar (isNameChar_of_mem_signs valid)
  | op o => exact fun c hc => not_isDigit_of_not_isNameChar (not_isNameChar_of_op hc)
  | str | tmpl | eq | arrow => simp

/-- No name and no number begins with a sign that stands around a literal. -/
theorem Tok.avoids_delimiter {x : Char} (hname : isNameStart x = false) (hdigit : x.isDigit = false)
    (hsign : x ∉ signs) (hop : ∀ o : BinaryOp, t = .op o → x ∉ o.token.toList) (heq : x ≠ '=')
    (hstr : x = '"' → ∀ v, t ≠ .str v) (htmpl : x = '`' → ∀ raw, t ≠ .tmpl raw) :
    t.Avoids fun c => c = x := by
  intro valid c hc
  simp only [decide_eq_false_iff_not]
  rintro rfl
  cases t with
  | word w => simp [Tok.run_head rfl valid c hc] at hname
  | exportDefault => simp [Tok.run_head rfl valid c hc] at hname
  | num digits => simp [Tok.num_head valid c hc] at hdigit
  | str v => exact hstr (by simpa [eq_comm] using hc) v rfl
  | tmpl raw => exact htmpl (by simpa [eq_comm] using hc) raw rfl
  | sym y =>
    obtain rfl : y = c := by simpa using hc
    exact hsign valid
  | op o => exact hop o rfl (List.mem_of_mem_head? hc)
  | eq | arrow => exact heq (by simpa [eq_comm] using hc)

end Failures

inductive Look where
  /-- A word that is an identifier. -/
  | name
  | word (w : String)
  | exportDefault
  | num
  | str
  | tmpl
  | sym (c : Char)
  | op (o : BinaryOp)
  | eq
  | arrow
  /-- There is none. -/
  | done
deriving DecidableEq

def Look.Is : Look → Tok → Prop
  | name, .word w => w ∉ Host.reserved
  | word w, .word w' => w' = w
  | exportDefault, .exportDefault | num, .num _ | str, .str _ | tmpl, .tmpl _ | eq, .eq
  | arrow, .arrow => True
  | sym c, .sym c' => c' = c
  | op o, .op o' => o' = o
  | _, _ => False

def Sees : List Look → List Tok → Prop
  | [], _ => True
  | .done :: _, ts => ts = []
  | _ :: _, [] => False
  | h :: hs, t :: ts => h.Is t ∧ Sees hs ts

/-- Whether a literal is this token; nothing where a part of the token may match. -/
def litLook (text : List Char) : Look → Option Bool
  | .sym c => if text = [c] then some true else if text.head? = some c then none else some false
  | .op o => spaced o.token.toList
  | .eq => spaced ['=']
  | .arrow => spaced ['=', '>']
  | .name | .word _ | .exportDefault => avoids isNameStart
  | .num => avoids Char.isDigit
  | .str => avoids fun c => c = '"'
  | .tmpl => avoids fun c => c = '`'
  | .done => some false
where
  spaced (spelling : List Char) : Option Bool :=
    if text = spelling then some true
    else if text <+: spelling ++ [' '] ∨ spelling ++ [' '] <+: text then none else some false
  avoids (accepts : Char → Bool) : Option Bool :=
    if text.head?.any accepts then none else some false

/-- Whether a rule for a token reads this token; nothing if that is not known or the rule is not one
for a token. -/
def tokenLook (r : Rule) (h : Look) : Option Bool :=
  match wordOf? r with
  | some w =>
    if isPlainKey w then
      match h with
      | .word v => some (v = w)
      | .name => if w ∈ Host.reserved then some false else none
      | .exportDefault => if w = "export" then none else some false
      | _ => some false
    else none
  | none =>
    match r, h with
    | .identifier, .name => some true
    | .identifier, .word w => some (w ∉ Host.reserved)
    | .identifier, _ => some false
    | .propertyName, .name | .propertyName, .word _ => some true
    | .propertyName, .exportDefault => none
    | .propertyName, _ => some false
    | .boolean, .word w => some (w = "true" || w = "false")
    | .boolean, _ => some false
    | .number, h => some (h = .num)
    | .string, h => some (h = .str)
    | .template, h => some (h = .tmpl)
    | _, _ => none

/-- A token that begins with no name character. -/
def Look.isSign : Look → Bool
  | .name | .word _ | .exportDefault => false
  | _ => true

section Soundness

variable {r : Rule} {h : Look} {hs : List Look} {t : Tok} {ts : List Tok}

theorem sees_cons (hsees : Sees (h :: hs) ts) :
    (h = .done ∧ ts = []) ∨ ∃ t ts', ts = t :: ts' ∧ h.Is t ∧ Sees hs ts' := by
  cases h with
  | done => exact .inl ⟨rfl, hsees⟩
  | _ =>
    cases ts with
    | nil => exact hsees.elim
    | cons t ts => exact .inr ⟨t, ts, rfl, hsees⟩

theorem Look.Is.run?_eq_none (ht : h.Is t) (hsign : h.isSign = true) : t.run? = none := by
  cases h <;> cases t <;> simp_all [Look.Is, Look.isSign, Tok.run?]

theorem fails_of_isSign (hr : initial r = some isNameStart) (hsign : h.isSign = true)
    (hsees : Sees (h :: hs) ts) : Fails (.rule r) ts := by
  rcases sees_cons hsees with ⟨-, rfl⟩ | ⟨t, ts, rfl, ht, -⟩
  · exact fails_nil hr
  · exact fails_of_avoids hr (Tok.avoids_isNameStart (ht.run?_eq_none hsign))

theorem fails_number (hne : h ≠ .num) (hsees : Sees (h :: hs) ts) : Fails (.rule .number) ts := by
  rcases sees_cons hsees with ⟨-, rfl⟩ | ⟨t, ts, rfl, ht, -⟩
  · exact fails_nil rfl
  · refine fails_of_avoids rfl (Tok.avoids_isDigit ?_)
    rintro digits rfl
    cases h <;> simp_all [Look.Is]

theorem fails_string (hne : h ≠ .str) (hsees : Sees (h :: hs) ts) : Fails (.rule .string) ts := by
  rcases sees_cons hsees with ⟨-, rfl⟩ | ⟨t, ts, rfl, ht, -⟩
  · exact fails_nil rfl
  · have hstr : ∀ v, t ≠ .str v := by
      rintro v rfl
      cases h <;> simp_all [Look.Is]
    refine fails_of_avoids rfl ?_
    intro valid c hc
    have hdouble := Tok.avoids_delimiter (t := t) (x := '"') (by decide) (by decide) (by decide)
      (by rintro (_ | _) - <;> decide) (by decide) (fun _ => hstr) (fun h => absurd h (by decide))
      valid c hc
    have hsingle := Tok.avoids_delimiter (t := t) (x := '\'') (by decide) (by decide) (by decide)
      (by rintro (_ | _) - <;> decide) (by decide) (fun h => absurd h (by decide))
      (fun h => absurd h (by decide)) valid c hc
    simp_all

theorem fails_template (hne : h ≠ .tmpl) (hsees : Sees (h :: hs) ts) :
    Fails (.rule .template) ts := by
  rcases sees_cons hsees with ⟨-, rfl⟩ | ⟨t, ts, rfl, ht, -⟩
  · exact fails_nil rfl
  · have htmpl : ∀ raw, t ≠ .tmpl raw := by
      rintro raw rfl
      cases h <;> simp_all [Look.Is]
    refine fails_of_avoids rfl (Tok.avoids_delimiter (by decide) (by decide) (by decide) ?_
      (by decide) (fun h => absurd h (by decide)) (fun _ => htmpl))
    rintro (_ | _) - <;> decide

theorem sees_word {v : String} (hsees : Sees (.word v :: hs) ts) :
    ∃ ts', ts = .word v :: ts' ∧ Sees hs ts' := by
  obtain ⟨hdone, -⟩ | ⟨t, ts, rfl, ht, hmore⟩ := sees_cons hsees
  · cases hdone
  · cases t with
    | word =>
      obtain rfl := ht
      exact ⟨ts, rfl, hmore⟩
    | _ => exact ht.elim

theorem sees_name (hsees : Sees (.name :: hs) ts) :
    ∃ v ts', ts = .word v :: ts' ∧ v ∉ Host.reserved ∧ Sees hs ts' := by
  obtain ⟨hdone, -⟩ | ⟨t, ts, rfl, ht, hmore⟩ := sees_cons hsees
  · cases hdone
  · cases t with
    | word v => exact ⟨v, ts, rfl, ht, hmore⟩
    | _ => exact ht.elim

theorem sees_exportDefault (hsees : Sees (.exportDefault :: hs) ts) :
    ∃ ts', ts = .exportDefault :: ts' ∧ Sees hs ts' := by
  obtain ⟨hdone, -⟩ | ⟨t, ts, rfl, ht, hmore⟩ := sees_cons hsees
  · cases hdone
  · cases t with
    | exportDefault => exact ⟨ts, rfl, hmore⟩
    | _ => exact ht.elim

theorem tokenLook_fails (hlook : tokenLook r h = some false) (hsees : Sees (h :: hs) ts) :
    Fails (.rule r) ts := by
  unfold tokenLook at hlook
  split at hlook
  · rename_i w hw
    split at hlook
    · rename_i hplain
      have hinitial : initial r = some isNameStart := by simp [initial, hw, hplain]
      cases h with
      | word v =>
        obtain ⟨ts, rfl, -⟩ := sees_word hsees
        exact fails_word hw hplain rfl (by simpa using hlook)
      | name =>
        obtain ⟨v, ts, rfl, hv, -⟩ := sees_name hsees
        have hmem : w ∈ Host.reserved := by simpa using hlook
        exact fails_word hw hplain rfl fun heq => hv (heq ▸ hmem)
      | exportDefault =>
        obtain ⟨ts, rfl, -⟩ := sees_exportDefault hsees
        have hne : w ≠ "export" := by simpa using hlook
        exact fails_word hw hplain rfl hne.symm
      | _ => exact fails_of_isSign hinitial rfl hsees
    · simp at hlook
  · split at hlook
    · simp at hlook
    · obtain ⟨ts, rfl, -⟩ := sees_word hsees
      exact fails_identifier rfl (by simpa using hlook)
    · cases h with
      | exportDefault =>
        obtain ⟨ts, rfl, -⟩ := sees_exportDefault hsees
        exact fails_identifier rfl (by decide)
      | name | word => simp_all
      | _ => exact fails_of_isSign rfl rfl hsees
    · simp at hlook
    · simp at hlook
    · simp at hlook
    · cases h with
      | name | word | exportDefault => simp_all
      | _ => exact fails_of_isSign rfl rfl hsees
    · obtain ⟨ts, rfl, -⟩ := sees_word hsees
      rename_i v _
      have hne : v ≠ "true" ∧ v ≠ "false" := by simpa using hlook
      exact fails_boolean rfl hne.1 hne.2
    · cases h with
      | name =>
        obtain ⟨v, ts, rfl, hv, -⟩ := sees_name hsees
        refine fails_boolean rfl ?_ ?_ <;> rintro rfl <;> exact hv (by decide)
      | exportDefault =>
        obtain ⟨ts, rfl, -⟩ := sees_exportDefault hsees
        exact fails_boolean rfl (by decide) (by decide)
      | word => simp_all
      | _ => exact fails_of_isSign rfl rfl hsees
    · exact fails_number (by simpa using hlook) hsees
    · exact fails_string (by simpa using hlook) hsees
    · exact fails_template (by simpa using hlook) hsees
    · simp at hlook

theorem tokenLook_takes (hlook : tokenLook r h = some true) (hsees : Sees (h :: hs) ts) :
    ∃ P ts', Takes (.rule r) ts P ts' ∧ Sees hs ts' := by
  unfold tokenLook at hlook
  split at hlook
  · rename_i w hw
    split at hlook
    · split at hlook
      · obtain ⟨ts, rfl, hmore⟩ := sees_word hsees
        obtain rfl := of_decide_eq_true (Option.some.inj hlook)
        exact ⟨_, ts, (spots_word hw).takes ts, hmore⟩
      · split at hlook <;> simp at hlook
      · split at hlook <;> simp at hlook
      · simp at hlook
    · simp at hlook
  · split at hlook
    · obtain ⟨v, ts, rfl, hv, hmore⟩ := sees_name hsees
      exact ⟨_, ts, (spots_identifier hv).takes ts, hmore⟩
    · obtain ⟨ts, rfl, hmore⟩ := sees_word hsees
      exact ⟨_, ts, (spots_identifier (by simpa using hlook)).takes ts, hmore⟩
    · simp at hlook
    · obtain ⟨v, ts, rfl, -, hmore⟩ := sees_name hsees
      exact ⟨_, ts, (spots_propertyName v).takes ts, hmore⟩
    · obtain ⟨ts, rfl, hmore⟩ := sees_word hsees
      exact ⟨_, ts, (spots_propertyName _).takes ts, hmore⟩
    · simp at hlook
    · simp at hlook
    · obtain ⟨ts, rfl, hmore⟩ := sees_word hsees
      rename_i v _
      have hb : v = "true" ∨ v = "false" := by simpa using hlook
      rcases hb with rfl | rfl
      · exact ⟨_, ts, (spots_boolean true).takes ts, hmore⟩
      · exact ⟨_, ts, (spots_boolean false).takes ts, hmore⟩
    · simp at hlook
    · obtain rfl := of_decide_eq_true (Option.some.inj hlook)
      obtain ⟨hdone, -⟩ | ⟨t, ts, rfl, ht, hmore⟩ := sees_cons hsees
      · cases hdone
      · cases t with
        | num digits => exact ⟨_, ts, (spots_number digits).takes ts, hmore⟩
        | _ => exact ht.elim
    · obtain rfl := of_decide_eq_true (Option.some.inj hlook)
      obtain ⟨hdone, -⟩ | ⟨t, ts, rfl, ht, hmore⟩ := sees_cons hsees
      · cases hdone
      · cases t with
        | str v => exact ⟨_, ts, (spots_string v).takes ts, hmore⟩
        | _ => exact ht.elim
    · obtain rfl := of_decide_eq_true (Option.some.inj hlook)
      obtain ⟨hdone, -⟩ | ⟨t, ts, rfl, ht, hmore⟩ := sees_cons hsees
      · cases hdone
      · cases t with
        | tmpl raw => exact ⟨_, ts, (spots_template raw).takes ts, hmore⟩
        | _ => exact ht.elim
    · simp at hlook

theorem spots_lit (t : Tok) : Spots (.lit t.spell) t Nil := by
  intro i rest _ _
  have hlit : Matches .loose (.lit t.spell) ⟨i, t.spell ++ rest⟩ _ := .lit
  rw [afterLit_append] at hlit
  exact ⟨[], hlit, rfl⟩

theorem takes_sign {w : String} {t : Tok} (h : w.toList = t.spell) (ts : List Tok) :
    Takes (text w) (t :: ts) Nil ts := by
  rw [text, h]
  exact (spots_lit t).takes ts

theorem fails_lit {text : List Char} (h : ∀ cs, Lexes cs ts → ¬ text <+: trim cs) :
    Fails (.lit text) ts := by
  intro i cs hcs
  have hlit : Matches .loose (.lit text) ⟨i, trim cs⟩ _ := .lit
  rwa [afterLit_eq_none (h cs hcs)] at hlit

theorem litLook_fails {text : List Char} (hne : text ≠ []) (hlook : litLook text h = some false)
    (hsees : Sees (h :: hs) ts) : Fails (.lit text) ts := by
  refine fails_lit fun cs hcs => ?_
  obtain ⟨x, xs, rfl⟩ := List.exists_cons_of_ne_nil hne
  rcases sees_cons hsees with ⟨-, rfl⟩ | ⟨t, ts, rfl, ht, -⟩
  · cases hcs with
    | nil htrim => simp [htrim]
  · cases hcs with
    | @cons _ _ rest _ htrim valid fits _ =>
      rw [htrim]
      have havoids {accepts : Char → Bool} (hx : litLook.avoids (x :: xs) accepts = some false)
          (hspell : ∀ c ∈ t.spell.head?, accepts c = true) : ¬ x :: xs <+: t.spell ++ rest := by
        obtain ⟨c, cs, hcons⟩ := List.exists_cons_of_ne_nil (Tok.spell_ne_nil valid)
        rw [hcons] at hspell ⊢
        have hc := hspell c rfl
        have hxc : accepts x = false := by
          cases hax : accepts x with
          | false => rfl
          | true => simp [litLook.avoids, hax] at hx
        rintro ⟨more, hmore⟩
        obtain rfl := (List.cons.inj hmore).1
        simp [hc] at hxc
      have hspaced {spelling : List Char} (hx : litLook.spaced (x :: xs) spelling = some false)
          (hspell : t.spell = spelling) (hrest : rest.head? = some ' ') :
          ¬ x :: xs <+: t.spell ++ rest := by
        intro hpre
        obtain ⟨more, rfl⟩ : ∃ more, rest = ' ' :: more := by
          cases rest with
          | nil => simp at hrest
          | cons c more =>
            obtain rfl := Option.some.inj hrest
            exact ⟨more, rfl⟩
        have hcomparable := List.prefix_or_prefix_of_prefix hpre
          (⟨more, by simp [hspell]⟩ : spelling ++ [' '] <+: t.spell ++ ' ' :: more)
        simp [litLook.spaced, hcomparable] at hx
      cases h with
      | name | word | exportDefault =>
        obtain ⟨v, hv⟩ : ∃ v, t.run? = some v := by
          cases t <;> simp_all [Look.Is, Tok.run?]
        exact havoids hlook (Tok.run_head hv valid)
      | num =>
        cases t with
        | num digits => exact havoids hlook (Tok.num_head valid)
        | _ => exact ht.elim
      | str =>
        cases t with
        | str v => exact havoids hlook (by simp)
        | _ => exact ht.elim
      | tmpl =>
        cases t with
        | tmpl raw => exact havoids hlook (by simp)
        | _ => exact ht.elim
      | sym c =>
        cases t with
        | sym c' =>
          obtain rfl := ht
          simp only [litLook] at hlook
          split at hlook
          · simp at hlook
          · split at hlook
            · simp at hlook
            · rename_i hhead
              rintro ⟨more, hmore⟩
              exact hhead (congrArg some (List.cons.inj hmore).1)
        | _ => exact ht.elim
      | op o =>
        cases t with
        | op o' =>
          obtain rfl := ht
          exact hspaced hlook rfl fits
        | _ => exact ht.elim
      | eq =>
        cases t with
        | eq => exact hspaced hlook rfl fits
        | _ => exact ht.elim
      | arrow =>
        cases t with
        | arrow => exact hspaced hlook rfl fits
        | _ => exact ht.elim
      | done => exact ht.elim

theorem litLook_takes {text : List Char} (hlook : litLook text h = some true)
    (hsees : Sees (h :: hs) ts) : ∃ P ts', Takes (.lit text) ts P ts' ∧ Sees hs ts' := by
  have havoids {accepts : Char → Bool} : litLook.avoids text accepts ≠ some true := by
    unfold litLook.avoids
    split <;> simp
  have hspaced {spelling : List Char} (hx : litLook.spaced text spelling = some true) :
      text = spelling := by
    unfold litLook.spaced at hx
    split at hx
    · assumption
    · split at hx <;> simp at hx
  rcases sees_cons hsees with ⟨rfl, rfl⟩ | ⟨t, ts, rfl, ht, hmore⟩
  · simp [litLook] at hlook
  · have hspell : text = t.spell := by
      cases h with
      | name | word | exportDefault | num | str | tmpl => exact absurd hlook havoids
      | sym c =>
        cases t with
        | sym c' =>
          obtain rfl := ht
          simp only [litLook] at hlook
          split at hlook
          · assumption
          · split at hlook <;> simp at hlook
        | _ => exact ht.elim
      | op o =>
        cases t with
        | op o' =>
          obtain rfl := ht
          exact hspaced hlook
        | _ => exact ht.elim
      | eq =>
        cases t with
        | eq => exact hspaced hlook
        | _ => exact ht.elim
      | arrow =>
        cases t with
        | arrow => exact hspaced hlook
        | _ => exact ht.elim
      | done => exact ht.elim
    rw [hspell]
    exact ⟨_, ts, (spots_lit t).takes ts, hmore⟩

end Soundness

/-- What an expression does on tokens of which only the first ones are known. -/
inductive Guess where
  | fails
  /-- It matches, and of the tokens after it this much is known. -/
  | takes (rest : List Look)
  | unknown
deriving DecidableEq

/-- The exclamation mark of a macro site is not the beginning of an operator. -/
def isBang : Peg → Peg → Bool
  | .lit ['!'], .not (.lit ['=']) => true
  | _, _ => false

def bangLook : List Look → Guess
  | .op .ne :: _ | .op .strictNe :: _ => .fails
  | h :: _ => if litLook ['!'] h = some false then .fails else .unknown
  | [] => .unknown

def exportLook : List Look → Guess
  | .exportDefault :: hs => .takes hs
  | .word v :: hs =>
    if v ≠ "export" then .fails
    else match hs with
      | h :: _ => if tokenLook (.word "default") h = some false then .fails else .unknown
      | [] => .unknown
  | .name :: _ => .fails
  | h :: _ => if h.isSign then .fails else .unknown
  | [] => .unknown

/-- Evaluates an expression on what is known of the next tokens. The first argument bounds the depth
of the evaluation. -/
def look : Nat → Peg → List Look → Guess
  | 0, _, _ => .unknown
  | _ + 1, .lit text, hs =>
    if text = [] then .takes hs
    else match hs with
      | [] => .unknown
      | h :: hs =>
        match litLook text h with
        | some true => .takes hs
        | some false => .fails
        | none => .unknown
  | _ + 1, .charIf _, _ => .unknown
  | _ + 1, .atEnd, [] => .unknown
  | _ + 1, .atEnd, h :: _ => if h = .done then .takes [.done] else .fails
  | n + 1, .seq a b, hs =>
    if isBang a b then bangLook hs
    else match look n a hs with
      | .takes hs => look n b hs
      | g => g
  | n + 1, .alt a b, hs =>
    match look n a hs with
    | .fails => look n b hs
    | g => g
  | n + 1, .opt e, hs =>
    match look n e hs with
    | .fails => .takes hs
    | g => g
  | n + 1, .star e, hs =>
    match look n e hs with
    | .fails => .takes hs
    | .takes hs => look n (.star e) hs
    | .unknown => .unknown
  | _ + 1, .again _, _ => .unknown
  | n + 1, .not e, hs =>
    match look n e hs with
    | .fails => .takes hs
    | .takes _ => .fails
    | .unknown => .unknown
  | n + 1, .rule r, hs =>
    if r = .exportDefault then exportLook hs
    else match hs with
      | [] => .unknown
      | h :: hs =>
        match tokenLook r h with
        | some true => .takes hs
        | some false => .fails
        | none => if Host.style r = .loose then look n (Host.body r) (h :: hs) else .unknown

def Guess.Holds (g : Guess) (e : Peg) (ts : List Tok) : Prop :=
  match g with
  | fails => Fails e ts
  | takes hs => ∃ P ts', Takes e ts P ts' ∧ Sees hs ts'
  | unknown => True

section Soundness

variable {a b e : Peg} {hs : List Look} {ts : List Tok}

theorem bangLook_holds (hbang : isBang a b = true) (hsees : Sees hs ts) :
    (bangLook hs).Holds (a ++ b) ts := by
  obtain ⟨rfl, rfl⟩ : a = .lit ['!'] ∧ b = .not (.lit ['=']) := by
    unfold isBang at hbang
    split at hbang
    · exact ⟨rfl, rfl⟩
    · simp at hbang
  have hop {o : BinaryOp} {c : List Char} {hs : List Look} (ho : o.token.toList = '!' :: '=' :: c)
      (hsees : Sees (.op o :: hs) ts) :
      Fails (Peg.lit ['!'] ++ Peg.not (.lit ['='])) ts := by
    intro i cs hcs
    obtain ⟨hdone, -⟩ | ⟨t, ts, rfl, ht, hmore⟩ := sees_cons hsees
    · cases hdone
    · cases t with
      | op o' =>
        obtain rfl := ht
        cases hcs with
        | @cons _ _ rest _ htrim _ _ _ =>
          rw [htrim, Tok.spell_op, ho]
          have hbang : Matches .loose (text "!") ⟨i, '!' :: ('=' :: c ++ rest)⟩ _ :=
            .lit_append "!" i _
          have hgap : Style.loose.gap ⟨i + Text.byteLength "!".toList, '=' :: c ++ rest⟩ =
              ⟨i + Text.byteLength "!".toList, '=' :: (c ++ rest)⟩ :=
            skipGap_of_trim_eq (trim_of_not_blank (by decide) (by decide) _) _
          refine .seqSecond hbang ?_
          erw [hgap]
          exact .notNot (.lit_append "=" _ (c ++ rest))
      | _ => exact ht.elim
  unfold bangLook
  split
  · exact hop (o := .ne) rfl hsees
  · exact hop (o := .strictNe) rfl hsees
  · split
    · rename_i hlit
      exact Fails.seq_left (litLook_fails (by simp) hlit hsees)
    · trivial
  · trivial

theorem exportLook_holds (hsees : Sees hs ts) : (exportLook hs).Holds (.rule .exportDefault) ts := by
  unfold exportLook
  split
  · obtain ⟨ts, rfl, hmore⟩ := sees_exportDefault hsees
    exact ⟨_, ts, spots_exportDefault.takes ts, hmore⟩
  · obtain ⟨ts, rfl, hmore⟩ := sees_word hsees
    split
    · rename_i hne
      exact fails_exportDefault rfl hne
    · rename_i heq
      obtain rfl := Decidable.not_not.mp heq
      split
      · split
        · rename_i hlook
          exact fails_exportDefault_of_second (tokenLook_fails hlook hmore)
        · trivial
      · trivial
  · obtain ⟨v, ts, rfl, hv, -⟩ := sees_name hsees
    refine fails_exportDefault rfl ?_
    rintro rfl
    exact hv (by decide)
  · split
    · rename_i hsign
      exact fails_of_isSign rfl hsign hsees
    · trivial
  · trivial

theorem look_holds (n : Nat) (e : Peg) (hs : List Look) (ts : List Tok) (hsees : Sees hs ts) :
    (look n e hs).Holds e ts := by
  induction n generalizing e hs ts with
  | zero => trivial
  | succ n ih =>
    cases e with
    | lit text =>
      unfold look
      split
      · rename_i hnil
        obtain rfl := hnil
        refine ⟨Nil, ts, ?_, hsees⟩
        intro i cs hcs
        exact ⟨_, _, .lit, hcs.trim, rfl⟩
      · rename_i hne
        cases hs with
        | nil => trivial
        | cons h hs =>
          cases hlook : litLook text h with
          | none => simp only [hlook]; trivial
          | some found =>
            simp only [hlook]
            cases found with
            | true => exact litLook_takes hlook hsees
            | false => exact litLook_fails hne hlook hsees
    | charIf | again => trivial
    | atEnd =>
      cases hs with
      | nil => trivial
      | cons h hs =>
        unfold look
        rcases sees_cons hsees with ⟨rfl, rfl⟩ | ⟨t, ts, rfl, ht, -⟩
        · refine ⟨Nil, [], ?_, rfl⟩
          intro i cs hcs
          cases hcs with
          | nil htrim =>
            rw [htrim]
            exact ⟨_, _, .atEnd, .nil rfl, rfl⟩
        · rw [if_neg (by rintro rfl; exact ht.elim)]
          intro i cs hcs
          cases hcs with
          | @cons _ _ rest _ htrim valid _ _ =>
            obtain ⟨c, cs, hspell⟩ := List.exists_cons_of_ne_nil (Tok.spell_ne_nil valid)
            rw [htrim, hspell]
            exact .atEndNot
    | seq a b =>
      unfold look
      split
      · rename_i hbang
        exact bangLook_holds hbang hsees
      · have ha := ih a hs ts hsees
        cases hlook : look n a hs with
        | takes hs' =>
          rw [hlook] at ha
          obtain ⟨P, m, hP, hm⟩ := ha
          have hb := ih b hs' m hm
          simp only
          cases hlook' : look n b hs' with
          | fails =>
            rw [hlook'] at hb
            exact Fails.seq_right hP hb
          | takes hs'' =>
            rw [hlook'] at hb
            obtain ⟨Q, ts', hQ, hts'⟩ := hb
            exact ⟨_, ts', hP.seq hQ, hts'⟩
          | unknown => trivial
        | fails =>
          rw [hlook] at ha
          exact Fails.seq_left ha
        | unknown => trivial
    | alt a b =>
      unfold look
      have ha := ih a hs ts hsees
      cases hlook : look n a hs with
      | takes hs' =>
        rw [hlook] at ha
        obtain ⟨P, m, hP, hm⟩ := ha
        exact ⟨P, m, hP.alt_left, hm⟩
      | fails =>
        rw [hlook] at ha
        have hb := ih b hs ts hsees
        simp only
        cases hlook' : look n b hs with
        | fails =>
          rw [hlook'] at hb
          exact ha.alt hb
        | takes hs'' =>
          rw [hlook'] at hb
          obtain ⟨Q, ts', hQ, hts'⟩ := hb
          exact ⟨Q, ts', hQ.alt_right ha, hts'⟩
        | unknown => trivial
      | unknown => trivial
    | opt e =>
      unfold look
      have h := ih e hs ts hsees
      cases hlook : look n e hs with
      | takes hs' =>
        rw [hlook] at h
        obtain ⟨P, m, hP, hm⟩ := h
        exact ⟨P, m, hP.opt, hm⟩
      | fails =>
        rw [hlook] at h
        exact ⟨Nil, ts, .opt_none h, hsees⟩
      | unknown => trivial
    | star e =>
      unfold look
      have h := ih e hs ts hsees
      cases hlook : look n e hs with
      | takes hs' =>
        rw [hlook] at h
        obtain ⟨P, m, hP, hm⟩ := h
        have hmore := ih (.star e) hs' m hm
        simp only
        cases hlook' : look n (.star e) hs' with
        | fails =>
          rw [hlook'] at hmore
          intro i cs hcs
          obtain ⟨d, -, -, hd, -⟩ := hP i cs hcs
          cases hmore d.offset d.rest hd
        | takes hs'' =>
          rw [hlook'] at hmore
          obtain ⟨Q, ts', hQ, hts'⟩ := hmore
          exact ⟨_, ts', (TakesAgain.step hP (Takes.again hQ)).star, hts'⟩
        | unknown => trivial
      | fails =>
        rw [hlook] at h
        exact ⟨Nil, ts, (TakesAgain.done h).star, hsees⟩
      | unknown => trivial
    | not e =>
      unfold look
      have h := ih e hs ts hsees
      cases hlook : look n e hs with
      | takes hs' =>
        rw [hlook] at h
        obtain ⟨P, m, hP, hm⟩ := h
        exact Fails.not hP
      | fails =>
        rw [hlook] at h
        exact ⟨Nil, ts, .not h, hsees⟩
      | unknown => trivial
    | rule r =>
      unfold look
      split
      · rename_i hr
        obtain rfl := hr
        exact exportLook_holds hsees
      · cases hs with
        | nil => trivial
        | cons h hs =>
          cases hlook : tokenLook r h with
          | some found =>
            simp only [hlook]
            cases found with
            | true => exact tokenLook_takes hlook hsees
            | false => exact tokenLook_fails hlook hsees
          | none =>
            simp only [hlook]
            split
            · rename_i hstyle
              have hbody := ih (Host.body r) (h :: hs) ts hsees
              cases hlook' : look n (Host.body r) (h :: hs) with
              | takes hs' =>
                rw [hlook'] at hbody
                obtain ⟨P, m, hP, hm⟩ := hbody
                exact ⟨_, m, Takes.rule hstyle hP, hm⟩
              | fails =>
                rw [hlook'] at hbody
                exact Fails.rule hstyle hbody
              | unknown => trivial
            · trivial

theorem fails_of_look {n : Nat} (hlook : look n e hs = .fails) (hsees : Sees hs ts) : Fails e ts := by
  have h := look_holds n e hs ts hsees
  rwa [hlook] at h

end Soundness

end MacroEngine.Grammar
