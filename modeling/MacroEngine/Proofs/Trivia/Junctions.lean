import MacroEngine.Proofs.Trivia.Exchange

/-!
# Between `export` and `default`

Only one rule reads the two words one after the other, and it takes blanks between them, and no
comments. Tables say which expressions may end at a word like the first one, and which ones may begin
with the second one; nowhere in the grammar does one of these follow one of those. So a text with a
comment between the two words matches nowhere.
-/

namespace MacroEngine.Grammar

open Printer (isNameChar)

/-- A gap with a comment in it, in front of the word `default`. -/
structure IsBroken (g v : List Char) : Prop where
  gap : IsGap g v
  comment : ¬ ∀ c ∈ g, isSpace c = true
  word : ∃ rest, v = "default".toList ++ rest ∧ ∀ c ∈ rest.head?, isNameChar c = false

/-- The text begins before the gap, which the last letter of `export` comes before. -/
def Ahead (g v cs : List Char) : Prop :=
  ∃ w, w.getLast? = some 't' ∧ Scanned (g ++ v) w ∧ cs = w ++ (g ++ v)

def Past (g v cs : List Char) : Prop := cs = g ++ v ∨ cs = v

section Tables

/-- The rules that may match a text up to the gap. -/
def ruleMayEnd : Rule → Bool
  | .asyncWord | .methodMember | .fieldMember | .block => false
  | _ => true

def mayEnd : Peg → Bool
  | .rule r => ruleMayEnd r
  | .lit t => t.getLast? = some 't'
  | .charIf _ | .atEnd | .not _ => false
  | .seq a b => mayEnd b || nullable b && mayEnd a
  | .alt a b => mayEnd a || mayEnd b
  | .opt e | .star e | .again e => mayEnd e

/-- The rules that may match a text from the word `default` on. -/
def ruleMayBegin : Rule → Bool
  | .word w => !w.toList.all isNameChar || w = "default"
  | .keyword | .propertyName | .methodMember | .fieldMember | .property => true
  | _ => false

def mayBegin : Peg → Bool
  | .rule r => ruleMayBegin r
  | .lit t => t.head? = some 'd'
  | .charIf _ | .atEnd | .not _ => false
  | .seq a b => mayBegin a || nullable a && mayBegin b
  | .alt a b => mayBegin a || mayBegin b
  | .opt e | .star e | .again e => mayBegin e

/-- Nothing that may begin behind the gap follows something that may end before it. -/
def isApart : Peg → Bool
  | .seq a b => isApart a && isApart b && !(mayEnd a && mayBegin b)
  | .alt a b => isApart a && isApart b
  | .star e | .again e => isApart e && !(mayEnd e && mayBegin e)
  | .opt e => isApart e
  | _ => true

variable {r : Rule}

theorem isApart_body (hr : (host r).1 = .loose) : isApart (host r).2 = true := by
  cases r with
  | op o => cases o <;> decide
  | _ => first | decide | cases hr

theorem mayEnd_body (hr : (host r).1 = .loose) (h : mayEnd (host r).2 = true) :
    ruleMayEnd r = true := by
  cases r with
  | methodMember | fieldMember | block => revert h; decide
  | asyncWord => cases hr
  | _ => rfl

theorem mayBegin_body (hr : (host r).1 = .loose) (h : mayBegin (host r).2 = true) :
    ruleMayBegin r = true := by
  cases r with
  | op o => cases o <;> revert h <;> decide
  | _ => first | rfl | (revert h; decide) | cases hr

end Tables

/-- A comment ends with its sign or its line. -/
theorem Comment.not_isOrdinary_last {k : List Char} (h : Comment k) :
    ∀ a ∈ k.getLast?, isOrdinary a = false := by
  intro a ha
  cases h with
  | @line body =>
    change a ∈ (('/' :: '/' :: body) ++ ['\n']).getLast? at ha
    rw [List.getLast?_concat] at ha
    obtain rfl := Option.some.inj ha
    rfl
  | @block body =>
    change a ∈ (('/' :: '*' :: body) ++ (['*'] ++ ['/'])).getLast? at ha
    rw [← List.append_assoc, List.getLast?_concat] at ha
    obtain rfl := Option.some.inj ha
    rfl

/-- A scanned text that ends in an ordinary character is no gap. -/
theorem Scanned.trim_of_getLast? {x w : List Char} {a : Char} (h : Scanned x w)
    (hlast : w.getLast? = some a) (ha : isOrdinary a = true) :
    ∃ w', w'.getLast? = some a ∧ Scanned x w' ∧ trim (w ++ x) = w' ++ x := by
  -- A blank or a comment is not all of the text, as it ends in another character.
  have htail {v w : List Char} (hv : ∀ a ∈ v.getLast?, isOrdinary a = false)
      (hlast : (v ++ w).getLast? = some a) : w.getLast? = some a := by
    cases w with
    | nil =>
      rw [List.append_nil] at hlast
      rw [hv a hlast] at ha
      cases ha
    | cons => rwa [List.getLast?_append_of_ne_nil _ (by simp)] at hlast
  induction h with
  | nil => cases hlast
  | @char c w hc more ih =>
    rcases hc with hc | hc
    · exact ⟨c :: w, hlast, .char (.inl hc) more, trim_of_isOrdinary hc _⟩
    · have hblank : ∀ a ∈ [c].getLast?, isOrdinary a = false := by
        intro a ha
        obtain rfl := Option.some.inj ha
        exact not_isOrdinary_of_isSpace hc
      rw [List.cons_append, trim_blank hc]
      exact ih (htail hblank hlast)
  | @slash w hnext more => exact ⟨'/' :: w, hlast, .slash hnext more, trim_slash hnext⟩
  | @comment k w hk more ih =>
    rw [List.append_assoc, hk.trim_append]
    exact ih (htail hk.not_isOrdinary_last hlast)
  | @literal l w hl more =>
    exact ⟨l ++ w, hlast, .literal hl more, by rw [List.append_assoc]; exact hl.trim_append _⟩

section Places

variable {g v cs : List Char}

theorem Ahead.trim (h : Ahead g v cs) : Ahead g v (Grammar.trim cs) := by
  obtain ⟨w, hlast, hw, rfl⟩ := h
  obtain ⟨w', hlast', hw', htrim⟩ := hw.trim_of_getLast? hlast rfl
  exact ⟨w', hlast', hw', htrim⟩

theorem Past.trim (hg : IsGap g v) (h : Past g v cs) : Past g v (Grammar.trim cs) := by
  rcases h with rfl | rfl
  · exact .inr hg.trim_eq
  · exact .inr hg.trim_behind

theorem Past.eq (hg : IsGap g v) (h : Past g v cs) (hready : Grammar.trim cs = cs) : cs = v := by
  rcases h with rfl | rfl
  · exact absurd hready hg.ne_trim
  · rfl

/-- What is left of a text ahead of the gap is ahead of it as well, or is the gap. -/
theorem Ahead.suffix {w w' : List Char} (hlast : w.getLast? = some 't') (hsuffix : w' <:+ w)
    (hw' : Scanned (g ++ v) w') :
    Ahead g v (w' ++ (g ++ v)) ∨ w' = [] := by
  cases w' with
  | nil => exact .inr rfl
  | cons c w' =>
    obtain ⟨before, rfl⟩ := hsuffix
    rw [List.getLast?_append_of_ne_nil _ (by simp)] at hlast
    exact .inl ⟨_, hlast, hw', rfl⟩

end Places

/-- How far a match may come: ahead of the gap it stays, unless the expression may end there, and
behind it nothing is read, unless the expression may begin there. -/
structure Confined (g v : List Char) (e : Peg) (c d : Cursor) : Prop where
  ahead : Ahead g v c.rest → Ahead g v d.rest ∨ Past g v d.rest ∧ mayEnd e = true
  past : Past g v c.rest → Past g v d.rest ∧ nullable e = true ∨ mayBegin e = true

section Tokens

variable {g v rest : List Char} {r : Rule} {c d : Cursor} {ps : List Pair}

/-- Other tokens do not begin with the word `default`. -/
theorem Matches.default_none (hr : isToken r = true) (hbegin : ruleMayBegin r = false)
    (hrest : ∀ c ∈ rest.head?, isNameChar c = false) (i : Nat) :
    Matches .loose (.rule r) ⟨i, "default".toList ++ rest⟩ none := by
  have hlit {s : Style} {t : String} (ht : t.toList.head? ≠ some 'd') (hne : t.toList ≠ []) :
      Matches s (text t) ⟨i, "default".toList ++ rest⟩ none := by
    refine .lit_none ?_ i
    rintro ⟨more, hmore⟩
    cases htext : t.toList with
    | nil => exact hne htext
    | cons c cs =>
      rw [htext] at hmore ht
      exact ht (congrArg some (List.cons.inj hmore).1)
  have hword {r : Rule} {w : String} (hw : wordOf? r = some w) (hrun : IsRun w)
      (hne : w ≠ "default") : Matches .loose (.rule r) ⟨i, "default".toList ++ rest⟩ none :=
    .rule_none (host_of_wordOf? hw) (.wholeWord_none (by decide) hrun hrest hne)
  cases r with
  | word w =>
    simp only [ruleMayBegin, Bool.or_eq_false_iff, Bool.not_eq_false',
      decide_eq_false_iff_not] at hbegin
    exact hword rfl (List.all_eq_true.mp hbegin.1) hbegin.2
  | exportNamed | asyncWord | varConst | varLet | macroTemplate | macroDerive | awaitWord | voidWord
  | typeofWord | nullLit | thisLit => exact hword rfl (by decide) (by decide)
  | identifier =>
    have hreserved : "default" ∈ Host.reserved := by decide
    obtain ⟨found, hkeyword⟩ := Matches.keyword (i := i) hrest hreserved
    exact .rule_none host_identifier (.seqFirst (.seqFirst (.notNot hkeyword)))
  | number =>
    refine .initial_none rfl fun c hc => ?_
    obtain rfl := Option.some.inj hc
    rfl
  | string => exact .literal_none (.inl rfl) (by decide) i _
  | template => exact .literal_none (.inr rfl) (by decide) i _
  | boolean =>
    exact .rule_none host_boolean
      (.seqFirst (.altSecond (hlit (by decide) (by decide)) (hlit (by decide) (by decide))))
  | exportDefault =>
    exact .rule_none host_exportDefault (.seqFirst (.seqFirst (hlit (by decide) (by decide))))
  | prefixOp =>
    have hsigns : ∀ t ∈ ["!", "-"], Matches .loose (text t) ⟨i, "default".toList ++ rest⟩ none := by
      intro t ht
      refine hlit ?_ ?_ <;> revert t <;> decide
    refine .ruleNot (.altSecond (hsigns _ (by simp)) (.altSecond (hsigns _ (by simp)) ?_))
    refine .altSecond (hword rfl (by decide) (by decide)) (.altSecond ?_ ?_)
    · exact hword rfl (by decide) (by decide)
    · exact hword rfl (by decide) (by decide)
  | keyword | propertyName => cases hbegin
  | _ => cases hr

/-- Behind the match is an end of `w`, and no end of it is left only if the rule may end there. -/
def Leaves (g v w : List Char) (r : Rule) (rest : List Char) : Prop :=
  ∃ w', w' <:+ w ∧ Scanned (g ++ v) w' ∧ rest = w' ++ (g ++ v) ∧ (w' = [] → ruleMayEnd r = true)

theorem Matches.asyncWord_inv (h : Matches .loose (.rule .asyncWord) c (some (d, ps))) :
    c.rest = "async".toList ++ d.rest := by
  obtain ⟨_, -, body⟩ := h.rule_inv
  have body : Matches .atomic (text "async" ++ Peg.not Host.nameChar) c (some (d, _)) := body
  obtain ⟨_, _, _, -, word, last⟩ := body.seq_inv
  obtain ⟨-, hword⟩ := word.lit_inv
  cases last with
  | not => exact hword

theorem Matches.plain_leaves (hg : IsGap g v) (hr : isPlainRule r = true) {w : List Char} {i : Nat}
    (hlast : w.getLast? = some 't') (hw : Scanned (g ++ v) w)
    (h : Matches .loose (.rule r) ⟨i, w ++ (g ++ v)⟩ (some (d, ps))) : Leaves g v w r d.rest := by
  obtain ⟨_, -, hagree⟩ := Matches.tight (j := i) hr List.suffix_rfl hw hg.head hg.head h
  cases hagree with
  | some hrest =>
    obtain ⟨w', hsuffix, hw', hd, -⟩ := hrest
    refine ⟨w', hsuffix, hw', hd, ?_⟩
    rintro rfl
    cases r with
    -- The word `async` ends in another letter.
    | asyncWord =>
      have hword : w ++ (g ++ v) = "async".toList ++ d.rest := h.asyncWord_inv
      rw [hd, List.nil_append] at hword
      obtain rfl := List.append_cancel_right hword
      cases hlast
    | methodMember | fieldMember | block => cases hr
    | _ => rfl

theorem Matches.literal_leaves (hg : IsGap g v) (hr : r = .string ∨ r = .template) {w : List Char}
    {i : Nat} (hw : Scanned (g ++ v) w) (hready : trim (w ++ (g ++ v)) = w ++ (g ++ v))
    (h : Matches .loose (.rule r) ⟨i, w ++ (g ++ v)⟩ (some (d, ps))) : Leaves g v w r d.rest := by
  rcases hw.literal_cases hready hg.ne_trim with ⟨l, w', hl, more, rfl⟩ | ⟨x, w', rfl, hx⟩
  · obtain ⟨o, _, hleft, -, hagree⟩ := hl.agree hr i i (w' ++ (g ++ v)) (w' ++ (g ++ v))
    rw [← List.append_assoc] at hleft
    obtain rfl := h.unique hleft
    cases hagree with
    | some hrest =>
      refine ⟨w', List.suffix_append l w', more, hrest.1, fun _ => ?_⟩
      rcases hr with rfl | rfl <;> rfl
  · exact absurd (h.unique (.literal_none hr hx i _)) (by simp)

theorem Matches.exportDefault_leaves (hb : IsBroken g v) {w : List Char} {i : Nat}
    (hw : Scanned (g ++ v) w)
    (h : Matches .loose (.rule .exportDefault) ⟨i, w ++ (g ++ v)⟩ (some (d, ps))) :
    Leaves g v w .exportDefault d.rest := by
  rcases h.exportDefault_inv.cases hb.gap with ⟨w', hw', hd⟩ | ⟨front, -, hspaces, -⟩
  · exact ⟨w', hw'.suffix, hw'.scanned hw, hd, fun _ => rfl⟩
  · exact absurd (List.forall_mem_append.mp hspaces).2 hb.comment

/-- A token ahead of the gap ends there at the latest. -/
theorem Matches.token_ahead (hb : IsBroken g v) (hr : isToken r = true)
    (hready : trim c.rest = c.rest) (h : Matches .loose (.rule r) c (some (d, ps)))
    (hc : Ahead g v c.rest) : Ahead g v d.rest ∨ Past g v d.rest ∧ ruleMayEnd r = true := by
  obtain ⟨i, cs⟩ := c
  obtain ⟨w, hlast, hw, hcs⟩ := hc
  obtain rfl : cs = w ++ (g ++ v) := hcs
  have hleaves : Leaves g v w r d.rest := by
    simp only [isToken, Bool.or_eq_true, decide_eq_true_eq] at hr
    rcases hr with ((hr | rfl) | hr) | hr
    · exact h.plain_leaves hb.gap hr hlast hw
    · exact h.exportDefault_leaves hb hw
    · exact h.literal_leaves hb.gap (.inl hr) hw hready
    · exact h.literal_leaves hb.gap (.inr hr) hw hready
  obtain ⟨w', hsuffix, hw', hd, hend⟩ := hleaves
  rw [hd]
  refine (Ahead.suffix hlast hsuffix hw').imp_right ?_
  rintro rfl
  exact ⟨.inl rfl, hend rfl⟩

/-- A slash ahead of the gap, or some ordinary characters. -/
theorem confined_lit (hb : IsBroken g v) {t : List Char}
    (ht : t = ['/'] ∨ ∀ c ∈ t, isOrdinary c = true) (hready : trim c.rest = c.rest)
    (hrest : c.rest = t ++ d.rest) : Confined g v (.lit t) c d where
  ahead := by
    rintro ⟨w, hlast, hw, hc⟩
    have hfront : ∃ w', w = t ++ w' ∧ d.rest = w' ++ (g ++ v) ∧ Scanned (g ++ v) w' := by
      rw [hc] at hrest hready
      rcases ht with rfl | ht
      · cases w with
        | nil => cases hlast
        | cons x w =>
          obtain ⟨rfl, hd⟩ := List.cons.inj hrest
          exact ⟨w, rfl, hd.symm, hw.behind_slash hready⟩
      · obtain ⟨w', rfl, hd⟩ := exists_front_of_append_eq ht hb.gap.head hrest
        exact ⟨w', rfl, hd, hw.drop fun c hc => .inl (ht c hc)⟩
    obtain ⟨w', rfl, hd, hw'⟩ := hfront
    rw [hd]
    refine (Ahead.suffix hlast (List.suffix_append t w') hw').imp_right ?_
    rintro rfl
    rw [List.append_nil] at hlast
    exact ⟨.inl rfl, decide_eq_true hlast⟩
  past hpast := by
    obtain ⟨rest, hv, -⟩ := hb.word
    rw [hpast.eq hb.gap hready, hv] at hrest
    cases t with
    | nil =>
      have hd : v = d.rest := hv.trans hrest
      exact .inl ⟨.inr hd.symm, rfl⟩
    | cons x t =>
      obtain ⟨rfl, -⟩ := List.cons.inj hrest
      exact .inr rfl

end Tokens

namespace Confined

variable {g v : List Char} {a b e e' : Peg} {c d k : Cursor}

theorem refl (he : nullable e = true) : Confined g v e c c where
  ahead := .inl
  past hpast := .inl ⟨hpast, he⟩

theorem mono (h : Confined g v e c d) (hend : mayEnd e = true → mayEnd e' = true)
    (hempty : nullable e = true → nullable e' = true)
    (hbegin : mayBegin e = true → mayBegin e' = true) : Confined g v e' c d where
  ahead hc := (h.ahead hc).imp_right (And.imp_right hend)
  past hc := (h.past hc).imp (And.imp_right hempty) hbegin

/-- No gap but this one lies between what is ahead of it and what is behind it. -/
theorem of_gap (hg : IsGap g v) (h : Confined g v e (Style.loose.gap c) d) : Confined g v e c d := by
  obtain ⟨j, hj⟩ := gap_loose c
  rw [hj] at h
  exact ⟨fun hc => h.ahead hc.trim, fun hc => h.past (hc.trim hg)⟩

/-- One expression behind another one, if only one of them can be next to the gap. -/
theorem trans (h : Confined g v a c d) (h' : Confined g v b d k)
    (hapart : (mayEnd a && mayBegin b) = false) : Confined g v (.seq a b) c k where
  ahead hc := by
    rcases h.ahead hc with hd | ⟨hd, hend⟩
    · exact (h'.ahead hd).imp_right (And.imp_right fun hend => by simp [mayEnd, hend])
    · rcases h'.past hd with ⟨hk, hempty⟩ | hbegin
      · exact .inr ⟨hk, by simp [mayEnd, hempty, hend]⟩
      · rw [hend, hbegin] at hapart
        cases hapart
  past hc := by
    rcases h.past hc with ⟨hd, hempty⟩ | hbegin
    · rcases h'.past hd with ⟨hk, hempty'⟩ | hbegin
      · exact .inl ⟨hk, by simp [nullable, hempty, hempty']⟩
      · exact .inr (by simp [mayBegin, hempty, hbegin])
    · exact .inr (by simp [mayBegin, hbegin])

theorem rounds (h : Confined g v e c d) (h' : Confined g v (.again e) d k)
    (hapart : (mayEnd e && mayBegin e) = false) : Confined g v (.again e) c k := by
  refine (h.trans h' hapart).mono ?_ (fun _ => rfl) ?_
  · simp only [mayEnd, Bool.or_eq_true, Bool.and_eq_true]
    rintro (hend | ⟨-, hend⟩) <;> exact hend
  · simp only [mayBegin, Bool.or_eq_true, Bool.and_eq_true]
    rintro (hbegin | ⟨-, hbegin⟩) <;> exact hbegin

end Confined

/-- Whatever is matched from a place ahead of the gap or behind it. -/
theorem Matches.confined {g v : List Char} (hb : IsBroken g v) {s : Style} {e : Peg} {c : Cursor}
    {o : Match} (h : Matches s e c o) (hs : s = .loose) (hloose : isLoose e = true)
    (hapart : isApart e = true) (hready : Ready e c) {d : Cursor} {ps : List Pair}
    (ho : o = some (d, ps)) : Confined g v e c d := by
  induction h generalizing d ps with
  | @lit s t c =>
    obtain ⟨d', hd, heq⟩ := Option.map_eq_some_iff.mp ho
    cases heq
    exact confined_lit hb (by simpa [isLoose] using hloose) hready (afterLit_eq_some hd)
  | charIf => cases hloose
  | atEnd =>
    cases ho
    exact .refl rfl
  | seq _ _ ih ih' =>
    cases ho
    subst hs
    simp only [isLoose, isApart, Bool.and_eq_true, Bool.not_eq_true'] at hloose hapart
    have first := ih rfl hloose.1 hapart.1.1 (ready_of_trim hready) rfl
    have second := ih' rfl hloose.2 hapart.1.2 (ready_of_trim (trim_gap _)) rfl
    exact first.trans (second.of_gap hb.gap) hapart.2
  | altFirst _ ih =>
    simp only [isLoose, isApart, Bool.and_eq_true] at hloose hapart
    have first := ih hs hloose.1 hapart.1 (ready_of_trim hready) ho
    refine first.mono ?_ ?_ ?_ <;> intro h <;> simp [mayEnd, nullable, mayBegin, h]
  | altSecond _ _ _ ih =>
    simp only [isLoose, isApart, Bool.and_eq_true] at hloose hapart
    have second := ih hs hloose.2 hapart.2 (ready_of_trim hready) ho
    refine second.mono ?_ ?_ ?_ <;> intro h <;> simp [mayEnd, nullable, mayBegin, h]
  | opt _ ih =>
    exact (ih hs hloose hapart (ready_of_trim hready) ho).mono id (fun _ => rfl) id
  -- What the first round may end with, the next one may not begin with.
  | star _ _ ih ih' =>
    cases ho
    have hrounds := hapart
    simp only [isApart, Bool.and_eq_true, Bool.not_eq_true'] at hrounds
    have first := ih hs hloose hrounds.1 (ready_of_trim hready) rfl
    have more := ih' hs hloose hapart trivial rfl
    exact (first.rounds more hrounds.2).mono id id id
  | again _ _ ih ih' =>
    cases ho
    subst hs
    have hrounds := hapart
    simp only [isApart, Bool.and_eq_true, Bool.not_eq_true'] at hrounds
    have first := ih rfl hloose hrounds.1 (ready_of_trim (trim_gap _)) rfl
    have more := ih' rfl hloose hapart trivial rfl
    exact (first.of_gap hb.gap).rounds more hrounds.2
  | optNot | starNot | againNot | not =>
    cases ho
    exact .refl rfl
  | @rule s r c _ _ body ih =>
    cases ho
    subst hs
    by_cases htoken : isToken r = true
    · refine ⟨Matches.token_ahead hb htoken hready (.rule body), fun hpast => ?_⟩
      obtain ⟨rest, hv, hrest⟩ := hb.word
      obtain ⟨i, cs⟩ := c
      obtain rfl : cs = "default".toList ++ rest := (hpast.eq hb.gap hready).trans hv
      cases hbegin : ruleMayBegin r with
      | true => exact .inr hbegin
      | false =>
        have hnone := Matches.default_none htoken hbegin hrest i
        exact absurd ((Matches.rule body).unique hnone) (by simp)
    · have hr : (host r).1 = .loose := by simpa [isLoose, htoken] using hloose
      have hstyle : Style.loose.within (host r).1 = .loose := by
        rw [hr]
        rfl
      have inside := ih hstyle (isLoose_body hr) (isApart_body hr) (ready_of_trim hready) rfl
      exact inside.mono (mayEnd_body hr) (nullable_body r) (mayBegin_body hr)
  | charIfNot | charIfEnd | atEndNot | seqFirst | seqSecond | notNot | ruleNot => cases ho

/-- Between the two words of a text that matches the grammar are blanks alone. -/
theorem Junction.blanks {u g v : List Char} {p : Pair} (h : Junction u v)
    (hscanned : Scanned (g ++ v) u) (hgap : IsGap g v) (hp : recognize (u ++ (g ++ v)) = .ok p) :
    ∀ c ∈ g, isSpace c = true := by
  by_contra hcomment
  have hb : IsBroken g v := ⟨hgap, hcomment, h.right⟩
  obtain ⟨front, rfl⟩ := h.left
  have hahead : Ahead g v (front ++ "export".toList ++ (g ++ v)) :=
    ⟨_, by rw [List.getLast?_append_of_ne_nil _ (by decide)]; rfl, hscanned, rfl⟩
  obtain ⟨b, d, _, _, stmts, last, -, -⟩ := program_of_recognize hp
  have hstmts := stmts.confined hb rfl (by decide) (by decide) (trim_gap _) rfl
  obtain ⟨j, hj⟩ := gap_loose b
  rw [hj] at last
  obtain ⟨_, -, hend⟩ := last.rule_inv
  have hend : Matches .loose .atEnd ⟨j, trim b.rest⟩ (some (d, _)) := hend
  have hnil : trim b.rest = [] := by
    generalize trim b.rest = cs at hend
    cases hend
    rfl
  have hne {cs : List Char} (hcs : Ahead g v cs ∨ Past g v cs) : cs ≠ [] := by
    obtain ⟨rest, hv, -⟩ := h.right
    rintro rfl
    rcases hcs with ⟨w, -, -, hw⟩ | hw | hw
    · simp [hv] at hw
    · simp [hv] at hw
    · simp [hv] at hw
  rcases (hstmts.of_gap hgap).ahead hahead with hb | ⟨hb, -⟩
  · exact hne (.inl hb.trim) hnil
  · exact hne (.inr (hb.trim hgap)) hnil

end MacroEngine.Grammar
