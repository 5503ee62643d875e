import MacroEngine.Proofs.Grammar.Names

/-!
# Where the pairs of a text come from

Every pair in the tree of rules of a text comes from a match of the body of its rule, which begins
behind the gap if the rule allows for gaps. So the body says which rules a pair may hold
(`mentions`), which it has to (`yields`), and what did not match at its place before.
-/

namespace MacroEngine.Grammar

/-- The rules of an expression, but those that it looks ahead for. -/
def mentions : Peg → List Rule
  | .rule r => [r]
  | .lit _ | .charIf _ | .atEnd | .not _ => []
  | .seq a b | .alt a b => mentions a ++ mentions b
  | .opt e | .star e | .again e => mentions e

/-- Where the rule is told apart, no match of the expression does without it. -/
def yields (r : Rule) : Peg → Bool
  | .rule q => q = r
  | .seq a b => yields r a || yields r b
  | .alt a b => yields r a && yields r b
  | _ => false

@[simp] theorem Pair.rule_mk (r : Rule) (i j : Nat) (source : List Char) (ps : List Pair) :
    (Pair.mk r i j source ps).rule = r := rfl

def Pair.cursor : Pair → Cursor
  | .mk _ i _ source _ => ⟨i, source⟩

/-- No gap is left to skip where the expression begins. Later rounds of a repetition skip it
themselves. -/
def Ready : Peg → Cursor → Prop
  | .again _, _ => True
  | _, c => trim c.rest = c.rest

/-- A pair comes from a match of its rule, and so do the pairs inside it. -/
inductive Grown : Pair → Prop where
  | mk {r : Rule} {i j : Nat} {source rest : List Char} {ps : List Pair}
    (body : Matches (Style.loose.within (host r).1) (host r).2 ⟨i, source⟩ (some (⟨j, rest⟩, ps)))
    (trimmed : (host r).1 = .loose → trim source = source)
    (rules : ∀ p ∈ ps, p.rule ∈ mentions (Host.body r)) (inside : ∀ p ∈ ps, Grown p) :
    Grown (.mk r i j source ps)

theorem ready_of_trim {e : Peg} {c : Cursor} (h : trim c.rest = c.rest) : Ready e c := by
  cases e with
  | again => trivial
  | _ => exact h

theorem trim_gap (c : Cursor) : trim (Style.loose.gap c).rest = (Style.loose.gap c).rest :=
  trim_skipGap _ _

theorem gap_of_trim {c : Cursor} (h : trim c.rest = c.rest) : Style.loose.gap c = c :=
  skipGap_of_trim_eq h c.offset

/-- Rules without gaps hold rules without gaps and without inner rules only. -/
theorem style_of_mentions {r q : Rule} (hr : (host r).1 ≠ .loose) (hq : q ∈ mentions (host r).2) :
    (host q).1 = .atomic := by
  have hall : ∀ q ∈ mentions (host r).2, (host q).1 = .atomic := by
    cases r with
    | op => exact absurd rfl hr
    | string | template => decide
    | _ => first | exact absurd rfl hr | exact fun _ hq => absurd hq List.not_mem_nil
  exact hall q hq

/-- What an expression matched has grown, and is of the rules that it mentions. -/
theorem Matches.grown {s : Style} {e : Peg} {c : Cursor} {r : Match} (h : Matches s e c r) :
    (s = .loose ∧ Ready e c ∨ ∀ q ∈ mentions e, (host q).1 = .atomic) →
    ∀ d ps, r = some (d, ps) → ∀ p ∈ ps, p.rule ∈ mentions e ∧ Grown p := by
  induction h with
  | lit =>
    intro _ d ps hr
    obtain ⟨_, -, heq⟩ := Option.map_eq_some_iff.mp hr
    cases heq
    exact fun p hp => absurd hp List.not_mem_nil
  | charIf | atEnd | optNot | starNot | againNot | not =>
    rintro _ d ps ⟨⟩ p hp
    exact absurd hp List.not_mem_nil
  | charIfNot | charIfEnd | atEndNot | seqFirst | seqSecond | notNot | ruleNot =>
    intro _ d ps hr
    cases hr
  | seq _ _ ih ih' =>
    rintro hplace d ps ⟨⟩ p hp
    have hleft := ih (hplace.imp (fun h => ⟨h.1, ready_of_trim h.2⟩)
      fun h q hq => h q (List.mem_append_left _ hq))
    have hright := ih' (hplace.imp
      (fun (h : _ = Style.loose ∧ _) => ⟨h.1, ready_of_trim (h.1 ▸ trim_gap _)⟩)
      fun h q hq => h q (List.mem_append_right _ hq))
    rcases List.mem_append.mp hp with hp | hp
    · exact ⟨List.mem_append_left _ (hleft _ _ rfl p hp).1, (hleft _ _ rfl p hp).2⟩
    · exact ⟨List.mem_append_right _ (hright _ _ rfl p hp).1, (hright _ _ rfl p hp).2⟩
  | altFirst _ ih =>
    intro hplace d ps hr p hp
    have hp := ih (hplace.imp (fun h => ⟨h.1, ready_of_trim h.2⟩)
      fun h q hq => h q (List.mem_append_left _ hq)) d ps hr p hp
    exact ⟨List.mem_append_left _ hp.1, hp.2⟩
  | altSecond _ _ _ ih =>
    intro hplace d ps hr p hp
    have hp := ih (hplace.imp (fun h => ⟨h.1, ready_of_trim h.2⟩)
      fun h q hq => h q (List.mem_append_right _ hq)) d ps hr p hp
    exact ⟨List.mem_append_right _ hp.1, hp.2⟩
  | opt _ ih => exact fun hplace => ih (hplace.imp_left fun h => ⟨h.1, ready_of_trim h.2⟩)
  | star _ _ ih ih' =>
    rintro hplace d ps ⟨⟩ p hp
    rcases List.mem_append.mp hp with hp | hp
    · exact ih (hplace.imp_left fun h => ⟨h.1, ready_of_trim h.2⟩) _ _ rfl p hp
    · exact ih' (hplace.imp_left fun h => ⟨h.1, trivial⟩) _ _ rfl p hp
  | again _ _ ih ih' =>
    rintro hplace d ps ⟨⟩ p hp
    rcases List.mem_append.mp hp with hp | hp
    · refine ih (hplace.imp_left fun (h : _ = Style.loose ∧ _) => ⟨h.1, ?_⟩) _ _ rfl p hp
      exact ready_of_trim (h.1 ▸ trim_gap _)
    · exact ih' (hplace.imp_left fun h => ⟨h.1, trivial⟩) _ _ rfl p hp
  | @rule s r c d ps body ih =>
    rintro hplace d ps ⟨⟩ p hp
    unfold traceOf at hp
    split at hp
    · exact absurd hp List.not_mem_nil
    · obtain rfl := List.mem_singleton.mp hp
      have hstyle : s.within (host r).1 = Style.loose.within (host r).1 := by
        rcases hplace with ⟨rfl, -⟩ | hatomic
        · rfl
        · rw [hatomic r (List.mem_singleton.mpr rfl)]
          rfl
      rw [hstyle] at body ih
      have hinside : ∀ q ∈ ps, q.rule ∈ mentions (host r).2 ∧ Grown q := by
        refine ih ?_ d ps rfl
        by_cases hloose : (host r).1 = .loose
        · rcases hplace with ⟨-, hready⟩ | hatomic
          · rw [hloose]
            exact .inl ⟨rfl, ready_of_trim hready⟩
          · have hr := hatomic r (List.mem_singleton.mpr rfl)
            rw [hloose] at hr
            cases hr
        · exact .inr fun q => style_of_mentions hloose
      refine ⟨List.mem_singleton.mpr rfl, .mk body (fun hloose => ?_) (fun q hq => (hinside q hq).1)
        fun q hq => (hinside q hq).2⟩
      rcases hplace with ⟨-, hready⟩ | hatomic
      · exact hready
      · have hr := hatomic r (List.mem_singleton.mpr rfl)
        rw [hloose] at hr
        cases hr

section Grown

variable {r : Rule} {i j : Nat} {source : List Char} {ps : List Pair} {p : Pair}

theorem Grown.body (h : Grown (.mk r i j source ps)) : ∃ rest,
    Matches (Style.loose.within (host r).1) (host r).2 ⟨i, source⟩ (some (⟨j, rest⟩, ps)) := by
  cases h with
  | mk body => exact ⟨_, body⟩

theorem Grown.trimmed (h : Grown (.mk r i j source ps)) (hr : (host r).1 = .loose) :
    trim source = source := by
  cases h with
  | mk _ trimmed => exact trimmed hr

theorem Grown.rules (h : Grown (.mk r i j source ps)) : ∀ p ∈ ps, p.rule ∈ mentions (Host.body r) := by
  cases h with
  | mk _ _ rules => exact rules

theorem Grown.inside (h : Grown (.mk r i j source ps)) : ∀ p ∈ ps, Grown p := by
  cases h with
  | mk _ _ _ inside => exact inside

end Grown

section Matches

variable {s : Style} {e : Peg} {r : Rule} {c d : Cursor} {ps : List Pair}

theorem Matches.lit_inv {t : String} (h : Matches s (text t) c (some (d, ps))) :
    ps = [] ∧ c.rest = t.toList ++ d.rest := by
  generalize hr : some (d, ps) = r at h
  cases h with
  | lit =>
    obtain ⟨d', hd, heq⟩ := Option.map_eq_some_iff.mp hr.symm
    cases heq
    exact ⟨rfl, afterLit_eq_some hd⟩

theorem Matches.seq_inv {a b : Peg} (h : Matches s (a ++ b) c (some (d, ps))) :
    ∃ d' qs qs', ps = qs ++ qs' ∧ Matches s a c (some (d', qs)) ∧
      Matches s b (s.gap d') (some (d, qs')) := by
  cases h with
  | seq first second => exact ⟨_, _, _, rfl, first, second⟩

theorem Matches.anyChar_inv (h : Matches s anyChar c (some (d, ps))) : ∃ x, c.rest = x :: d.rest := by
  cases h with
  | charIf => exact ⟨_, rfl⟩

theorem Matches.not_inv {e : Peg} (h : Matches s (.not e) c (some (d, ps))) :
    d = c ∧ Matches s e c none := by
  cases h with
  | not h => exact ⟨rfl, h⟩

theorem Matches.rule_inv (h : Matches .loose (.rule r) c (some (d, ps))) :
    ∃ qs, ps = [.mk r c.offset d.offset c.rest qs] ∧
      Matches (Style.loose.within (host r).1) (host r).2 c (some (d, qs)) := by
  cases h with
  | rule body => exact ⟨_, rfl, body⟩

/-- What an expression yields is among the pairs that it matched. -/
theorem Matches.yields (h : Matches .loose e c (some (d, ps))) (hy : Grammar.yields r e = true) :
    ∃ p ∈ ps, p.rule = r := by
  induction e generalizing c d ps with
  | rule q =>
    cases h
    exact ⟨_, List.mem_singleton.mpr rfl, of_decide_eq_true hy⟩
  | seq a b iha ihb =>
    cases h with
    | seq first second =>
      rcases Bool.or_eq_true_iff.mp hy with hy | hy
      · obtain ⟨p, hp, hr⟩ := iha first hy
        exact ⟨p, List.mem_append_left _ hp, hr⟩
      · obtain ⟨p, hp, hr⟩ := ihb second hy
        exact ⟨p, List.mem_append_right _ hp, hr⟩
  | alt a b iha ihb =>
    obtain ⟨hya, hyb⟩ := Bool.and_eq_true_iff.mp hy
    cases h with
    | altFirst first => exact iha first hya
    | altSecond _ second => exact ihb second hyb
  | _ => cases hy

/-- One of several rules matched, and those before it did not. -/
theorem Matches.choice_inv {rs : List Rule}
    (h : Matches s (Host.choice (rs.map .rule)) c (some (d, ps))) :
    ∃ r ∈ rs, Matches s (.rule r) c (some (d, ps)) ∧
      ∀ q ∈ rs.takeWhile (· ≠ r), Matches s (.rule q) c none := by
  induction rs with
  | nil => cases h with
    | charIf hx => cases hx
  | cons q rs ih =>
    have hfirst (h : Matches s (.rule q) c (some (d, ps))) : ∃ r ∈ q :: rs,
        Matches s (.rule r) c (some (d, ps)) ∧
          ∀ q' ∈ (q :: rs).takeWhile (· ≠ r), Matches s (.rule q') c none :=
      ⟨q, List.mem_cons_self, h, by simp⟩
    cases rs with
    | nil => exact hfirst h
    | cons q' rs =>
      cases h with
      | altFirst first => exact hfirst first
      | altSecond first second =>
        obtain ⟨r, hr, hmatch, hbefore⟩ := ih second
        refine ⟨r, List.mem_cons_of_mem _ hr, hmatch, fun q'' hq'' => ?_⟩
        rw [List.takeWhile_cons] at hq''
        split at hq''
        · rcases List.mem_cons.mp hq'' with rfl | hq''
          · exact first
          · exact hbefore q'' hq''
        · exact absurd hq'' List.not_mem_nil

/-- What a repetition matched came round by round. -/
theorem Matches.again_inv (h : Matches .loose (.again e) c (some (d, ps))) : ∀ p ∈ ps,
    ∃ c' d' qs, trim c'.rest = c'.rest ∧ Matches .loose e c' (some (d', qs)) ∧ p ∈ qs := by
  generalize hx : Peg.again e = x at h
  generalize hr : some (d, ps) = r at h
  generalize hs : Style.loose = s at h
  induction h generalizing d ps with
  | @again s e c _ _ _ _ first more _ ih =>
    subst hs
    cases hx
    cases hr
    intro p hp
    rcases List.mem_append.mp hp with hp | hp
    · exact ⟨_, _, _, trim_gap c, first, hp⟩
    · exact ih rfl rfl rfl p hp
  | againNot => 
    cases hr
    exact fun p hp => absurd hp List.not_mem_nil
  | _ => cases hx

theorem Matches.star_inv (h : Matches .loose (.star e) c (some (d, ps))) (hc : trim c.rest = c.rest) :
    ∀ p ∈ ps, ∃ c' d' qs, trim c'.rest = c'.rest ∧ Matches .loose e c' (some (d', qs)) ∧ p ∈ qs := by
  cases h with
  | star first more =>
    intro p hp
    rcases List.mem_append.mp hp with hp | hp
    · exact ⟨_, _, _, hc, first, hp⟩
    · exact more.again_inv p hp
  | starNot => exact fun p hp => absurd hp List.not_mem_nil

end Matches

/-- Where an expression stands as a statement, nothing else could be read as one. -/
def Chosen (p : Pair) : Prop :=
  p.rule = .exprStmt → ∀ r ∈ [Rule.functionDecl, .block], Matches .loose (.rule r) p.cursor none

section Statements

variable {c d : Cursor} {ps : List Pair}

theorem Matches.statements (h : Matches .loose (.star Host.statement) c (some (d, ps)))
    (hc : trim c.rest = c.rest) : ∀ p ∈ ps, Grown p ∧ Chosen p := by
  intro p hp
  refine ⟨(h.grown (.inl ⟨rfl, hc⟩) _ _ rfl p hp).2, ?_⟩
  obtain ⟨c', d', qs, -, hmatch, hmem⟩ := h.star_inv hc p hp
  obtain ⟨r, hr, hrule, hbefore⟩ := Matches.choice_inv hmatch
  cases hrule with
  | rule =>
    obtain rfl := List.mem_singleton.mp hmem
    rintro rfl q hq
    exact hbefore q (by revert q; decide)

theorem Grown.statements {i j : Nat} {source : List Char} (h : Grown (.mk .block i j source ps)) :
    ∀ p ∈ ps, Grown p ∧ Chosen p := by
  obtain ⟨rest, body⟩ := h.body
  have body : Matches .loose (text "\x7b" ++ Peg.star Host.statement ++ text "\x7d") ⟨i, source⟩
    (some (⟨j, rest⟩, ps)) := body
  obtain ⟨_, qs, _, rfl, body, close⟩ := body.seq_inv
  obtain ⟨_, _, ps, rfl, start, stmts⟩ := body.seq_inv
  obtain ⟨rfl, -⟩ := start.lit_inv
  obtain ⟨rfl, -⟩ := close.lit_inv
  simpa using stmts.statements (trim_gap _)

end Statements

/-- The tree of rules of a text holds what its statements matched, and the end of the text. -/
theorem program_of_recognize {input : List Char} {p : Pair} (h : recognize input = .ok p) :
    ∃ b d ps q,
      Matches .loose (Peg.star Host.statement) (Style.loose.gap ⟨0, input⟩) (some (b, ps)) ∧
      Matches .loose (.rule .endOfInput) (Style.loose.gap b) (some (d, [q])) ∧
      q.rule = .endOfInput ∧ p = .mk .program 0 d.offset input (ps ++ [q]) := by
  obtain ⟨d, hmatch⟩ := (recognize_eq_ok_iff input p).mp h
  obtain ⟨ps, hp, body⟩ := hmatch.rule_inv
  obtain rfl := List.singleton_inj.mp hp
  have body : Matches .loose (text "" ++ Peg.star Host.statement ++ Peg.rule .endOfInput)
    ⟨0, input⟩ (some (d, ps)) := body
  obtain ⟨b, _, _, rfl, body, last⟩ := body.seq_inv
  obtain ⟨a, _, ps, rfl, start, stmts⟩ := body.seq_inv
  have hstart : Matches .loose (text "") ⟨0, input⟩ (some (⟨0, input⟩, [])) := .lit
  obtain ⟨rfl, rfl⟩ := Prod.mk.inj (Option.some.inj (start.unique hstart))
  obtain ⟨_, rfl, -⟩ := last.rule_inv
  exact ⟨b, d, ps, _, stmts, last, rfl, rfl⟩

theorem statements_of_recognize {input : List Char} {p : Pair} (h : recognize input = .ok p) :
    ∀ q ∈ p.inner.filter (·.rule ≠ .endOfInput), Grown q ∧ Chosen q := by
  obtain ⟨_, _, ps, last, stmts, -, hlast, rfl⟩ := program_of_recognize h
  intro q hq
  obtain ⟨hq, hrule⟩ := List.mem_filter.mp hq
  rcases List.mem_append.mp hq with hq | hq
  · exact stmts.statements (trim_gap _) q hq
  · obtain rfl := List.mem_singleton.mp hq
    simp [hlast] at hrule

end MacroEngine.Grammar
