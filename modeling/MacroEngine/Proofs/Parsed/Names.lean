import MacroEngine.Proofs.Parsed.Grown
import MacroEngine.Proofs.RoundTrip.WellFormed

/-!
# Names that are read from a text

The names and numbers of a tree that is read from a text are such as the grammar has them, wherever
the tree keeps them: whatever is taken from pairs of the rule for a name is the text of such a pair.
-/

namespace MacroEngine.Grammar

variable {p : Pair} {ps : List Pair} {r : Rule} {i j : Nat} {source : List Char}

theorem Grown.matched (h : Grown p) : ∃ d, Matches .loose (.rule p.rule) p.cursor (some (d, [p])) := by
  obtain ⟨r, i, j, source, ps⟩ := p
  obtain ⟨rest, body⟩ := h.body
  exact ⟨_, .rule body⟩

theorem Grown.whole_identifier (h : Grown p) (hr : p.rule = .identifier) :
    Whole .identifier p.text := by
  obtain ⟨d, hmatch⟩ := h.matched
  rw [hr] at hmatch
  obtain ⟨w, hw, hfree, -, q, hq, -, htext⟩ := hmatch.identifier_inv
  obtain rfl := List.singleton_inj.mp hq
  exact whole_identifier_iff.mpr (htext ▸ ⟨hw, hfree⟩)

theorem Grown.whole_propertyName (h : Grown p) (hr : p.rule = .propertyName) :
    Whole .propertyName p.text := by
  obtain ⟨d, hmatch⟩ := h.matched
  rw [hr] at hmatch
  obtain ⟨w, hw, -, -, q, hq, -, htext⟩ := hmatch.propertyName_inv
  obtain rfl := List.singleton_inj.mp hq
  exact whole_propertyName_iff.mpr (htext ▸ hw)

theorem Grown.whole_number (h : Grown p) (hr : p.rule = .number) : Whole .number p.text := by
  obtain ⟨d, hmatch⟩ := h.matched
  rw [hr] at hmatch
  obtain ⟨w, hw, -, q, hq, -, htext⟩ := hmatch.number_inv
  obtain rfl := List.singleton_inj.mp hq
  exact whole_number_iff.mpr (htext ▸ hw)

/-- The inside of a template has no backtick. -/
theorem Grown.raw (h : Grown p) (hr : p.rule = .templateRaw) : '`' ∉ p.text.toList := by
  obtain ⟨r, i, j, source, ps⟩ := p
  obtain rfl : r = .templateRaw := hr
  obtain ⟨rest, body⟩ := h.body
  obtain ⟨w, rest', rfl, hw, hrest'⟩ := exists_run_rest (· ≠ '`') source
  have hw : '`' ∉ w := fun hmem => by simpa using hw _ hmem
  have hraw := (Matches.raw hw (by simpa using hrest') i).star_of_again
  obtain ⟨hd, rfl⟩ := Prod.mk.inj (Option.some.inj (body.unique hraw))
  obtain ⟨rfl, -⟩ := Cursor.mk.inj hd
  rwa [Pair.text_mk, String.toList_ofList]

theorem Grown.insideText (h : Grown p) (hr : p.rule = .template) :
    '`' ∉ (insideText p).toList := by
  obtain ⟨r, i, j, source, ps⟩ := p
  obtain rfl : r = .template := hr
  cases ps with
  | nil => simp [Grammar.insideText, Pair.inner]
  | cons q ps =>
    have hrule := h.rules q List.mem_cons_self
    exact (h.inside q List.mem_cons_self).raw (List.mem_singleton.mp hrule)

theorem textOf_mem (h : ∃ p ∈ ps, p.rule = r) : textOf r ps ∈ textsOf r ps := by
  obtain ⟨p, hp, hr⟩ := h
  have hmem : p.text ∈ textsOf r ps :=
    List.mem_map_of_mem (List.mem_filter.mpr ⟨hp, decide_eq_true hr⟩)
  rw [textOf, List.getLastD_eq_getLast?]
  cases hlast : (textsOf r ps).getLast? with
  | none => exact absurd (List.getLast?_eq_none_iff.mp hlast) (List.ne_nil_of_mem hmem)
  | some name => exact List.mem_of_getLast? hlast

section Lists

variable (h : ∀ p ∈ ps, Grown p)

include h

theorem whole_textsOf : ∀ name ∈ textsOf .identifier ps, Whole .identifier name := by
  intro name hname
  obtain ⟨p, hp, rfl⟩ := List.mem_map.mp hname
  obtain ⟨hp, hr⟩ := List.mem_filter.mp hp
  exact (h p hp).whole_identifier (of_decide_eq_true hr)

theorem whole_identifiersIn : ∀ name ∈ identifiersIn r ps, Whole .identifier name := by
  intro name hname
  obtain ⟨p, hp, hname⟩ := List.mem_flatMap.mp hname
  obtain ⟨hp, -⟩ := List.mem_filter.mp hp
  obtain ⟨r, i, j, source, qs⟩ := p
  exact whole_textsOf (h _ hp).inside name hname

theorem whole_propertyName_textOf (hmem : ∃ p ∈ ps, p.rule = .propertyName) :
    Whole .propertyName (textOf .propertyName ps) := by
  obtain ⟨p, hp, hname⟩ := List.mem_map.mp (textOf_mem hmem)
  obtain ⟨hp, hr⟩ := List.mem_filter.mp hp
  exact hname ▸ (h p hp).whole_propertyName (of_decide_eq_true hr)

theorem whole_identifier_textOf (hmem : ∃ p ∈ ps, p.rule = .identifier) :
    Whole .identifier (textOf .identifier ps) := whole_textsOf h _ (textOf_mem hmem)

theorem functionHeadOf_regular : (functionHeadOf ps).Regular :=
  ⟨fun name hname => whole_textsOf h name (List.mem_of_getLast? hname), whole_identifiersIn h⟩

end Lists

/-- A pair that its rule always holds. -/
theorem Grown.yields {q : Rule} (h : Grown (.mk r i j source ps)) (hr : (host r).1 = .loose)
    (hy : Grammar.yields q (Host.body r) = true) : ∃ p ∈ ps, p.rule = q := by
  obtain ⟨rest, body⟩ := h.body
  rw [hr] at body
  exact body.yields hy

/-- A rule that its rule never holds. -/
theorem Grown.has_eq_false {q : Rule} (h : Grown (.mk r i j source ps))
    (hq : q ∉ mentions (Host.body r)) : has q ps = false := by
  refine List.any_eq_false.mpr fun p hp hr => hq ?_
  exact of_decide_eq_true hr ▸ h.rules p hp

theorem Grown.invoke {name : Pair} {i' j' : Nat} {source' : List Char} {args : List Pair}
    (h : Grown (.mk .macroCall i j source [name, .mk .callArgs i' j' source' args])) :
    Whole .identifier name.text := by
  obtain ⟨p, hp, hr⟩ := h.yields (q := .identifier) rfl rfl
  rcases List.mem_cons.mp hp with rfl | hp
  · exact (h.inside _ List.mem_cons_self).whole_identifier hr
  · obtain rfl := List.mem_singleton.mp hp
    cases hr

theorem Grown.tagged {tag raw : Pair} (h : Grown (.mk .taggedTemplate i j source [tag, raw])) :
    Whole .identifier tag.text ∧ '`' ∉ (Grammar.insideText raw).toList := by
  obtain ⟨rest, body⟩ := h.body
  have body : Matches .loose (Peg.rule .identifier ++ Peg.rule .template) ⟨i, source⟩
    (some (⟨j, rest⟩, [tag, raw])) := body
  obtain ⟨_, _, _, hps, htag, hraw⟩ := body.seq_inv
  obtain ⟨_, rfl, -⟩ := htag.rule_inv
  obtain ⟨_, rfl, -⟩ := hraw.rule_inv
  cases hps
  exact ⟨(h.inside _ (by simp)).whole_identifier rfl, (h.inside _ (by simp)).insideText rfl⟩

theorem Grown.forOf {p₁ p₂ name p₃ p₄ p₅ : Pair}
    (h : Grown (.mk .forOfStmt i j source [p₁, p₂, name, p₃, p₄, p₅])) :
    Whole .identifier name.text := by
  obtain ⟨rest, body⟩ := h.body
  have body : Matches .loose (Peg.rule (.word "for") ++ text "(" ++ Host.varKind ++
    Peg.rule .identifier ++ Peg.rule (.word "of") ++ Peg.rule .expression ++ text ")" ++
    Peg.rule .block) ⟨i, source⟩ (some (⟨j, rest⟩, [p₁, p₂, name, p₃, p₄, p₅])) := body
  obtain ⟨_, _, _, hps, body, hblock⟩ := body.seq_inv
  obtain ⟨_, _, _, rfl, body, hclose⟩ := body.seq_inv
  obtain ⟨_, _, _, rfl, body, hiterable⟩ := body.seq_inv
  obtain ⟨_, _, _, rfl, body, hof⟩ := body.seq_inv
  obtain ⟨_, _, _, rfl, body, hname⟩ := body.seq_inv
  obtain ⟨_, _, kinds, rfl, body, hkind⟩ := body.seq_inv
  obtain ⟨_, _, _, rfl, hfor, hopen⟩ := body.seq_inv
  obtain ⟨_, rfl, -⟩ := hblock.rule_inv
  obtain ⟨rfl, -⟩ := hclose.lit_inv
  obtain ⟨_, rfl, -⟩ := hiterable.rule_inv
  obtain ⟨_, rfl, -⟩ := hof.rule_inv
  obtain ⟨_, rfl, -⟩ := hname.rule_inv
  obtain ⟨rfl, -⟩ := hopen.lit_inv
  obtain ⟨_, rfl, -⟩ := hfor.rule_inv
  obtain ⟨p, rfl⟩ : ∃ p, kinds = [p] := by
    cases hkind with
    | altFirst hkind | altSecond _ hkind =>
      obtain ⟨_, rfl, -⟩ := hkind.rule_inv
      exact ⟨_, rfl⟩
  cases hps
  exact (h.inside _ (by simp)).whole_identifier rfl

/-- A function that is an expression is not exported. -/
theorem Grown.internal (h : Grown (.mk .functionExpr i j source ps)) :
    (functionHeadOf ps).visibility = .internal := by
  have hdefault := h.has_eq_false (q := .exportDefault) (by decide)
  have hnamed := h.has_eq_false (q := .exportNamed) (by decide)
  simp [functionHeadOf, visibilityOf, hdefault, hnamed]

/-- A function that is a statement has a name. -/
theorem Grown.named (h : Grown (.mk .functionDecl i j source ps)) :
    (functionHeadOf ps).name ≠ none := by
  have hmem := textOf_mem (h.yields (q := .identifier) rfl rfl)
  simpa [functionHeadOf, List.getLast?_eq_none_iff] using List.ne_nil_of_mem hmem

/-- A method whose name is `async` is asynchronous, since the word is read as a modifier first. -/
theorem Grown.method (h : Grown (.mk .methodMember i j source ps)) (stamp : Stamp) (body : Block) :
    (Member.method stamp (methodHeadOf ps) body).Regular := by
  refine ⟨whole_propertyName_textOf h.inside (h.yields rfl rfl), fun hname => ?_,
    whole_identifiersIn h.inside⟩
  obtain ⟨rest, hbody⟩ := h.body
  have hbody : Matches .loose (Peg.opt (.rule .asyncWord) ++ Peg.rule .propertyName ++
    Peg.rule .params ++ Peg.rule .block) ⟨i, source⟩ (some (⟨j, rest⟩, ps)) := hbody
  obtain ⟨_, _, _, rfl, hbody, hblock⟩ := hbody.seq_inv
  obtain ⟨_, _, _, rfl, hbody, hparams⟩ := hbody.seq_inv
  obtain ⟨_, _, _, rfl, hasync, hkey⟩ := hbody.seq_inv
  obtain ⟨_, rfl, -⟩ := hblock.rule_inv
  obtain ⟨_, rfl, -⟩ := hparams.rule_inv
  cases hasync with
  | opt hasync =>
    obtain ⟨_, rfl, -⟩ := hasync.rule_inv
    rfl
  | optNot hnot =>
    rw [gap_of_trim (h.trimmed rfl)] at hkey
    obtain ⟨w, hw, heq, hrest, key, rfl, hrule, htext⟩ := hkey.propertyName_inv
    obtain rfl : w = "async" := by
      simpa [methodHeadOf, textOf, textsOf, hrule, htext] using hname
    obtain ⟨_, hmatch, -⟩ := spots_word (r := .asyncWord) rfl i _ hw hrest
    rw [Tok.spell_word, ← heq] at hmatch
    exact absurd (hnot.unique hmatch) (by simp)

end MacroEngine.Grammar
