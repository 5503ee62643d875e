import Mathlib.Data.List.Forall2
import MacroEngine.Proofs.RoundTrip.TreeTokens
import MacroEngine.Proofs.RoundTrip.Infix

/-!
# Reading lists and heads back

Elements with commas between them are read one by one, and what stands in front of the body of a
function, a method or a class is read from the pairs of its parts. Each part has pairs of its own
rules only, so that the readers, which look for pairs of one rule, pass over the others.
-/

namespace MacroEngine.Grammar

section Lists

variable {α : Type} {e : Peg} {toks : α → List Tok} {P : α → Pair → Prop} {F : List Tok → Prop}
  {xs : List α} {rest : List Tok}

theorem commas_cons (ts : List Tok) (pieces : List (List Tok)) :
    commas (ts :: pieces) = ts ++ pieces.flatMap (.sym ',' :: ·) := by
  induction pieces generalizing ts with
  | nil => simp [commas]
  | cons ts' pieces ih => simp [commas, ih]

/-- The elements after the first one, each behind its comma. -/
theorem takesAgain_commas (h : ∀ x ∈ xs, ∀ rest, F rest → Takes e (toks x ++ rest) (One (P x)) rest)
    (hcomma : ∀ ts, F (.sym ',' :: ts)) (hrest : F rest) (hend : Fails (text ",") rest) :
    TakesAgain (text "," ++ e) ((xs.map toks).flatMap (.sym ',' :: ·) ++ rest) (List.Forall₂ P xs)
      rest := by
  induction xs with
  | nil => exact (TakesAgain.done (Fails.seq_left hend)).mono fun ps hps => hps ▸ .nil
  | cons x xs ih =>
    have hmore := ih fun y hy => h y (List.mem_cons_of_mem _ hy)
    have hnext : F ((xs.map toks).flatMap (.sym ',' :: ·) ++ rest) := by
      cases xs with
      | nil => exact hrest
      | cons y ys => exact hcomma _
    have hfirst := (takes_sign (w := ",") (t := .sym ',') rfl _).seq (h x List.mem_cons_self _ hnext)
    rw [nil_cat] at hfirst
    have hall := (TakesAgain.step hfirst hmore).mono (Q := List.Forall₂ P (x :: xs)) (by
      rintro _ ⟨_, ps, rfl, ⟨p, rfl, hp⟩, hps⟩
      exact .cons hp hps)
    simpa using hall

/-- A list with commas between its elements, in front of what is no element and no comma. -/
theorem takes_commas (h : ∀ x ∈ xs, ∀ rest, F rest → Takes e (toks x ++ rest) (One (P x)) rest)
    (hcomma : ∀ ts, F (.sym ',' :: ts)) (hrest : F rest) (hend : Fails (text ",") rest)
    (hne : xs ≠ []) :
    Takes (Host.commaList e) (commas (xs.map toks) ++ rest) (List.Forall₂ P xs) rest := by
  obtain ⟨x, xs, rfl⟩ := List.exists_cons_of_ne_nil hne
  have hmore := takesAgain_commas (fun y hy => h y (List.mem_cons_of_mem _ hy)) hcomma hrest hend
  have hnext : F ((xs.map toks).flatMap (.sym ',' :: ·) ++ rest) := by
    cases xs with
    | nil => exact hrest
    | cons y ys => exact hcomma _
  rw [List.map_cons, commas_cons, List.append_assoc]
  refine ((h x List.mem_cons_self _ hnext).seq hmore.star).mono ?_
  rintro _ ⟨_, ps, rfl, ⟨p, rfl, hp⟩, hps⟩
  exact .cons hp hps

theorem takes_opt_commas (h : ∀ x ∈ xs, ∀ rest, F rest → Takes e (toks x ++ rest) (One (P x)) rest)
    (hcomma : ∀ ts, F (.sym ',' :: ts)) (hrest : F rest) (hend : Fails (text ",") rest)
    (hnone : Fails e rest) :
    Takes (.opt (Host.commaList e)) (commas (xs.map toks) ++ rest) (List.Forall₂ P xs) rest := by
  by_cases hxs : xs = []
  · subst hxs
    exact (Takes.opt_none (Fails.seq_left hnone)).mono fun ps hps => hps ▸ .nil
  · exact (takes_commas h hcomma hrest hend hxs).opt

end Lists

def Only (rs : List Rule) (ps : List Pair) : Prop := ∀ p ∈ ps, p.rule ∈ rs

section Only

variable {r : Rule} {rs : List Rule} {p : Pair} {ps qs : List Pair}

theorem only_nil : Only rs [] := by simp [Only]

theorem only_one (h : p.rule ∈ rs) : Only rs [p] := by simpa [Only] using h

theorem textsOf_append (r : Rule) (ps qs : List Pair) :
    textsOf r (ps ++ qs) = textsOf r ps ++ textsOf r qs := by simp [textsOf]

theorem identifiersIn_append (r : Rule) (ps qs : List Pair) :
    identifiersIn r (ps ++ qs) = identifiersIn r ps ++ identifiersIn r qs := by
  simp [identifiersIn]

theorem has_append (r : Rule) (ps qs : List Pair) : has r (ps ++ qs) = (has r ps || has r qs) := by
  simp [has]

theorem Only.filter (h : Only rs ps) (hr : r ∉ rs) : ps.filter (·.rule = r) = [] := by
  rw [List.filter_eq_nil_iff]
  intro p hp
  simp only [decide_eq_true_eq]
  rintro rfl
  exact hr (h p hp)

theorem Only.textsOf (h : Only rs ps) (hr : r ∉ rs) : textsOf r ps = [] := by
  simp [Grammar.textsOf, h.filter hr]

theorem Only.identifiersIn (h : Only rs ps) (hr : r ∉ rs) : identifiersIn r ps = [] := by
  simp [Grammar.identifiersIn, h.filter hr]

theorem Only.has (h : Only rs ps) (hr : r ∉ rs) : has r ps = false := by
  simp only [Grammar.has, List.any_eq_false, decide_eq_true_eq]
  rintro p hp rfl
  exact hr (h p hp)

theorem Only.find? (h : Only rs ps) (hr : r ∉ rs) : ps.find? (·.rule = r) = none := by
  rw [List.find?_eq_none]
  intro p hp
  simp only [decide_eq_true_eq]
  rintro rfl
  exact hr (h p hp)

theorem Only.append {rs' : List Rule} (h : Only rs ps) (h' : Only rs' qs) :
    Only (rs ++ rs') (ps ++ qs) := by
  intro p hp
  rcases List.mem_append.mp hp with hp | hp
  · exact List.mem_append_left _ (h p hp)
  · exact List.mem_append_right _ (h' p hp)

/-- Pairs in front that are no part of a modifier. -/
theorem macroKindOf_append (h : Only rs ps) (hr : .macroModifier ∉ rs) :
    macroKindOf (ps ++ qs) = macroKindOf qs := by
  simp [macroKindOf, List.find?_append, h.find? hr]

theorem macroKindOf_append_only (h : Only rs qs) (hr : .macroModifier ∉ rs) :
    macroKindOf (ps ++ qs) = macroKindOf ps := by
  simp [macroKindOf, List.find?_append, h.find? hr]

theorem visibilityOf_append (h : Only rs qs) (hr : .exportDefault ∉ rs) (hr' : .exportNamed ∉ rs) :
    visibilityOf (ps ++ qs) = visibilityOf ps := by
  simp [visibilityOf, has_append, h.has hr, h.has hr']

end Only

section Names

variable {names : List String} {rest : List Tok}

theorem takes_word {r : Rule} {w : String} (hr : wordOf? r = some w) (rest : List Tok) :
    Takes (.rule r) (.word w :: rest) (One (IsToken r w)) rest := (spots_word hr).takes rest

theorem takes_identifier {name : String} (h : Whole .identifier name) (rest : List Tok) :
    Takes (.rule .identifier) (.word name :: rest) (One (IsToken .identifier name)) rest :=
  (spots_identifier (whole_identifier_iff.mp h).2).takes rest

theorem textsOf_identifiers {ps : List Pair} (h : List.Forall₂ (IsToken .identifier) names ps) :
    textsOf .identifier ps = names := by
  induction h with
  | nil => rfl
  | cons hp _ ih =>
    simp only [textsOf] at ih
    simp [textsOf, hp.1, hp.2, ih]

theorem only_identifiers {ps : List Pair} (h : List.Forall₂ (IsToken .identifier) names ps) :
    Only [.identifier] ps := by
  induction h with
  | nil => exact only_nil
  | cons hp _ ih => simpa [Only, hp.1] using ih

/-- Names up to a sign that closes their list. -/
theorem takes_names (h : ∀ name ∈ names, Whole .identifier name) {c : Char}
    (hc : c ∈ [')', '\x7d']) :
    Takes (.opt (Host.commaList (.rule .identifier))) (nameToks names ++ .sym c :: rest)
      (List.Forall₂ (IsToken .identifier) names) (.sym c :: rest) := by
  have hlooks : ∀ t ∈ [Look.sym ')', .sym '\x7d'], look 60 (text ",") [t] = .fails ∧
      look 60 (.rule .identifier) [t] = .fails := by decide
  have hlook := hlooks (.sym c) (List.mem_map_of_mem hc)
  have hsees : Sees [.sym c] (.sym c :: rest) := ⟨rfl, trivial⟩
  exact takes_opt_commas (F := fun _ => True)
    (fun name hname rest _ => takes_identifier (h name hname) rest)
    (fun _ => trivial) trivial (fails_of_look hlook.1 hsees) (fails_of_look hlook.2 hsees)

theorem takes_parenthesized (h : ∀ name ∈ names, Whole .identifier name) (rest : List Tok) :
    Takes (text "(" ++ Peg.opt (Host.commaList (.rule .identifier)) ++ text ")")
      (paramToks names ++ rest) (List.Forall₂ (IsToken .identifier) names) rest := by
  have hall := ((takes_sign (w := "(") (t := .sym '(') rfl _).seq
    (takes_names (c := ')') h (by decide))).seq (takes_sign (w := ")") (t := .sym ')') rfl rest)
  simpa [paramToks] using hall

theorem takes_params (h : ∀ name ∈ names, Whole .identifier name) (rest : List Tok) :
    Takes (.rule .params) (paramToks names ++ rest)
      (One fun p => p.rule = .params ∧ textsOf .identifier p.inner = names) rest := by
  refine (Takes.rule (r := .params) rfl (takes_parenthesized h rest)).mono ?_
  rintro _ ⟨p, rfl, hr, hps⟩
  exact ⟨p, rfl, hr, textsOf_identifiers hps⟩

theorem takes_arrowParams (h : ∀ name ∈ names, Whole .identifier name) (rest : List Tok) :
    Takes (.rule .arrowParams) (paramToks names ++ rest)
      (One fun p => p.rule = .arrowParams ∧ textsOf .identifier p.inner = names) rest := by
  refine (Takes.rule (r := .arrowParams) rfl (takes_parenthesized h rest).alt_left).mono ?_
  rintro _ ⟨p, rfl, hr, hps⟩
  exact ⟨p, rfl, hr, textsOf_identifiers hps⟩

end Names

def IsAsync (isAsync : Bool) (ps : List Pair) : Prop :=
  Only [.asyncWord] ps ∧ has .asyncWord ps = isAsync

def IsMacro (kind : Option MacroKind) (ps : List Pair) : Prop :=
  Only [.macroModifier] ps ∧ macroKindOf ps = kind

def IsVisibility (v : Visibility) (ps : List Pair) : Prop :=
  Only [.exportDefault, .exportNamed] ps ∧ visibilityOf ps = v

def asyncLooks : List Look := [.word "async", .word "function"]

def exportedLooks : List Look :=
  .word "macro" :: .word "class" :: .word "const" :: .word "let" :: asyncLooks

section Modifiers

variable {rest : List Tok}

theorem takes_async (isAsync : Bool) (hnot : Fails (.rule .asyncWord) rest) :
    Takes (.opt (.rule .asyncWord)) (asyncToks isAsync ++ rest) (IsAsync isAsync) rest := by
  cases isAsync with
  | false =>
    refine (Takes.opt_none hnot).mono ?_
    rintro _ rfl
    exact ⟨only_nil, rfl⟩
  | true =>
    refine (takes_word (r := .asyncWord) rfl rest).opt.mono ?_
    rintro _ ⟨p, rfl, hp⟩
    exact ⟨only_one (by simp [hp.1]), by simp [has, hp.1]⟩

theorem takes_macroToks (kind : Option MacroKind) (h : ∃ l ∈ asyncLooks, Sees [l] rest) :
    Takes (.opt (.rule .macroModifier)) (macroToks kind ++ rest) (IsMacro kind) rest := by
  have hlooks : ∀ l ∈ asyncLooks, look 60 (.rule .macroModifier) [l] = .fails ∧
      look 60 (.rule .macroTemplate) [l] = .fails ∧ look 60 (.rule .macroDerive) [l] = .fails := by
    decide
  obtain ⟨l, hl, hsees⟩ := h
  obtain ⟨hmodifier, htemplate, hderive⟩ := hlooks l hl
  have hword : ∀ ts, Takes (.rule (.word "macro")) (.word "macro" :: ts)
      (One (IsToken (.word "macro") "macro")) ts := takes_word rfl
  -- One pair for the modifier, whose kind is told by the pairs inside it.
  have hone : ∀ {r : Rule} {w : String} {k : MacroKind},
      (∀ p : Pair, p.rule = .macroModifier → ∀ q q' : Pair, q.rule = .word "macro" → q'.rule = r →
        p.inner = [q] ++ [q'] → macroKindOf [p] = some k) →
      Takes (.opt (.alt (.rule .macroTemplate) (.rule .macroDerive))) (.word w :: rest)
        (One (IsToken r w)) rest →
      Takes (.opt (.rule .macroModifier)) (.word "macro" :: .word w :: rest) (IsMacro (some k))
        rest := by
    intro r w k hkind hmore
    refine (Takes.rule (r := .macroModifier) rfl ((hword _).seq hmore)).opt.mono ?_
    rintro _ ⟨p, rfl, hr, _, _, hps, ⟨q, rfl, hq⟩, ⟨q', rfl, hq'⟩⟩
    exact ⟨only_one (by simp [hr]), hkind p hr q q' hq.1 hq'.1 hps⟩
  rcases kind with _ | (_ | _ | _)
  · refine (Takes.opt_none (fails_of_look hmodifier hsees)).mono ?_
    rintro _ rfl
    exact ⟨only_nil, rfl⟩
  · have hnone := Takes.opt_none
      ((fails_of_look htemplate hsees).alt (fails_of_look hderive hsees))
    refine (Takes.rule (r := .macroModifier) rfl ((hword _).seq hnone)).opt.mono ?_
    rintro _ ⟨p, rfl, hr, hps⟩
    rw [cat_nil] at hps
    obtain ⟨q, hps, hq⟩ := hps
    exact ⟨only_one (by simp [hr]), by simp [macroKindOf, hr, hps, has, hq.1]⟩
  · exact hone (fun p hr q q' hq hq' hps => by simp [macroKindOf, hr, hps, has, hq, hq'])
      (takes_word (r := .macroTemplate) rfl rest).alt_left.opt
  · have hnot : look 60 (.rule .macroTemplate) [.word "derive"] = .fails := by decide
    exact hone (fun p hr q q' hq hq' hps => by simp [macroKindOf, hr, hps, has, hq, hq'])
      (.opt (.alt_right (fails_of_look hnot ⟨rfl, trivial⟩)
        (takes_word (r := .macroDerive) rfl rest)))

theorem takes_visibility (v : Visibility) (h : ∃ l ∈ exportedLooks, Sees [l] rest) :
    Takes (.opt Host.exportClause) (visibilityToks v ++ rest) (IsVisibility v) rest := by
  have hlooks : ∀ l ∈ exportedLooks, look 60 Host.exportClause [l] = .fails ∧
      look 60 (.rule .exportDefault) [.word "export", l] = .fails := by decide
  obtain ⟨l, hl, hsees⟩ := h
  obtain ⟨hnone, hnamed⟩ := hlooks l hl
  cases v with
  | internal =>
    refine (Takes.opt_none (fails_of_look hnone hsees)).mono ?_
    rintro _ rfl
    exact ⟨only_nil, rfl⟩
  | named =>
    have hnot : Fails (.rule .exportDefault) (.word "export" :: rest) :=
      fails_of_look hnamed ⟨rfl, hsees⟩
    refine (Takes.alt_right hnot (takes_word (r := .exportNamed) rfl rest)).opt.mono ?_
    rintro _ ⟨p, rfl, hp⟩
    exact ⟨only_one (by simp [hp.1]), by simp [visibilityOf, has, hp.1]⟩
  | default =>
    refine (spots_exportDefault.takes rest).alt_left.opt.mono ?_
    rintro _ ⟨p, rfl, hp⟩
    exact ⟨only_one (by simp [hp]), by simp [visibilityOf, has, hp]⟩

end Modifiers

/-- The pair of a block, which is read to `b` up to stamps. -/
def IsBlock (b : Block) (p : Pair) : Prop :=
  p.rule = .block ∧ Gives (blockOf p) (·.recast .bare = b)

def ReadsBlock (ts : List Tok) (b : Block) : Prop :=
  ∀ rest, Takes (.rule .block) (ts ++ rest) (One (IsBlock b)) rest

section Functions

variable {r : Rule} {rs : List Rule} {ts rest : List Tok} {b : Block}

theorem bodyOf_append {ps : List Pair} {p : Pair} (h : Only rs ps) (hr : .block ∉ rs)
    (hp : p.rule = .block) : bodyOf (ps ++ [p]) = blockOf p := by
  induction ps with
  | nil => simp [bodyOf, hp]
  | cons q ps ih =>
    have hq : q.rule ≠ .block := fun heq => hr (heq ▸ h q List.mem_cons_self)
    rw [List.cons_append, bodyOf, if_neg hq]
    exact ih fun p hp => h p (List.mem_cons_of_mem _ hp)

def IsHead (head : FunctionHead) (ps : List Pair) : Prop :=
  Only [.exportDefault, .exportNamed, .macroModifier, .asyncWord, .word "function", .identifier,
    .params] ps ∧ functionHeadOf ps = head

theorem isHead_append {head : FunctionHead} {vs ms as names : List Pair} {w p : Pair}
    (hv : IsVisibility head.visibility vs) (hm : IsMacro head.macroKind ms)
    (ha : IsAsync head.isAsync as) (hw : w.rule = .word "function")
    (hnames : Only [.identifier] names ∧ textsOf .identifier names = head.name.toList)
    (hp : p.rule = .params ∧ textsOf .identifier p.inner = head.params) :
    IsHead head (vs ++ ms ++ as ++ [w] ++ names ++ [p]) := by
  have hword : Only [.word "function"] [w] := only_one (by simp [hw])
  have hparams : Only [.params] [p] := only_one (by simp [hp.1])
  refine ⟨((((hv.1.append hm.1).append ha.1).append hword).append hnames.1).append hparams, ?_⟩
  obtain ⟨name, params, isAsync, macroKind, visibility⟩ := head
  unfold functionHeadOf
  congr 1
  · simp only [textsOf_append]
    rw [hv.1.textsOf (by simp), hm.1.textsOf (by simp), ha.1.textsOf (by simp),
      hword.textsOf (by simp), hparams.textsOf (by simp), hnames.2]
    cases name <;> rfl
  · simp only [identifiersIn_append]
    rw [hv.1.identifiersIn (by simp), hm.1.identifiersIn (by simp), ha.1.identifiersIn (by simp),
      hword.identifiersIn (by simp), hnames.1.identifiersIn (by simp)]
    simp [identifiersIn, hp.1, hp.2]
  · simp only [has_append]
    rw [hv.1.has (by simp), hm.1.has (by simp), ha.2, hword.has (by simp),
      hnames.1.has (by simp), hparams.has (by simp)]
    simp
  · rw [macroKindOf_append_only hparams (by simp), macroKindOf_append_only hnames.1 (by simp),
      macroKindOf_append_only hword (by simp), macroKindOf_append_only ha.1 (by simp),
      macroKindOf_append hv.1 (by simp)]
    exact hm.2
  · rw [visibilityOf_append hparams (by simp) (by simp),
      visibilityOf_append hnames.1 (by simp) (by simp),
      visibilityOf_append hword (by simp) (by simp), visibilityOf_append ha.1 (by simp) (by simp),
      visibilityOf_append hm.1 (by simp) (by simp)]
    exact hv.2

theorem functionHeadOf_append {head : FunctionHead} {ps : List Pair} {p : Pair}
    (h : IsHead head ps) (hp : p.rule = .block) : functionHeadOf (ps ++ [p]) = head := by
  have hblock : Only [.block] [p] := only_one (by simp [hp])
  rw [← h.2]
  simp [functionHeadOf, textsOf_append, identifiersIn_append, has_append, hblock.textsOf,
    hblock.identifiersIn, hblock.has, macroKindOf_append_only hblock, visibilityOf_append hblock]

def IsFunction (r : Rule) (head : FunctionHead) (b : Block) (p : Pair) : Prop :=
  p.rule = r ∧ functionHeadOf p.inner = head ∧ Gives (bodyOf p.inner) (·.recast .bare = b)

theorem isFunction_append {head : FunctionHead} {p q : Pair} {ps : List Pair} (hr : p.rule = r)
    (hps : p.inner = ps ++ [q]) (hhead : IsHead head ps)
    (hq : IsBlock b q) : IsFunction r head b p := by
  refine ⟨hr, ?_, ?_⟩
  · rw [hps, functionHeadOf_append hhead hq.1]
  · rw [hps, bodyOf_append hhead.1 (by simp) hq.1]
    exact hq.2

theorem sees_asyncLooks (isAsync : Bool) (ts : List Tok) :
    ∃ l ∈ asyncLooks, Sees [l] (asyncToks isAsync ++ .word "function" :: ts) := by
  cases isAsync with
  | false => exact ⟨.word "function", by simp [asyncLooks], rfl, trivial⟩
  | true => exact ⟨.word "async", by simp [asyncLooks], rfl, trivial⟩

theorem sees_exportedLooks (kind : Option MacroKind) (isAsync : Bool) (ts : List Tok) :
    ∃ l ∈ exportedLooks, Sees [l] (macroToks kind ++ (asyncToks isAsync ++ .word "function" :: ts)) := by
  rcases kind with _ | (_ | _ | _)
  · obtain ⟨l, hl, hsees⟩ := sees_asyncLooks isAsync ts
    exact ⟨l, by simp [exportedLooks, hl], hsees⟩
  all_goals exact ⟨.word "macro", by simp [exportedLooks], rfl, trivial⟩

theorem fails_async_function (ts : List Tok) :
    Fails (.rule .asyncWord) (.word "function" :: ts) := by
  have hlook : look 60 (.rule .asyncWord) [.word "function"] = .fails := by decide
  exact fails_of_look hlook ⟨rfl, trivial⟩

theorem takes_functionDecl {head : FunctionHead} (h : head.Regular) (hname : head.name ≠ none)
    (hblock : ReadsBlock ts b) (rest : List Tok) :
    Takes (.rule .functionDecl) (functionToks head ++ ts ++ rest)
      (One (IsFunction .functionDecl head b)) rest := by
  obtain ⟨name, heq⟩ := Option.ne_none_iff_exists'.mp hname
  have hall := ((((((takes_visibility head.visibility (sees_exportedLooks _ _ _)).seq
    (takes_macroToks head.macroKind (sees_asyncLooks _ _))).seq
    (takes_async head.isAsync (fails_async_function _))).seq
    (takes_word (r := .word "function") rfl _)).seq
    (takes_identifier (h.1 name heq) _)).seq
    (takes_params h.2 (ts ++ rest))).seq (hblock rest)
  have hrule := (Takes.rule (r := .functionDecl) rfl hall).mono
      (Q := One (IsFunction .functionDecl head b)) (by
    rintro _ ⟨p, rfl, hr, _, _, hps, ⟨_, _, rfl, ⟨_, _, rfl, ⟨_, _, rfl, ⟨_, as, rfl, ⟨vs, ms, rfl, hv, hm⟩,
      ha⟩, ⟨w, rfl, hw⟩⟩, ⟨q, rfl, hq⟩⟩, ⟨pp, rfl, hp⟩⟩, ⟨bp, rfl, hb⟩⟩
    refine ⟨p, rfl, isFunction_append hr hps (isHead_append hv hm ha hw.1 ⟨?_, ?_⟩ hp) hb⟩
    · exact only_one (by simp [hq.1])
    · simp [textsOf, hq.1, hq.2, heq])
  simpa [functionToks, heq] using hrule

theorem takes_functionExpr {head : FunctionHead} (h : head.Regular)
    (hvisibility : head.visibility = .internal) (hblock : ReadsBlock ts b) (rest : List Tok) :
    Takes (.rule .functionExpr) (functionToks head ++ ts ++ rest)
      (One (IsFunction .functionExpr head b)) rest := by
  have hparams := takes_params h.2 (ts ++ rest)
  have hname : Takes (.opt (.rule .identifier))
      (head.name.toList.map Tok.word ++ (paramToks head.params ++ (ts ++ rest)))
      (fun ps => Only [.identifier] ps ∧ textsOf .identifier ps = head.name.toList)
      (paramToks head.params ++ (ts ++ rest)) := by
    cases heq : head.name with
    | none =>
      have hlook : look 60 (.rule .identifier) [.sym '('] = .fails := by decide
      have hsees : Sees [.sym '('] (paramToks head.params ++ (ts ++ rest)) := ⟨rfl, trivial⟩
      refine (Takes.opt_none (fails_of_look hlook hsees)).mono ?_
      rintro _ rfl
      exact ⟨only_nil, rfl⟩
    | some name =>
      refine (takes_identifier (h.1 name heq) _).opt.mono ?_
      rintro _ ⟨q, rfl, hq⟩
      exact ⟨only_one (by simp [hq.1]), by simp [textsOf, hq.1, hq.2]⟩
  have hall := (((((takes_macroToks head.macroKind (sees_asyncLooks _ _)).seq
    (takes_async head.isAsync (fails_async_function _))).seq
    (takes_word (r := .word "function") rfl _)).seq hname).seq hparams).seq (hblock rest)
  have hrule := (Takes.rule (r := .functionExpr) rfl hall).mono
      (Q := One (IsFunction .functionExpr head b)) (by
    rintro _ ⟨p, rfl, hr, _, _, hps, ⟨_, _, rfl, ⟨_, names, rfl, ⟨_, _, rfl, ⟨ms, as, rfl, hm, ha⟩,
      ⟨w, rfl, hw⟩⟩, hnames⟩, ⟨pp, rfl, hp⟩⟩, ⟨bp, rfl, hb⟩⟩
    have hv : IsVisibility head.visibility [] := ⟨only_nil, by rw [hvisibility]; rfl⟩
    exact ⟨p, rfl, isFunction_append hr hps (isHead_append hv hm ha hw.1 hnames hp) hb⟩)
  simpa [functionToks, hvisibility, visibilityToks] using hrule

end Functions

def IsMethod (head : MethodHead) (b : Block) (p : Pair) : Prop :=
  p.rule = .methodMember ∧ methodHeadOf p.inner = head ∧
    Gives (bodyOf p.inner) (·.recast .bare = b)

def IsClassHead (head : ClassHead) (ps : List Pair) : Prop :=
  Only [.exportDefault, .exportNamed, .word "class", .identifier, .derivesClause] ps ∧
    classHeadOf ps = head

section Classes

variable {ts rest : List Tok} {b : Block}

theorem takes_propertyName (name : String) (rest : List Tok) :
    Takes (.rule .propertyName) (.word name :: rest) (One (IsToken .propertyName name)) rest :=
  (spots_propertyName name).takes rest

theorem takes_method {head : MethodHead} (hasync : head.name = "async" → head.isAsync = true)
    (hparams : ∀ name ∈ head.params, Whole .identifier name) (hblock : ReadsBlock ts b)
    (rest : List Tok) :
    Takes (.rule .methodMember) (methodToks head ++ ts ++ rest) (One (IsMethod head b)) rest := by
  obtain ⟨name, params, isAsync⟩ := head
  have hopt : Takes (.opt (.rule .asyncWord))
      (asyncToks isAsync ++ .word name :: (paramToks params ++ (ts ++ rest))) (IsAsync isAsync)
      (.word name :: (paramToks params ++ (ts ++ rest))) := by
    cases isAsync with
    | true =>
      refine (takes_word (r := .asyncWord) rfl _).opt.mono ?_
      rintro _ ⟨p, rfl, hp⟩
      exact ⟨only_one (by simp [hp.1]), by simp [has, hp.1]⟩
    | false =>
      have hne : name ≠ "async" := fun heq => Bool.false_ne_true (hasync heq)
      exact takes_async false (fails_word rfl (by decide) rfl hne)
  have hall := ((hopt.seq (takes_propertyName name _)).seq (takes_params hparams (ts ++ rest))).seq
    (hblock rest)
  have hrule := (Takes.rule (r := .methodMember) rfl hall).mono
    (Q := One (IsMethod ⟨name, params, isAsync⟩ b)) (by
      rintro _ ⟨p, rfl, hr, _, _, hps, ⟨_, _, rfl, ⟨as, _, rfl, ha, ⟨q, rfl, hq⟩⟩, ⟨pp, rfl, hp⟩⟩,
        ⟨bp, rfl, hb⟩⟩
      have hname : Only [.propertyName] [q] := only_one (by simp [hq.1])
      have hparam : Only [.params] [pp] := only_one (by simp [hp.1])
      have hbody : Only [.block] [bp] := only_one (by simp [hb.1])
      refine ⟨p, rfl, hr, ?_, ?_⟩
      · rw [hps]
        unfold methodHeadOf
        congr 1
        · simp only [textOf, textsOf_append]
          rw [ha.1.textsOf (by simp), hparam.textsOf (by simp), hbody.textsOf (by simp)]
          simp [textsOf, hq.1, hq.2]
        · simp only [identifiersIn_append]
          rw [ha.1.identifiersIn (by simp), hname.identifiersIn (by simp),
            hbody.identifiersIn (by simp)]
          simp [identifiersIn, hp.1, hp.2]
        · simp only [has_append]
          rw [ha.2, hname.has (by simp), hparam.has (by simp), hbody.has (by simp)]
          simp
      · rw [hps, bodyOf_append ((ha.1.append hname).append hparam) (by simp) hb.1]
        exact hb.2)
  simpa [methodToks] using hrule

theorem takes_derives {names : List String} (h : ∀ name ∈ names, Whole .identifier name) :
    Takes (.opt (.rule .derivesClause)) (deriveToks names ++ .sym '\x7b' :: rest)
      (fun ps => Only [.derivesClause] ps ∧ identifiersIn .derivesClause ps = names)
      (.sym '\x7b' :: rest) := by
  have hlooks : look 60 (.rule .derivesClause) [.sym '\x7b'] = .fails ∧
      look 60 (text ",") [.sym '\x7b'] = .fails := by decide
  have hsees : Sees [.sym '\x7b'] (.sym '\x7b' :: rest) := ⟨rfl, trivial⟩
  unfold deriveToks
  by_cases hnil : names = []
  · subst hnil
    refine (Takes.opt_none (fails_of_look hlooks.1 hsees)).mono ?_
    rintro _ rfl
    exact ⟨only_nil, rfl⟩
  · have hlist : Takes (Host.commaList (.rule .identifier)) (nameToks names ++ .sym '\x7b' :: rest)
        (List.Forall₂ (IsToken .identifier) names) (.sym '\x7b' :: rest) :=
      takes_commas (F := fun _ => True)
      (fun name hname rest _ => takes_identifier (h name hname) rest) (fun _ => trivial) trivial
      (fails_of_look hlooks.2 hsees) hnil
    rw [if_neg (by simpa using hnil)]
    refine (Takes.rule (r := .derivesClause) rfl
      ((takes_word (r := .word "derives") rfl _).seq hlist)).opt.mono ?_
    rintro _ ⟨p, rfl, hr, _, ps, hps, ⟨w, rfl, hw⟩, hnames⟩
    refine ⟨only_one (by simp [hr]), ?_⟩
    have htexts : textsOf .identifier p.inner = names := by
      rw [hps, textsOf_append, textsOf_identifiers hnames]
      simp [textsOf, hw.1]
    simp [identifiersIn, hr, htexts]

theorem takes_classHead {head : ClassHead} (hname : Whole .identifier head.name)
    (hderives : ∀ name ∈ head.derives, Whole .identifier name) :
    Takes (Peg.opt Host.exportClause ++ Peg.rule (.word "class") ++ Peg.rule .identifier ++
      Peg.opt (.rule .derivesClause)) (classToks head ++ .sym '\x7b' :: rest) (IsClassHead head)
      (.sym '\x7b' :: rest) := by
  have hclass : ∃ l ∈ exportedLooks, Sees [l]
      (.word "class" :: .word head.name :: (deriveToks head.derives ++ .sym '\x7b' :: rest)) :=
    ⟨.word "class", by simp [exportedLooks], rfl, trivial⟩
  have hall := (((takes_visibility head.visibility hclass).seq
    (takes_word (r := .word "class") rfl _)).seq (takes_identifier hname _)).seq
    (takes_derives hderives)
  have hmono := hall.mono (Q := IsClassHead head) (by
    rintro _ ⟨_, ds, rfl, ⟨_, _, rfl, ⟨vs, _, rfl, hv, ⟨w, rfl, hw⟩⟩, ⟨q, rfl, hq⟩⟩, hd⟩
    have hword : Only [.word "class"] [w] := only_one (by simp [hw.1])
    have hident : Only [.identifier] [q] := only_one (by simp [hq.1])
    refine ⟨((hv.1.append hword).append hident).append hd.1, ?_⟩
    obtain ⟨name, derives, visibility⟩ := head
    unfold classHeadOf
    congr 1
    · simp only [textOf, textsOf_append]
      rw [hv.1.textsOf (by simp), hword.textsOf (by simp), hd.1.textsOf (by simp)]
      simp [textsOf, hq.1, hq.2]
    · simp only [identifiersIn_append]
      rw [hv.1.identifiersIn (by simp), hword.identifiersIn (by simp),
        hident.identifiersIn (by simp), hd.2]
      simp
    · rw [visibilityOf_append hd.1 (by simp) (by simp),
        visibilityOf_append hident (by simp) (by simp),
        visibilityOf_append hword (by simp) (by simp)]
      exact hv.2)
  simpa [classToks] using hmono

end Classes

end MacroEngine.Grammar
