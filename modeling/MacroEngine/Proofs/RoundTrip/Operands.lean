import MacroEngine.Proofs.RoundTrip.Expressions
import MacroEngine.Proofs.RoundTrip.Heads

/-!
# Reading simple operands back

One lemma for each form of simple operand. The alternatives for operands are tried in order, so each
lemma shows that those before its own rule fail, which the first tokens tell.
-/

namespace MacroEngine.Grammar

/-- The rules for operands in the order in which they are tried. -/
def primaryRules : List Rule :=
  [.arrowFn, .functionExpr, .macroCall, .taggedTemplate, .number, .string, .template, .boolean,
    .nullLit, .thisLit, .array, .object, .paren, .identifier]

section Operands

variable {F : List Tok → Prop} {r : Rule} {ts rest : List Tok} {P : List Pair → Prop} {x : Expr}
  {name : String} {es : List Expr} {b : Block} {names : List String}

theorem takes_primary {hs : List Look} (hr : r ∈ primaryRules)
    (hlooks : ∀ y ∈ primaryRules.takeWhile (· ≠ r), look 60 (.rule y) hs = .fails)
    (hsees : Sees hs ts) (h : Takes (.rule r) ts P rest) : Takes Host.primary ts P rest :=
  Takes.first hr (fun y hy => fails_of_look (hlooks y hy) hsees) h

theorem readsPrimary_ident (h : Whole .identifier name) :
    ReadsPrimary Follows [.word name] (.ident default name) := by
  have hlooks : ∀ l ∈ followLooks, ∀ y ∈ primaryRules.takeWhile (· ≠ .identifier),
      look 60 (.rule y) [.name, l] = .fails := by decide
  rintro rest ⟨l, hl, hsees⟩
  have hname : Sees [.name, l] ([.word name] ++ rest) := ⟨(whole_identifier_iff.mp h).2, hsees⟩
  refine (takes_primary (by decide) (hlooks l hl) hname (takes_identifier h rest)).mono ?_
  rintro _ ⟨⟨r, i, j, s, ps⟩, rfl, hr, htext⟩
  obtain rfl : r = .identifier := hr
  rw [← htext]
  exact ⟨_, rfl, gives_stamped fun _ => rfl⟩

theorem readsPrimary_token {t : Tok} {h : Look} {Q : Pair → Prop} (hr : r ∈ primaryRules)
    (hlooks : ∀ y ∈ primaryRules.takeWhile (· ≠ r), look 60 (.rule y) [h] = .fails)
    (hsees : ∀ rest, Sees [h] (t :: rest)) (hspots : Spots (.rule r) t (One Q))
    (hreads : ∀ p, Q p → Gives (primaryOf p) (·.recast .bare = x)) : ReadsPrimary F [t] x := by
  intro rest _
  refine (takes_primary hr hlooks (hsees rest) (hspots.takes rest)).mono ?_
  rintro _ ⟨p, rfl, hp⟩
  exact ⟨p, rfl, hreads p hp⟩

theorem readsPrimary_number (digits : String) :
    ReadsPrimary F [.num digits] (.number default digits) := by
  refine readsPrimary_token (h := .num) (r := .number) (by decide) (by decide)
    (fun _ => ⟨trivial, trivial⟩) (spots_number digits) ?_
  rintro ⟨r, i, j, s, ps⟩ ⟨hr, htext⟩
  obtain rfl : r = .number := hr
  rw [← htext]
  exact gives_stamped fun _ => rfl

theorem stringValue_of_isQuoted {value : String} {p : Pair}
    (h : IsQuoted .string (String.ofList (Text.escape value.toList)) p) : stringValue p = value := by
  simp [stringValue, h.2, Text.unescape_escape]

theorem readsPrimary_str (value : String) : ReadsPrimary F [.str value] (.str default value) := by
  refine readsPrimary_token (h := .str) (r := .string) (by decide) (by decide)
    (fun _ => ⟨trivial, trivial⟩) (spots_string value) ?_
  rintro ⟨r, i, j, s, ps⟩ hp
  obtain rfl : r = .string := hp.1
  refine gives_stamped fun stamp => ?_
  rw [stringValue_of_isQuoted hp]
  rfl

theorem readsPrimary_template (raw : String) :
    ReadsPrimary F [.tmpl raw] (.template default raw) := by
  refine readsPrimary_token (h := .tmpl) (r := .template) (by decide) (by decide)
    (fun _ => ⟨trivial, trivial⟩) (spots_template raw) ?_
  rintro ⟨r, i, j, s, ps⟩ ⟨hr, htext⟩
  obtain rfl : r = .template := hr
  refine gives_stamped fun stamp => ?_
  rw [htext]
  rfl

theorem readsPrimary_bool (value : Bool) :
    ReadsPrimary F [.word (if value then "true" else "false")] (.bool default value) := by
  have hlooks : ∀ value : Bool, ∀ y ∈ primaryRules.takeWhile (· ≠ .boolean),
      look 60 (.rule y) [.word (if value then "true" else "false")] = .fails := by decide
  refine readsPrimary_token (r := .boolean) (by decide) (hlooks value) (fun _ => ⟨rfl, trivial⟩)
    (spots_boolean value) ?_
  rintro ⟨r, i, j, s, ps⟩ ⟨hr, htext⟩
  obtain rfl : r = .boolean := hr
  refine gives_stamped fun stamp => ?_
  rw [htext]
  cases value <;> rfl

theorem readsPrimary_null : ReadsPrimary F [.word "null"] (.null default) := by
  refine readsPrimary_token (h := .word "null") (r := .nullLit) (by decide) (by decide)
    (fun _ => ⟨rfl, trivial⟩) (spots_word rfl) ?_
  rintro ⟨r, i, j, s, ps⟩ ⟨hr, -⟩
  obtain rfl : r = .nullLit := hr
  exact gives_stamped fun _ => rfl

theorem readsPrimary_this : ReadsPrimary F [.word "this"] (.this default) := by
  refine readsPrimary_token (h := .word "this") (r := .thisLit) (by decide) (by decide)
    (fun _ => ⟨rfl, trivial⟩) (spots_word rfl) ?_
  rintro ⟨r, i, j, s, ps⟩ ⟨hr, -⟩
  obtain rfl : r = .thisLit := hr
  exact gives_stamped fun _ => rfl

theorem readsPrimary_tagged {raw : String} (h : Whole .identifier name) :
    ReadsPrimary F [.word name, .tmpl raw] (.tagged default name raw) := by
  have hlooks : ∀ y ∈ primaryRules.takeWhile (· ≠ .taggedTemplate),
      look 60 (.rule y) [.name, .tmpl] = .fails := by decide
  intro rest _
  have hsees : Sees [.name, .tmpl] ([.word name, .tmpl raw] ++ rest) :=
    ⟨(whole_identifier_iff.mp h).2, trivial, trivial⟩
  have hall := (takes_identifier h (.tmpl raw :: rest)).seq ((spots_template raw).takes rest)
  refine (takes_primary (by decide) hlooks hsees
    (Takes.rule (r := .taggedTemplate) rfl hall)).mono ?_
  rintro _ ⟨⟨r, i, j, s, ps⟩, rfl, hr, _, _, hps, ⟨tag, rfl, htag⟩, ⟨q, rfl, hq⟩⟩
  obtain rfl : r = .taggedTemplate := hr
  obtain rfl : ps = [tag, q] := hps
  refine ⟨_, rfl, gives_stamped fun stamp => ?_⟩
  rw [htag.2, hq.2]
  rfl

theorem toksAll_eq_map (es : List Expr) : Expr.toksAll es = es.map Expr.toks := by
  induction es with
  | nil => rfl
  | cons e es ih => simp [Expr.toksAll, ih]

theorem propertyToks_eq_map (properties : List (String × Expr)) :
    Expr.propertyToks properties =
      properties.map fun p => keyTok p.1 :: .sym ':' :: p.2.toks := by
  induction properties with
  | nil => rfl
  | cons p properties ih => simp [Expr.propertyToks, ih]

def AreExprs (es : List Expr) (ps : List Pair) : Prop :=
  List.Forall₂ (fun e p => IsExpr (e.recast .explicit) p) es ps

theorem AreExprs.gives {ps : List Pair} (h : AreExprs es ps) :
    Gives (exprsOf ps) (Expr.recastAll .bare · = Expr.recastAll .explicit es) := by
  induction h with
  | nil => exact gives_pure rfl
  | cons hp _ ih =>
    exact hp.2.bind fun e he => ih.bind fun es hes => gives_pure (by simp [Expr.recastAll, he, hes])

theorem ends_sym {c : Char} (hc : c ∈ [')', ']', '\x7d', ',', ';']) (ts : List Tok) :
    Ends (.sym c :: ts) := by
  refine ⟨.sym c, ?_, rfl, trivial⟩
  simp only [List.mem_cons, List.not_mem_nil, or_false] at hc
  rcases hc with rfl | rfl | rfl | rfl | rfl <;> simp [endLooks]

theorem takes_exprs (h : ∀ e ∈ es, ReadsExpr e.toks (e.recast .explicit)) {c : Char}
    (hc : c ∈ [')', ']']) (rest : List Tok) :
    Takes (.opt (Host.commaList (.rule .expression))) (commas (Expr.toksAll es) ++ .sym c :: rest)
      (AreExprs es) (.sym c :: rest) := by
  have hlooks : ∀ t ∈ [Look.sym ')', .sym ']'], look 60 (text ",") [t] = .fails ∧
      look 60 (.rule .expression) [t] = .fails := by decide
  have hlook := hlooks (.sym c) (List.mem_map_of_mem hc)
  have hsees : Sees [.sym c] (.sym c :: rest) := ⟨rfl, trivial⟩
  have hends : Ends (.sym c :: rest) := by
    refine ends_sym ?_ rest
    simp only [List.mem_cons, List.not_mem_nil, or_false] at hc
    rcases hc with rfl | rfl <;> simp
  rw [toksAll_eq_map]
  exact takes_opt_commas h (fun ts => ends_sym (by simp) ts) hends
    (fails_of_look hlook.1 hsees) (fails_of_look hlook.2 hsees)

theorem takes_callArgs (h : ∀ e ∈ es, ReadsExpr e.toks (e.recast .explicit)) (rest : List Tok) :
    Takes (.rule .callArgs) (.sym '(' :: (commas (Expr.toksAll es) ++ .sym ')' :: rest))
      (One fun p => p.rule = .callArgs ∧ AreExprs es p.inner) rest := by
  have hall := ((takes_sign (w := "(") (t := .sym '(') rfl _).seq
    (takes_exprs h (c := ')') (by decide) rest)).seq (takes_sign (w := ")") (t := .sym ')') rfl rest)
  rw [cat_nil, nil_cat] at hall
  exact Takes.rule rfl hall

theorem ReadsPostfixed.call (h : ReadsPostfixed Follows ts x)
    (hargs : ∀ e ∈ es, ReadsExpr e.toks (e.recast .explicit)) :
    ReadsPostfixed Follows (ts ++ .sym '(' :: (commas (Expr.toksAll es) ++ [.sym ')']))
      (.call default x (Expr.recastAll .explicit es)) := by
  refine h.after (M := fun m => m.rule = .callArgs ∧ AreExprs es m.inner)
    (fun rest => ⟨⟨.sym '(', by simp [followLooks], rfl, trivial⟩, ?_⟩) ?_
  · have hcall : Takes suffix _ _ rest := (takes_callArgs hargs rest).alt_left
    simpa using hcall
  · rintro ⟨r, i, j, s, ps⟩ ⟨hr, hps⟩ e he more n
    obtain rfl : r = .callArgs := hr
    obtain ⟨args, n', hrun, hargs⟩ := hps.gives n
    have hrun : (exprsOf ps).run n = some (args, n') := hrun
    refine ⟨.call ⟨n', ⟨e.span.start, j⟩⟩ e args, n' + 1, by simp [Expr.recast, he, hargs], ?_⟩
    rw [suffixedOf, StateT.run_bind, hrun]
    rfl

theorem readsPrimary_invoke (h : Whole .identifier name)
    (hargs : ∀ e ∈ es, ReadsExpr e.toks (e.recast .explicit)) :
    ReadsPrimary F (.word name :: .sym '!' :: .sym '(' ::
      (commas (Expr.toksAll es) ++ [.sym ')'])) (.invoke default name (Expr.recastAll .explicit es)) := by
  have hlooks : ∀ y ∈ primaryRules.takeWhile (· ≠ .macroCall),
      look 60 (.rule y) [.name, .sym '!'] = .fails := by decide
  have heq : look 60 (text "=") [.sym '('] = .fails := by decide
  intro rest _
  have hsees : Sees [.name, .sym '!'] (.word name :: .sym '!' :: .sym '(' ::
      (commas (Expr.toksAll es) ++ .sym ')' :: rest)) :=
    ⟨(whole_identifier_iff.mp h).2, rfl, trivial⟩
  have hnot : Fails (text "=") (.sym '(' :: (commas (Expr.toksAll es) ++ .sym ')' :: rest)) :=
    fails_of_look heq ⟨rfl, trivial⟩
  have hall := ((takes_identifier h _).seq
    ((takes_sign (w := "!") (t := .sym '!') rfl _).seq (Takes.not hnot))).seq (takes_callArgs hargs rest)
  have hprimary := takes_primary (by decide) hlooks hsees (Takes.rule (r := .macroCall) rfl hall)
  have hmono := hprimary.mono (Q := One fun p => Gives (primaryOf p)
      (·.recast .bare = .invoke default name (Expr.recastAll .explicit es))) (by
    rintro _ ⟨⟨r, i, j, s, ps⟩, rfl, hr, _, _, hps, ⟨_, _, rfl, ⟨q, rfl, hq⟩, hnil⟩,
      ⟨⟨r', i', j', s', args⟩, rfl, hr', hargs⟩⟩
    obtain rfl : r = .macroCall := hr
    obtain rfl : r' = .callArgs := hr'
    rw [nil_cat] at hnil
    obtain rfl : _ = [] := hnil
    obtain rfl : ps = [q, .mk .callArgs i' j' s' args] := hps
    refine ⟨_, rfl, ?_⟩
    simp only [primaryOf]
    refine hargs.gives.bind fun es hes => gives_stamped fun stamp => ?_
    simp [Expr.recast, hes, hq.2])
  simpa using hmono

theorem readsPrimary_array (h : ∀ e ∈ es, ReadsExpr e.toks (e.recast .explicit)) :
    ReadsPrimary F (.sym '[' :: (commas (Expr.toksAll es) ++ [.sym ']']))
      (.array default (Expr.recastAll .explicit es)) := by
  have hlooks : ∀ y ∈ primaryRules.takeWhile (· ≠ .array),
      look 60 (.rule y) [.sym '['] = .fails := by decide
  have hcomma : look 60 (text ",") [.sym ']'] = .fails := by decide
  intro rest _
  have hsees : Sees [.sym '['] (.sym '[' :: (commas (Expr.toksAll es) ++ .sym ']' :: rest)) :=
    ⟨rfl, trivial⟩
  have hnone : Fails (text ",") (.sym ']' :: rest) := fails_of_look hcomma ⟨rfl, trivial⟩
  have hall := (((takes_sign (w := "[") (t := .sym '[') rfl _).seq
    (takes_exprs h (c := ']') (by decide) rest)).seq (Takes.opt_none hnone)).seq
    (takes_sign (w := "]") (t := .sym ']') rfl rest)
  rw [cat_nil, cat_nil, nil_cat] at hall
  have hprimary := takes_primary (by decide) hlooks hsees (Takes.rule (r := .array) rfl hall)
  have hmono := hprimary.mono (Q := One fun p => Gives (primaryOf p)
      (·.recast .bare = .array default (Expr.recastAll .explicit es))) (by
    rintro _ ⟨⟨r, i, j, s, ps⟩, rfl, hr, hps⟩
    obtain rfl : r = .array := hr
    refine ⟨_, rfl, ?_⟩
    simp only [primaryOf]
    refine hps.gives.bind fun es hes => gives_stamped fun stamp => ?_
    simp [Expr.recast, hes])
  simpa using hmono

def IsProperty (property : String × Expr) (p : Pair) : Prop :=
  ∀ more ps, Gives (propertiesOf more) (Expr.recastProperties .bare · = ps) →
    Gives (propertiesOf (p :: more))
      (Expr.recastProperties .bare · = (property.1, property.2.recast .explicit) :: ps)

theorem takes_key (name : String) (rest : List Tok) :
    Takes (.alt (.rule .propertyName) (.rule .string)) (keyTok name :: rest)
      (One fun p => (if p.rule = .string then stringValue p else p.text) = name) rest := by
  unfold keyTok
  split
  · refine (takes_propertyName name rest).alt_left.mono ?_
    rintro _ ⟨p, rfl, hr, htext⟩
    exact ⟨p, rfl, by simp [hr, htext]⟩
  · have hlook : look 60 (.rule .propertyName) [.str] = .fails := by decide
    have hnot : Fails (.rule .propertyName) (.str name :: rest) :=
      fails_of_look hlook ⟨trivial, trivial⟩
    refine (Takes.alt_right hnot ((spots_string name).takes rest)).mono ?_
    rintro _ ⟨p, rfl, hp⟩
    exact ⟨p, rfl, by simp [hp.1, stringValue_of_isQuoted hp]⟩

theorem takes_property {name : String} {e : Expr} (h : ReadsExpr e.toks (e.recast .explicit))
    (hends : Ends rest) :
    Takes (.rule .property) (keyTok name :: .sym ':' :: e.toks ++ rest) (One (IsProperty (name, e)))
      rest := by
  have hall := ((takes_key name _).seq (takes_sign (w := ":") (t := .sym ':') rfl _)).seq
    (h rest hends)
  rw [cat_nil] at hall
  refine (Takes.rule (r := .property) rfl hall).mono ?_
  rintro _ ⟨⟨r, i, j, s, ps⟩, rfl, hr, _, _, hps, ⟨key, rfl, hkey⟩, ⟨value, rfl, hvalue⟩⟩
  obtain rfl : r = .property := hr
  obtain rfl : ps = [key, value] := hps
  refine ⟨_, rfl, fun more ps hmore => ?_⟩
  simp only [propertiesOf, hkey]
  refine hvalue.2.bind fun e he => hmore.bind fun es hes => gives_pure ?_
  simp [Expr.recastProperties, he, hes]

theorem gives_propertiesOf {properties : List (String × Expr)} {ps : List Pair}
    (h : List.Forall₂ IsProperty properties ps) :
    Gives (propertiesOf ps)
      (Expr.recastProperties .bare · = Expr.recastProperties .explicit properties) := by
  induction h with
  | nil => exact gives_pure rfl
  | cons hp _ ih => exact hp _ _ ih

theorem readsPrimary_object {properties : List (String × Expr)}
    (h : ∀ p ∈ properties, ReadsExpr p.2.toks (p.2.recast .explicit)) :
    ReadsPrimary F (.sym '\x7b' :: (commas (Expr.propertyToks properties) ++ [.sym '\x7d']))
      (.object default (Expr.recastProperties .explicit properties)) := by
  have hlooks : ∀ y ∈ primaryRules.takeWhile (· ≠ .object),
      look 60 (.rule y) [.sym '\x7b'] = .fails := by decide
  have hclose : look 60 (text ",") [.sym '\x7d'] = .fails ∧
      look 60 (.rule .property) [.sym '\x7d'] = .fails := by decide
  intro rest _
  have hopen : Sees [.sym '\x7b'] (.sym '\x7b' ::
      (commas (Expr.propertyToks properties) ++ .sym '\x7d' :: rest)) := ⟨rfl, trivial⟩
  have hsees : Sees [.sym '\x7d'] (.sym '\x7d' :: rest) := ⟨rfl, trivial⟩
  have hcomma := fails_of_look hclose.1 hsees
  have hlist : Takes (.opt (Host.commaList (.rule .property)))
      (commas (Expr.propertyToks properties) ++ .sym '\x7d' :: rest)
      (List.Forall₂ IsProperty properties) (.sym '\x7d' :: rest) := by
    rw [propertyToks_eq_map]
    exact takes_opt_commas (F := Ends) (fun p hp rest hends => takes_property (h p hp) hends)
      (fun ts => ends_sym (by simp) ts) (ends_sym (by simp) rest) hcomma
      (fails_of_look hclose.2 hsees)
  have hall := (((takes_sign (w := "\x7b") (t := .sym '\x7b') rfl _).seq hlist).seq
    (Takes.opt_none hcomma)).seq (takes_sign (w := "\x7d") (t := .sym '\x7d') rfl rest)
  rw [cat_nil, cat_nil, nil_cat] at hall
  have hprimary := takes_primary (by decide) hlooks hopen (Takes.rule (r := .object) rfl hall)
  have hmono := hprimary.mono (Q := One fun p => Gives (primaryOf p)
      (·.recast .bare = .object default (Expr.recastProperties .explicit properties))) (by
    rintro _ ⟨⟨r, i, j, s, ps⟩, rfl, hr, hps⟩
    obtain rfl : r = .object := hr
    refine ⟨_, rfl, ?_⟩
    simp only [primaryOf]
    refine (gives_propertiesOf hps).bind fun es hes => gives_stamped fun stamp => ?_
    simp [Expr.recast, hes])
  simpa using hmono

/-- An expression in parentheses, which is no list of parameters. -/
theorem readsPrimary_paren (h : ReadsExpr ts x)
    (harrow : ∀ rest, F rest → Fails (.rule .arrowFn) (.sym '(' :: (ts ++ .sym ')' :: rest))) :
    ReadsPrimary F (.sym '(' :: (ts ++ [.sym ')'])) (.paren default x) := by
  have hlooks : ∀ y ∈ primaryRules.takeWhile (· ≠ .paren), y ≠ .arrowFn →
      look 60 (.rule y) [.sym '('] = .fails := by decide
  intro rest hF
  have hsees : Sees [.sym '('] (.sym '(' :: (ts ++ .sym ')' :: rest)) := ⟨rfl, trivial⟩
  have hall := ((takes_sign (w := "(") (t := .sym '(') rfl _).seq
    (h (.sym ')' :: rest) (ends_sym (by simp) rest))).seq (takes_sign (w := ")") (t := .sym ')') rfl rest)
  rw [cat_nil, nil_cat] at hall
  have hprimary : Takes Host.primary _ _ rest := Takes.first (l := primaryRules) (f := .rule)
    (x := .paren) (by decide) (fun y hy => by
      by_cases hy' : y = .arrowFn
      · exact hy' ▸ harrow rest hF
      · exact fails_of_look (hlooks y hy hy') hsees) (Takes.rule (r := .paren) rfl hall)
  have hmono := hprimary.mono (Q := One fun p => Gives (primaryOf p)
      (·.recast .bare = .paren default x)) (by
    rintro _ ⟨⟨r, i, j, s, ps⟩, rfl, hr, q, hps, hq⟩
    obtain rfl : r = .paren := hr
    obtain rfl : ps = [q] := hps
    refine ⟨_, rfl, ?_⟩
    simp only [primaryOf]
    refine hq.2.bind fun e he => gives_stamped fun stamp => ?_
    simp [Expr.recast, he])
  simpa using hmono

theorem readsPrimary_function {head : FunctionHead} (h : head.Regular)
    (hvisibility : head.visibility = .internal) (hblock : ReadsBlock ts b) :
    ReadsPrimary F (functionToks head ++ ts) (.function default head b) := by
  have hlooks : ∀ hs ∈ functionLooks (.sym '(') ++ functionLooks .name,
      ∀ y ∈ primaryRules.takeWhile (· ≠ .functionExpr), look 60 (.rule y) hs = .fails := by
    decide
  intro rest _
  have hmem : macroLook head.macroKind ++ (asyncLook head.isAsync ++
      [.word "function", if head.name = none then .sym '(' else .name]) ∈
      functionLooks (.sym '(') ++ functionLooks .name := by
    have hfunction := functionLooks_mem head.macroKind head.isAsync
    split
    · exact List.mem_append_left _ (hfunction _)
    · exact List.mem_append_right _ (hfunction _)
  have hsees := sees_functionToks h hvisibility (ts ++ rest)
  rw [← List.append_assoc (functionToks head)] at hsees
  refine (takes_primary (by decide) (hlooks _ hmem) hsees
    (takes_functionExpr h hvisibility hblock rest)).mono ?_
  rintro _ ⟨⟨r, i, j, s, ps⟩, rfl, hr, hhead, hbody⟩
  obtain rfl : r = .functionExpr := hr
  have hhead : functionHeadOf ps = head := hhead
  refine ⟨_, rfl, ?_⟩
  simp only [primaryOf]
  refine hbody.bind fun body hbody => gives_stamped fun stamp => ?_
  simp [Expr.recast, hbody, hhead]

theorem arrowBodyOf_append {rs : List Rule} {ps qs : List Pair} (h : Only rs ps)
    (hblock : .block ∉ rs) (hexpr : .expression ∉ rs) :
    arrowBodyOf (ps ++ qs) = arrowBodyOf qs := by
  induction ps with
  | nil => rfl
  | cons p ps ih =>
    have hmem := h p List.mem_cons_self
    have hnot : p.rule ≠ .block := fun heq => hblock (heq ▸ hmem)
    have hnot' : p.rule ≠ .expression := fun heq => hexpr (heq ▸ hmem)
    rw [List.cons_append, arrowBodyOf, if_neg hnot, if_neg hnot']
    exact ih fun q hq => h q (List.mem_cons_of_mem _ hq)

theorem readsPrimary_arrowFn {isAsync : Bool} (h : ∀ name ∈ names, Whole .identifier name)
    {B : Pair → Prop} {y : Block ⊕ Expr → Prop}
    (hbody : ∀ rest, F rest →
      Takes (.alt (.rule .block) (.rule .expression)) (ts ++ rest) (One B) rest)
    (hreads : ∀ p, B p → Gives (arrowBodyOf [p]) y)
    (hx : ∀ body stamp, y body → (body.elim (Expr.arrow stamp names isAsync)
      (Expr.arrowExpr stamp names isAsync)).recast .bare = x)
    (honly : ∀ p, B p → Only [.block, .expression] [p]) :
    ReadsPrimary F (asyncToks isAsync ++ (paramToks names ++ .arrow :: ts)) x := by
  have hasync : look 60 (.rule .asyncWord) [.sym '('] = .fails := by decide
  intro rest hF
  have hsees : Sees [.sym '('] (paramToks names ++ .arrow :: (ts ++ rest)) := ⟨rfl, trivial⟩
  have hall := (((takes_async isAsync (fails_of_look hasync hsees)).seq (takes_arrowParams h _)).seq
    (takes_sign (w := "=>") (t := .arrow) rfl _)).seq (hbody rest hF)
  rw [cat_nil] at hall
  have hprimary : Takes Host.primary _ _ rest := (Takes.rule (r := .arrowFn) rfl hall).alt_left
  have hmono := hprimary.mono (Q := One fun p => Gives (primaryOf p) (·.recast .bare = x)) (by
    rintro _ ⟨⟨r, i, j, s, ps⟩, rfl, hr, _, _, hps, ⟨as, _, rfl, ha, ⟨pp, rfl, hp⟩⟩, ⟨bp, rfl, hb⟩⟩
    obtain rfl : r = .arrowFn := hr
    obtain rfl : ps = as ++ [pp] ++ [bp] := hps
    have hparams : Only [.arrowParams] [pp] := only_one (by simp [hp.1])
    have hnames : identifiersIn .arrowParams (as ++ [pp] ++ [bp]) = names := by
      simp only [identifiersIn_append]
      rw [ha.1.identifiersIn (by simp), (honly bp hb).identifiersIn (by simp)]
      simp [identifiersIn, hp.1, hp.2]
    have hisAsync : has .asyncWord (as ++ [pp] ++ [bp]) = isAsync := by
      simp only [has_append]
      rw [ha.2, hparams.has (by simp), (honly bp hb).has (by simp)]
      simp
    refine ⟨_, rfl, ?_⟩
    simp only [primaryOf, arrowBodyOf_append (ha.1.append hparams) (by simp) (by simp), hnames,
      hisAsync]
    refine gives_skipId.bind fun _ _ => (hreads bp hb).bind fun body hbody =>
      gives_stamped fun stamp => ?_
    have hx := hx body stamp hbody
    cases body <;> exact hx)
  simpa using hmono

theorem readsPrimary_arrow (isAsync : Bool) (h : ∀ name ∈ names, Whole .identifier name)
    (hblock : ReadsBlock ts b) :
    ReadsPrimary F (asyncToks isAsync ++ (paramToks names ++ .arrow :: ts))
      (.arrow default names isAsync b) := by
  refine readsPrimary_arrowFn h (B := IsBlock b)
    (y := fun body => ∃ block, body = .inl block ∧ block.recast .bare = b)
    (fun rest _ => (hblock rest).alt_left) ?_ ?_ (fun p hp => only_one (by simp [hp.1]))
  · intro p hp
    rw [arrowBodyOf, if_pos hp.1]
    exact hp.2.bind fun block hblock => gives_pure ⟨block, rfl, hblock⟩
  · rintro _ stamp ⟨block, rfl, hblock⟩
    simp [Expr.recast, hblock]

theorem readsPrimary_arrowExpr (isAsync : Bool) (h : ∀ name ∈ names, Whole .identifier name)
    (hbody : ReadsExpr ts x) (hblock : ∀ rest, Fails (.rule .block) (ts ++ rest)) :
    ReadsPrimary Ends (asyncToks isAsync ++ (paramToks names ++ .arrow :: ts))
      (.arrowExpr default names isAsync x) := by
  refine readsPrimary_arrowFn h (B := IsExpr x)
    (y := fun body => ∃ e, body = .inr e ∧ e.recast .bare = x)
    (fun rest hends => .alt_right (hblock rest) (hbody rest hends)) ?_ ?_
    (fun p hp => only_one (by simp [hp.1]))
  · intro p hp
    rw [arrowBodyOf, if_neg (by simp [hp.1]), if_pos hp.1]
    exact hp.2.bind fun e he => gives_pure ⟨e, rfl, he⟩
  · rintro _ stamp ⟨e, rfl, he⟩
    simp [Expr.recast, he]

end Operands

end MacroEngine.Grammar
