import MacroEngine.Proofs.RoundTrip.Operands

/-!
# Reading statements back

One lemma for each form of statement and of class member, given how its expressions and blocks are
read. The alternatives for statements are tried in order, and the first tokens tell which one it is.
-/

namespace MacroEngine.Grammar

def IsStmt (s : Stmt) (p : Pair) : Prop :=
  p.rule ≠ .endOfInput ∧ Gives (stmtOf p) (·.recast .bare = s)

/-- In front of anything but `else`, these tokens are read to the statement `s`. -/
def ReadsStmt (e : Peg) (ts : List Tok) (s : Stmt) : Prop :=
  ∀ rest, Fails (.rule (.word "else")) rest → Takes e (ts ++ rest) (One (IsStmt s)) rest

/-- These tokens are read to the statement `s`, and no `else` is among what they begin with. -/
def ReadsStatement (ts : List Tok) (s : Stmt) : Prop :=
  ReadsStmt Host.statement ts s ∧ ∀ rest, Fails (.rule (.word "else")) (ts ++ rest)

/-- The rules for statements in the order in which they are tried. -/
def statementRules : List Rule := declarationRules ++ [.exprStmt]

def visibilityLook : Visibility → List Look
  | .internal => []
  | .named => [.word "export"]
  | .default => [.exportDefault]

def initToks : Option Expr → List Tok
  | none => [.sym ';']
  | some e => .eq :: (e.toks ++ [.sym ';'])

def IsInit (init : Option Expr) (ps : List Pair) : Prop :=
  Only [.expression] ps ∧
    Gives (initOf ps) (·.map (Expr.recast .bare) = init.map (Expr.recast .explicit))

section Parts

variable {r : Rule} {rs : List Rule} {ts rest : List Tok} {P : List Pair → Prop} {x : Expr}
  {p : Pair} {ps qs : List Pair} {init : Option Expr}

theorem readsStmt_rule {s : Stmt} (hne : r ≠ .endOfInput) (hstyle : (host r).1 = .loose)
    (h : ∀ rest, Fails (.rule (.word "else")) rest → Takes (host r).2 (ts ++ rest) P rest)
    (hreads : ∀ i j source ps, P ps → Gives (stmtOf (.mk r i j source ps)) (·.recast .bare = s)) :
    ReadsStmt (.rule r) ts s := by
  intro rest hrest
  refine (Takes.rule hstyle (h rest hrest)).mono ?_
  rintro _ ⟨⟨r', i, j, source, ps⟩, rfl, hr', hps⟩
  obtain rfl : r' = r := hr'
  exact ⟨_, rfl, hne, hreads i j source ps hps⟩

/-- The first tokens tell that no rule before this one reads the statement. -/
theorem ReadsStmt.statement {s : Stmt} (hs : List Look) (h : ReadsStmt (.rule r) ts s)
    (hr : r ∈ statementRules) (hsees : ∀ rest, Sees hs (ts ++ rest))
    (hlooks : ∀ y ∈ .word "else" :: statementRules.takeWhile (· ≠ r),
      look 60 (.rule y) hs = .fails) : ReadsStatement ts s := by
  have hfails : ∀ y ∈ .word "else" :: statementRules.takeWhile (· ≠ r), ∀ rest,
      Fails (.rule y) (ts ++ rest) := fun y hy rest => fails_of_look (hlooks y hy) (hsees rest)
  refine ⟨fun rest hrest => ?_, hfails _ List.mem_cons_self⟩
  exact Takes.first (l := statementRules) (f := .rule) hr
    (fun y hy => hfails y (List.mem_cons_of_mem _ hy) rest) (h rest hrest)

theorem sees_visibility (v : Visibility) {hs : List Look} (h : Sees hs ts) :
    Sees (visibilityLook v ++ hs) (visibilityToks v ++ ts) := by
  cases v with
  | internal => exact h
  | named => exact sees_cons_of rfl h
  | default => exact sees_cons_of trivial h

theorem initOf_append (h : Only rs ps) (hr : .expression ∉ rs) : initOf (ps ++ qs) = initOf qs := by
  induction ps with
  | nil => rfl
  | cons p ps ih =>
    have hne : p.rule ≠ .expression := fun heq => hr (heq ▸ h p List.mem_cons_self)
    rw [List.cons_append, initOf, if_neg hne]
    exact ih fun q hq => h q (List.mem_cons_of_mem _ hq)

theorem IsExpr.gives_initOf (h : IsExpr x p) :
    Gives (initOf [p]) (·.map (Expr.recast .bare) = some x) := by
  rw [initOf, if_pos h.1]
  exact h.2.bind fun e he => gives_pure (by simp [he])

theorem takes_semicolon (rest : List Tok) : Takes (text ";") (.sym ';' :: rest) Nil rest :=
  takes_sign rfl rest

theorem takes_init (h : ∀ e ∈ init, ReadsExpr e.toks (e.recast .explicit)) (rest : List Tok) :
    Takes (.opt (text "=" ++ Peg.rule .expression)) (initToks init ++ rest) (IsInit init)
      (.sym ';' :: rest) := by
  cases init with
  | none =>
    have hlook : look 60 (text "=") [.sym ';'] = .fails := by decide
    have hnone : Fails (text "=" ++ Peg.rule .expression) (.sym ';' :: rest) :=
      Fails.seq_left (fails_of_look hlook ⟨rfl, trivial⟩)
    refine (Takes.opt_none hnone).mono ?_
    rintro _ rfl
    exact ⟨only_nil, gives_pure rfl⟩
  | some e =>
    have hvalue := h e rfl (.sym ';' :: rest) (ends_sym (by simp) rest)
    have hall := (Takes.seq (takes_sign (w := "=") (t := .eq) rfl _) hvalue).opt
    rw [nil_cat] at hall
    have hmono := hall.mono (Q := IsInit (some e)) (by
      rintro _ ⟨p, rfl, hp⟩
      exact ⟨only_one (by simp [hp.1]), hp.gives_initOf⟩)
    simpa [initToks] using hmono

theorem takes_kind (kind : VarKind) (rest : List Tok) :
    Takes Host.varKind (.word kind.label :: rest)
      (One fun p => p.rule ∈ [.varConst, .varLet] ∧ varKindOf [p] = kind) rest := by
  cases kind with
  | constant =>
    refine (takes_word (r := .varConst) rfl rest).alt_left.mono ?_
    rintro _ ⟨p, rfl, hp⟩
    exact ⟨p, rfl, by simp [hp.1], by simp [varKindOf, has, hp.1]⟩
  | mutable =>
    have hlook : look 60 (.rule .varConst) [.word "let"] = .fails := by decide
    have hnot : Fails (.rule .varConst) (.word "let" :: rest) := fails_of_look hlook ⟨rfl, trivial⟩
    refine (Takes.alt_right hnot (takes_word (r := .varLet) rfl rest)).mono ?_
    rintro _ ⟨p, rfl, hp⟩
    exact ⟨p, rfl, by simp [hp.1], by simp [varKindOf, has, hp.1]⟩

end Parts

section Statements

variable {ts ts' rest : List Tok} {x : Expr} {b b' : Block} {init : Option Expr} {name : String}

theorem readsStatement_empty : ReadsStatement [.sym ';'] (.empty default) := by
  refine ReadsStmt.statement [.sym ';'] (readsStmt_rule (r := .emptyStmt) (by simp) rfl
    (fun rest _ => takes_semicolon rest) ?_) (by decide) (fun _ => ⟨rfl, trivial⟩)
    (by decide)
  intro i j source ps _
  simp only [stmtOf]
  exact gives_stamped fun _ => rfl

theorem readsStatement_throw (h : ReadsExpr ts x) :
    ReadsStatement (.word "throw" :: (ts ++ [.sym ';'])) (.throwExpr default x) := by
  refine ReadsStmt.statement [.word "throw"] (readsStmt_rule (r := .throwStmt) (by simp) rfl
    (P := fun ps => ∃ w v, ps = [w, v] ∧ IsExpr x v) ?_ ?_) (by decide) (fun _ => ⟨rfl, trivial⟩)
    (by decide)
  · intro rest _
    have hall := ((takes_word (r := .word "throw") rfl _).seq
      (h (.sym ';' :: rest) (ends_sym (by simp) rest))).seq (takes_semicolon rest)
    rw [cat_nil] at hall
    rw [List.cons_append, List.append_assoc]
    refine hall.mono ?_
    rintro _ ⟨_, _, rfl, ⟨w, rfl, -⟩, ⟨v, rfl, hv⟩⟩
    exact ⟨w, v, rfl, hv⟩
  · rintro i j source _ ⟨w, v, rfl, hv⟩
    simp only [stmtOf]
    refine hv.2.bind fun e he => gives_stamped fun _ => ?_
    simp [Stmt.recast, he]

theorem readsStatement_ret_none : ReadsStatement [.word "return", .sym ';'] (.ret default none) := by
  have hlook : look 60 (.rule .expression) [.sym ';'] = .fails := by decide
  refine ReadsStmt.statement [.word "return"] (readsStmt_rule (r := .returnStmt) (by simp)
    rfl (P := fun ps => ∃ w, ps = [w] ∧ w.rule = .word "return") ?_ ?_) (by decide)
    (fun _ => ⟨rfl, trivial⟩) (by decide)
  · intro rest _
    have hnone : Fails (.rule .expression) (.sym ';' :: rest) := fails_of_look hlook ⟨rfl, trivial⟩
    have hall := ((takes_word (r := .word "return") rfl _).seq (Takes.opt_none hnone)).seq
      (takes_semicolon rest)
    rw [cat_nil, cat_nil] at hall
    exact hall.mono fun ps ⟨w, hps, hw⟩ => ⟨w, hps, hw.1⟩
  · rintro i j source _ ⟨w, rfl, hw⟩
    simp only [stmtOf, initOf, hw]
    exact (gives_pure rfl).bind fun v (hv : none = v) => gives_stamped fun _ => by rw [← hv]; rfl

theorem readsStatement_ret (h : ReadsExpr ts x) :
    ReadsStatement (.word "return" :: (ts ++ [.sym ';'])) (.ret default (some x)) := by
  refine ReadsStmt.statement [.word "return"] (readsStmt_rule (r := .returnStmt) (by simp)
    rfl (P := fun ps => ∃ w v, ps = [w] ++ [v] ∧ w.rule = .word "return" ∧ IsExpr x v) ?_ ?_)
    (by decide) (fun _ => ⟨rfl, trivial⟩) (by decide)
  · intro rest _
    have hall := ((takes_word (r := .word "return") rfl _).seq
      (h (.sym ';' :: rest) (ends_sym (by simp) rest)).opt).seq (takes_semicolon rest)
    rw [cat_nil] at hall
    rw [List.cons_append, List.append_assoc]
    refine hall.mono ?_
    rintro _ ⟨_, _, rfl, ⟨w, rfl, hw⟩, ⟨v, rfl, hv⟩⟩
    exact ⟨w, v, rfl, hw.1, hv⟩
  · rintro i j source _ ⟨w, v, rfl, hw, hv⟩
    have hword : Only [.word "return"] [w] := only_one (by simp [hw])
    simp only [stmtOf, initOf_append hword (by simp)]
    refine hv.gives_initOf.bind fun value hvalue => gives_stamped fun _ => ?_
    obtain ⟨e, rfl, he⟩ := Option.map_eq_some_iff.mp hvalue
    simp [Stmt.recast, he]

theorem readsStatement_binding (init : Option Expr) (kind : VarKind) (v : Visibility)
    (h : Whole .identifier name)
    (hinit : ∀ e ∈ init, ReadsExpr e.toks (e.recast .explicit)) :
    ReadsStatement (visibilityToks v ++ .word kind.label :: .word name :: initToks init)
      (.binding default kind name (init.map (Expr.recast .explicit)) v) := by
  have hlooks : ∀ v ∈ [Visibility.internal, .named, .default], ∀ kind ∈ [VarKind.constant, .mutable],
      ∀ y ∈ .word "else" :: statementRules.takeWhile (· ≠ .variableStmt),
      look 60 (.rule y) (visibilityLook v ++ [.word kind.label]) = .fails := by decide
  refine ReadsStmt.statement (visibilityLook v ++ [.word kind.label])
    (readsStmt_rule (r := .variableStmt) (by simp) rfl
      (P := fun ps => ∃ vs k q is, ps = vs ++ [k] ++ [q] ++ is ∧ IsVisibility v vs ∧
        (k.rule ∈ [.varConst, .varLet] ∧ varKindOf [k] = kind) ∧ IsToken .identifier name q ∧
        IsInit init is) ?_ ?_)
    (by decide) ?_ (hlooks v (by cases v <;> simp) kind (by cases kind <;> simp))
  · intro rest _
    have hexported : ∃ l ∈ exportedLooks, Sees [l]
        (.word kind.label :: .word name :: (initToks init ++ rest)) := by
      cases kind
      · exact ⟨.word "const", by simp [exportedLooks], rfl, trivial⟩
      · exact ⟨.word "let", by simp [exportedLooks], rfl, trivial⟩
    have hall := ((((takes_visibility v hexported).seq (takes_kind kind _)).seq
      (takes_identifier h _)).seq (takes_init hinit rest)).seq (takes_semicolon rest)
    rw [cat_nil] at hall
    rw [List.append_assoc]
    refine hall.mono ?_
    rintro _ ⟨_, is, rfl, ⟨_, _, rfl, ⟨vs, _, rfl, hv, ⟨k, rfl, hk⟩⟩, ⟨q, rfl, hq⟩⟩, his⟩
    exact ⟨vs, k, q, is, rfl, hv, hk, hq, his⟩
  · rintro i j source _ ⟨vs, k, q, is, rfl, hv, hk, hq, his⟩
    have hkind : Only [.varConst, .varLet] [k] := only_one hk.1
    have hname : Only [.identifier] [q] := only_one (by simp [hq.1])
    have htext : textOf .identifier (vs ++ [k] ++ [q] ++ is) = name := by
      simp only [textOf, textsOf_append]
      rw [hv.1.textsOf (by simp), hkind.textsOf (by simp), his.1.textsOf (by simp)]
      simp [textsOf, hq.1, hq.2]
    have hlabel : varKindOf (vs ++ [k] ++ [q] ++ is) = kind := by
      rw [← hk.2]
      simp only [varKindOf, has_append]
      rw [hv.1.has (by simp), hname.has (by simp), his.1.has (by simp)]
      simp
    have hvisibility : visibilityOf (vs ++ [k] ++ [q] ++ is) = v := by
      rw [visibilityOf_append his.1 (by simp) (by simp),
        visibilityOf_append hname (by simp) (by simp),
        visibilityOf_append hkind (by simp) (by simp)]
      exact hv.2
    simp only [stmtOf, initOf_append ((hv.1.append hkind).append hname) (by simp), htext, hlabel,
      hvisibility]
    refine his.2.bind fun value hvalue => gives_stamped fun _ => ?_
    rw [← hvalue]
    cases value <;> simp [Stmt.recast]
  · intro rest
    rw [List.append_assoc]
    exact sees_visibility v ⟨rfl, trivial⟩

theorem readsStatement_expr (hs : List Look) (h : ReadsExpr ts x) (hsees : ∀ rest, Sees hs (ts ++ rest))
    (hlooks : ∀ y ∈ .word "else" :: declarationRules, look 60 (.rule y) hs = .fails) :
    ReadsStatement (ts ++ [.sym ';']) (.expr default x) := by
  refine ReadsStmt.statement hs (readsStmt_rule (r := .exprStmt) (by simp) rfl
    (P := One (IsExpr x)) ?_ ?_) (by decide) ?_ hlooks
  · intro rest _
    have hall := (h (.sym ';' :: rest) (ends_sym (by simp) rest)).seq (takes_semicolon rest)
    rw [cat_nil] at hall
    rw [List.append_assoc]
    exact hall
  · rintro i j source _ ⟨v, rfl, hv⟩
    simp only [stmtOf]
    refine hv.2.bind fun e he => gives_stamped fun _ => ?_
    simp [Stmt.recast, he]
  · intro rest
    rw [List.append_assoc]
    exact hsees _

theorem readsStatement_import {names : List String} (h : ∀ name ∈ names, Whole .identifier name)
    (specifier : String) :
    ReadsStatement (.word "import" :: .sym '\x7b' ::
      (nameToks names ++ [.sym '\x7d', .word "from", .str specifier, .sym ';']))
      (.importNames default names specifier) := by
  refine ReadsStmt.statement [.word "import"] (readsStmt_rule (r := .importStmt) (by simp) rfl
    (P := fun ps => ∃ w qs f q, ps = [w] ++ qs ++ [f] ++ [q] ∧ w.rule = .word "import" ∧
      List.Forall₂ (IsToken .identifier) names qs ∧ f.rule = .word "from" ∧
      IsQuoted .string (String.ofList (Text.escape specifier.toList)) q) ?_ ?_) (by decide)
    (fun _ => ⟨rfl, trivial⟩) (by decide)
  · intro rest _
    have hall := ((((((takes_word (r := .word "import") rfl _).seq
      (takes_sign (w := "\x7b") (t := .sym '\x7b') rfl _)).seq
      (takes_names (c := '\x7d') h (by decide))).seq
      (takes_sign (w := "\x7d") (t := .sym '\x7d') rfl _)).seq
      (takes_word (r := .word "from") rfl _)).seq ((spots_string specifier).takes _)).seq
      (takes_semicolon rest)
    rw [cat_nil, cat_nil, cat_nil] at hall
    have hmono := hall.mono (Q := fun ps => ∃ w qs f q, ps = [w] ++ qs ++ [f] ++ [q] ∧
        w.rule = .word "import" ∧ List.Forall₂ (IsToken .identifier) names qs ∧
        f.rule = .word "from" ∧ IsQuoted .string (String.ofList (Text.escape specifier.toList)) q) (by
      rintro _ ⟨_, _, rfl, ⟨_, _, rfl, ⟨_, qs, rfl, ⟨w, rfl, hw⟩, hqs⟩, ⟨f, rfl, hf⟩⟩, ⟨q, rfl, hq⟩⟩
      exact ⟨w, qs, f, q, rfl, hw.1, hqs, hf.1, hq⟩)
    have htoks : (.word "import" :: .sym '\x7b' :: (nameToks names ++
        [.sym '\x7d', .word "from", .str specifier, .sym ';'])) ++ rest =
        .word "import" :: .sym '\x7b' :: (nameToks names ++
          .sym '\x7d' :: .word "from" :: .str specifier :: .sym ';' :: rest) := by simp
    rw [htoks]
    exact hmono
  · rintro i j source _ ⟨w, qs, f, q, rfl, hw, hqs, hf, hq⟩
    have hword : Only [.word "import"] [w] := only_one (by simp [hw])
    have hfrom : Only [.word "from"] [f] := only_one (by simp [hf])
    have hstring : Only [.string] [q] := only_one (by simp [hq.1])
    have hnames : textsOf .identifier ([w] ++ qs ++ [f] ++ [q]) = names := by
      simp only [textsOf_append]
      rw [hword.textsOf (by simp), hfrom.textsOf (by simp), hstring.textsOf (by simp),
        textsOf_identifiers hqs]
      simp
    have honly := (hword.append (only_identifiers hqs)).append hfrom
    have hfind : ([w] ++ qs ++ [f] ++ [q]).find? (·.rule = .string) = some q := by
      rw [List.find?_append, honly.find? (by simp)]
      simp [hq.1]
    simp only [stmtOf, hnames, hfind]
    refine gives_stamped fun _ => ?_
    simp [Stmt.recast, stringValue_of_isQuoted hq]

/-- A condition in parentheses and a block, behind a word. -/
theorem takes_guarded (w : String) (h : ReadsExpr ts x) (hblock : ReadsBlock ts' b)
    (rest : List Tok) :
    Takes (Peg.rule (.word w) ++ text "(" ++ Peg.rule .expression ++ text ")" ++ Peg.rule .block)
      (.word w :: .sym '(' :: (ts ++ .sym ')' :: (ts' ++ rest)))
      (fun ps => ∃ k c t, ps = [k, c, t] ∧ IsExpr x c ∧ IsBlock b t) rest := by
  have hall := ((((takes_word (r := .word w) rfl _).seq
    (takes_sign (w := "(") (t := .sym '(') rfl _)).seq
    (h (.sym ')' :: (ts' ++ rest)) (ends_sym (by simp) _))).seq
    (takes_sign (w := ")") (t := .sym ')') rfl _)).seq (hblock rest)
  rw [cat_nil, cat_nil] at hall
  refine hall.mono ?_
  rintro _ ⟨_, _, rfl, ⟨_, _, rfl, ⟨k, rfl, -⟩, ⟨c, rfl, hc⟩⟩, ⟨t, rfl, ht⟩⟩
  exact ⟨k, c, t, rfl, hc, ht⟩

theorem readsStatement_while (h : ReadsExpr ts x) (hblock : ReadsBlock ts' b) :
    ReadsStatement (.word "while" :: .sym '(' :: (ts ++ .sym ')' :: ts'))
      (.whileLoop default x b) := by
  refine ReadsStmt.statement [.word "while"] (readsStmt_rule (r := .whileStmt) (by simp) rfl
    (P := fun ps => ∃ k c t, ps = [k, c, t] ∧ IsExpr x c ∧ IsBlock b t) ?_ ?_) (by decide)
    (fun _ => ⟨rfl, trivial⟩) (by decide)
  · intro rest _
    simp only [List.cons_append, List.append_assoc]
    exact takes_guarded "while" h hblock rest
  · rintro i j source _ ⟨k, c, t, rfl, hc, ht⟩
    simp only [stmtOf]
    refine hc.2.bind fun e he => ht.2.bind fun block hb => gives_stamped fun _ => ?_
    simp [Stmt.recast, he, hb]

theorem readsStmt_if (h : ReadsExpr ts x) (hblock : ReadsBlock ts' b) :
    ReadsStmt (.rule .ifStmt) (.word "if" :: .sym '(' :: (ts ++ .sym ')' :: ts'))
      (.ifElse default x b none) := by
  refine readsStmt_rule (by simp) rfl
    (P := fun ps => ∃ k c t, ps = [k, c, t] ∧ IsExpr x c ∧ IsBlock b t) ?_ ?_
  · intro rest hrest
    have hnone : Fails (Peg.rule (.word "else") ++ Peg.alt (.rule .ifStmt) (.rule .block)) rest :=
      Fails.seq_left hrest
    have hall := (takes_guarded "if" h hblock rest).seq (Takes.opt_none hnone)
    rw [cat_nil] at hall
    simp only [List.cons_append, List.append_assoc]
    exact hall
  · rintro i j source _ ⟨k, c, t, rfl, hc, ht⟩
    simp only [stmtOf]
    refine hc.2.bind fun e he => ht.2.bind fun block hb => gives_stamped fun _ => ?_
    simp [Stmt.recast, he, hb]

theorem readsStmt_ifElse {ts'' : List Tok} {s : Stmt} (h : ReadsExpr ts x)
    (hblock : ReadsBlock ts' b)
    (halternative : ReadsStmt (.alt (.rule .ifStmt) (.rule .block)) ts'' s) :
    ReadsStmt (.rule .ifStmt) (.word "if" :: .sym '(' ::
      (ts ++ .sym ')' :: (ts' ++ .word "else" :: ts''))) (.ifElse default x b (some s)) := by
  refine readsStmt_rule (by simp) rfl (P := fun ps => ∃ k c t l a, ps = [k, c, t, l, a] ∧
    IsExpr x c ∧ IsBlock b t ∧ IsStmt s a) ?_ ?_
  · intro rest hrest
    have hmore := (Takes.seq (takes_word (r := .word "else") rfl (ts'' ++ rest))
      (halternative rest hrest)).opt
    have hall := (takes_guarded "if" h hblock _).seq hmore
    have hmono := hall.mono (Q := fun ps => ∃ k c t l a, ps = [k, c, t, l, a] ∧
        IsExpr x c ∧ IsBlock b t ∧ IsStmt s a) (by
      rintro _ ⟨_, _, rfl, ⟨k, c, t, rfl, hc, ht⟩, ⟨_, _, rfl, ⟨l, rfl, -⟩, ⟨a, rfl, ha⟩⟩⟩
      exact ⟨k, c, t, l, a, rfl, hc, ht, ha⟩)
    simp only [List.cons_append, List.append_assoc]
    exact hmono
  · rintro i j source _ ⟨k, c, t, l, a, rfl, hc, ht, ha⟩
    simp only [stmtOf]
    refine hc.2.bind fun e he => ht.2.bind fun block hb => ha.2.bind fun s hs =>
      gives_stamped fun _ => ?_
    simp [Stmt.recast, he, hb, hs]

theorem readsStatement_if {s : Stmt}
    (h : ReadsStmt (.rule .ifStmt) (.word "if" :: ts) s) : ReadsStatement (.word "if" :: ts) s :=
  h.statement [.word "if"] (by decide) (fun _ => ⟨rfl, trivial⟩) (by decide)

theorem readsStatement_forOf (kind : VarKind) (hname : Whole .identifier name) (h : ReadsExpr ts x)
    (hblock : ReadsBlock ts' b) :
    ReadsStatement (.word "for" :: .sym '(' :: .word kind.label :: .word name :: .word "of" ::
      (ts ++ .sym ')' :: ts')) (.forOf default kind name x b) := by
  refine ReadsStmt.statement [.word "for"] (readsStmt_rule (r := .forOfStmt) (by simp) rfl
    (P := fun ps => ∃ w k q o e t, ps = [w, k, q, o, e, t] ∧ varKindOf [k] = kind ∧
      q.text = name ∧ IsExpr x e ∧ IsBlock b t) ?_ ?_) (by decide)
    (fun _ => ⟨rfl, trivial⟩) (by decide)
  · intro rest _
    have hall := (((((((takes_word (r := .word "for") rfl _).seq
      (takes_sign (w := "(") (t := .sym '(') rfl _)).seq (takes_kind kind _)).seq
      (takes_identifier hname _)).seq (takes_word (r := .word "of") rfl _)).seq
      (h (.sym ')' :: (ts' ++ rest)) (ends_sym (by simp) _))).seq
      (takes_sign (w := ")") (t := .sym ')') rfl _)).seq (hblock rest)
    rw [cat_nil, cat_nil] at hall
    have hmono := hall.mono (Q := fun ps => ∃ w k q o e t, ps = [w, k, q, o, e, t] ∧
        varKindOf [k] = kind ∧ q.text = name ∧ IsExpr x e ∧ IsBlock b t) (by
      rintro _ ⟨_, _, rfl, ⟨_, _, rfl, ⟨_, _, rfl, ⟨_, _, rfl, ⟨_, _, rfl, ⟨w, rfl, -⟩, ⟨k, rfl, hk⟩⟩,
        ⟨q, rfl, hq⟩⟩, ⟨o, rfl, -⟩⟩, ⟨e, rfl, he⟩⟩, ⟨t, rfl, ht⟩⟩
      exact ⟨w, k, q, o, e, t, rfl, hk.2, hq.2, he, ht⟩)
    simp only [List.cons_append, List.append_assoc]
    exact hmono
  · rintro i j source _ ⟨w, k, q, o, e, t, rfl, hk, hq, he, ht⟩
    simp only [stmtOf, hk, hq]
    refine he.2.bind fun e he => ht.2.bind fun block hb => gives_stamped fun _ => ?_
    simp [Stmt.recast, he, hb]

theorem readsStatement_defer (hblock : ReadsBlock ts b) :
    ReadsStatement (.word "defer" :: ts) (.defer default b) := by
  refine ReadsStmt.statement [.word "defer"] (readsStmt_rule (r := .deferStmt) (by simp) rfl
    (P := fun ps => ∃ w t, ps = [w, t] ∧ IsBlock b t) ?_ ?_) (by decide)
    (fun _ => ⟨rfl, trivial⟩) (by decide)
  · intro rest _
    refine (Takes.seq (takes_word (r := .word "defer") rfl _) (hblock rest)).mono ?_
    rintro _ ⟨_, _, rfl, ⟨w, rfl, -⟩, ⟨t, rfl, ht⟩⟩
    exact ⟨w, t, rfl, ht⟩
  · rintro i j source _ ⟨w, t, rfl, ht⟩
    simp only [stmtOf]
    refine ht.2.bind fun block hb => gives_stamped fun _ => ?_
    simp [Stmt.recast, hb]

theorem readsStatement_try (hblock : ReadsBlock ts b) (hfinalizer : ReadsBlock ts' b') :
    ReadsStatement (.word "try" :: (ts ++ .word "finally" :: ts')) (.tryFinally default b b') := by
  refine ReadsStmt.statement [.word "try"] (readsStmt_rule (r := .tryStmt) (by simp) rfl
    (P := fun ps => ∃ w t f u, ps = [w, t, f, u] ∧ IsBlock b t ∧ IsBlock b' u) ?_ ?_) (by decide)
    (fun _ => ⟨rfl, trivial⟩) (by decide)
  · intro rest _
    have hall := ((Takes.seq (takes_word (r := .word "try") rfl _) (hblock _)).seq
      (takes_word (r := .word "finally") rfl _)).seq (hfinalizer rest)
    have hmono := hall.mono (Q := fun ps => ∃ w t f u, ps = [w, t, f, u] ∧ IsBlock b t ∧ IsBlock b' u) (by
      rintro _ ⟨_, _, rfl, ⟨_, _, rfl, ⟨_, _, rfl, ⟨w, rfl, -⟩, ⟨t, rfl, ht⟩⟩, ⟨f, rfl, -⟩⟩, ⟨u, rfl, hu⟩⟩
      exact ⟨w, t, f, u, rfl, ht, hu⟩)
    simp only [List.cons_append, List.append_assoc]
    exact hmono
  · rintro i j source _ ⟨w, t, f, u, rfl, ht, hu⟩
    simp only [stmtOf]
    refine ht.2.bind fun block hb => hu.2.bind fun final hb' => gives_stamped fun _ => ?_
    simp [Stmt.recast, hb, hb']

theorem IsBlock.isStmt {p : Pair} (h : IsBlock b p) : IsStmt (.block default b) p := by
  obtain ⟨hr, hreads⟩ := h
  obtain ⟨r, i, j, source, ps⟩ := p
  obtain rfl : r = .block := hr
  refine ⟨by simp [Pair.rule], fun n => ?_⟩
  obtain ⟨block, n', hrun, hb⟩ := hreads n
  simp only [blockOf, StateT.run_bind, Option.bind_eq_bind, Option.bind_eq_some_iff] at hrun
  obtain ⟨⟨stmts, m⟩, hstmts, ⟨stamp, m'⟩, -, hrun⟩ := hrun
  obtain ⟨rfl, rfl⟩ := Prod.mk.inj (Option.some.inj hrun)
  refine ⟨.block ⟨m + 1, ⟨i, j⟩⟩ ⟨⟨m, ⟨i, j⟩⟩, stmts⟩, m + 2, ?_, ?_⟩
  · simp only [stmtOf]
    rw [StateT.run_bind, hstmts]
    rfl
  · simpa [Stmt.recast, Block.recast] using hb

theorem readsStmt_block (hblock : ReadsBlock ts b) :
    ReadsStmt (.rule .block) ts (.block default b) := by
  intro rest _
  refine (hblock rest).mono ?_
  rintro _ ⟨p, rfl, hp⟩
  exact ⟨p, rfl, hp.isStmt⟩

theorem readsStatement_block {ts : List Tok} (hblock : ReadsBlock (.sym '\x7b' :: ts) b) :
    ReadsStatement (.sym '\x7b' :: ts) (.block default b) :=
  (readsStmt_block hblock).statement [.sym '\x7b'] (by decide) (fun _ => ⟨rfl, trivial⟩)
    (by decide)

theorem ReadsStmt.alternative_if {s : Stmt} (h : ReadsStmt (.rule .ifStmt) ts s) :
    ReadsStmt (.alt (.rule .ifStmt) (.rule .block)) ts s :=
  fun rest hrest => (h rest hrest).alt_left

theorem readsStmt_alternative_block {ts : List Tok} (hblock : ReadsBlock (.sym '\x7b' :: ts) b) :
    ReadsStmt (.alt (.rule .ifStmt) (.rule .block)) (.sym '\x7b' :: ts) (.block default b) := by
  have hlook : look 60 (.rule .ifStmt) [.sym '\x7b'] = .fails := by decide
  intro rest hrest
  have hsees : Sees [.sym '\x7b'] (.sym '\x7b' :: ts ++ rest) := ⟨rfl, trivial⟩
  have hnot := fails_of_look hlook hsees
  exact .alt_right hnot (readsStmt_block hblock rest hrest)

theorem readsStatement_function {head : FunctionHead} (h : head.Regular) (hname : head.name ≠ none)
    (hblock : ReadsBlock ts b) :
    ReadsStatement (functionToks head ++ ts) (.function default head b) := by
  have hlooks : ∀ v ∈ [Visibility.internal, .named, .default], ∀ l ∈ exportedLooks,
      ∀ y ∈ .word "else" :: statementRules.takeWhile (· ≠ .functionDecl),
      look 60 (.rule y) (visibilityLook v ++ [l]) = .fails := by decide
  have hsees : ∃ l ∈ exportedLooks, ∀ rest,
      Sees (visibilityLook head.visibility ++ [l]) (functionToks head ++ ts ++ rest) := by
    have hmacro : ∃ l ∈ exportedLooks, ∀ rest, Sees [l]
        (macroToks head.macroKind ++ (asyncToks head.isAsync ++ .word "function" :: rest)) := by
      rcases head.macroKind with _ | (_ | _ | _)
      · cases head.isAsync with
        | false => exact ⟨.word "function", by decide, fun _ => ⟨rfl, trivial⟩⟩
        | true => exact ⟨.word "async", by decide, fun _ => ⟨rfl, trivial⟩⟩
      all_goals exact ⟨.word "macro", by decide, fun _ => ⟨rfl, trivial⟩⟩
    obtain ⟨l, hl, hsees⟩ := hmacro
    refine ⟨l, hl, fun rest => ?_⟩
    have hall := sees_visibility head.visibility
      (hsees (head.name.toList.map Tok.word ++ (paramToks head.params ++ (ts ++ rest))))
    simpa [functionToks] using hall
  obtain ⟨l, hl, hsees⟩ := hsees
  refine ReadsStmt.statement (visibilityLook head.visibility ++ [l]) (r := .functionDecl) ?_
    (by decide) hsees (hlooks _ (by cases head.visibility <;> simp) l hl)
  intro rest _
  refine (takes_functionDecl h hname hblock rest).mono ?_
  rintro _ ⟨⟨r, i, j, source, ps⟩, rfl, hr, hhead, hbody⟩
  obtain rfl : r = .functionDecl := hr
  have hhead : functionHeadOf ps = head := hhead
  refine ⟨_, rfl, by simp [Pair.rule], ?_⟩
  simp only [stmtOf, hhead]
  refine hbody.bind fun body hb => gives_stamped fun _ => ?_
  simp [Stmt.recast, hb]

def IsMember (m : Member) (p : Pair) : Prop :=
  p.rule ∈ [.methodMember, .fieldMember] ∧ ∀ more ms,
    Gives (membersOf more) (Member.recastAll .bare · = Member.recastAll .explicit ms) →
    Gives (membersOf (p :: more)) (Member.recastAll .bare · = Member.recastAll .explicit (m :: ms))

def ReadsMember (m : Member) : Prop :=
  ∀ rest, Takes Host.classMember (Member.toksAll [m] ++ rest) (One (IsMember m)) rest

theorem readsMember_field (stamp : Stamp) (hname : Whole .propertyName name)
    (hinit : ∀ e ∈ init, ReadsExpr e.toks (e.recast .explicit)) :
    ReadsMember (.field stamp name init) := by
  have hlooks : ∀ key ∈ keyLooks, ∀ l ∈ [Look.sym ';', .eq],
      look 60 (.rule .methodMember) [key, l] = .fails := by decide
  intro rest
  have hkey : (keyLook name).Is (.word name) := by
    have hkey := keyLook_is name
    rwa [keyTok, if_pos (whole_propertyName_iff.mp hname)] at hkey
  have hsees : ∃ l ∈ [Look.sym ';', .eq],
      Sees [keyLook name, l] (.word name :: (initToks init ++ rest)) := by
    cases init with
    | none => exact ⟨.sym ';', by simp, sees_cons_of hkey ⟨rfl, trivial⟩⟩
    | some e => exact ⟨.eq, by simp, sees_cons_of hkey ⟨trivial, trivial⟩⟩
  obtain ⟨l, hl, hsees⟩ := hsees
  have hnot := fails_of_look (hlooks _ (keyLook_mem name) l hl) hsees
  have hall := ((takes_propertyName name _).seq (takes_init hinit rest)).seq (takes_semicolon rest)
  rw [cat_nil] at hall
  have hmember : Takes Host.classMember _ _ rest :=
    .alt_right hnot (Takes.rule (r := .fieldMember) rfl hall)
  have hmono := hmember.mono (Q := One (IsMember (.field stamp name init))) (by
    rintro _ ⟨⟨r, i, j, source, ps⟩, rfl, hr, _, is, hps, ⟨q, rfl, hq⟩, his⟩
    obtain rfl : r = .fieldMember := hr
    obtain rfl : ps = [q] ++ is := hps
    have hprop : Only [.propertyName] [q] := only_one (by simp [hq.1])
    have htext : textOf .propertyName ([q] ++ is) = name := by
      simp only [textOf, textsOf_append]
      rw [his.1.textsOf (by simp)]
      simp [textsOf, hq.1, hq.2]
    refine ⟨_, rfl, by simp [Pair.rule], fun more ms hmore => ?_⟩
    simp only [membersOf, initOf_append hprop (by simp), htext]
    refine his.2.bind fun value hvalue => (gives_stamp i j).bind fun _ _ =>
      hmore.bind fun ms' hms => gives_pure ?_
    cases value <;> cases init <;> simp_all [Member.recastAll])
  have htoks : Member.toksAll [.field stamp name init] ++ rest =
      .word name :: (initToks init ++ rest) := by
    cases init <;> simp [Member.toksAll, initToks]
  rw [htoks]
  exact hmono

theorem readsMember_method (stamp : Stamp) {head : MethodHead} {body : Block}
    (h : (Member.method stamp head body).Regular)
    (hblock : ReadsBlock body.toks (body.recast .explicit)) :
    ReadsMember (.method stamp head body) := by
  obtain ⟨-, hasync, hparams⟩ := h
  intro rest
  have htoks : Member.toksAll [.method stamp head body] ++ rest =
      methodToks head ++ body.toks ++ rest := by simp [Member.toksAll]
  rw [htoks]
  refine (Takes.alt_left (takes_method hasync hparams hblock rest)).mono ?_
  rintro _ ⟨⟨r, i, j, source, ps⟩, rfl, hr, hhead, hbody⟩
  obtain rfl : r = .methodMember := hr
  have hhead : methodHeadOf ps = head := hhead
  refine ⟨_, rfl, by simp [Pair.rule], fun more ms hmore => ?_⟩
  simp only [membersOf, hhead]
  refine gives_skipId.bind fun _ _ => hbody.bind fun body hb => (gives_stamp i j).bind fun _ _ =>
    hmore.bind fun ms' hms => gives_pure ?_
  simp [Member.recastAll, hb, hms]

end Statements

section Lists

variable {rest : List Tok} {ss : List Stmt} {ms : List Member}

def AreStmts (ss : List Stmt) (ps : List Pair) : Prop :=
  List.Forall₂ (fun s p => IsStmt (s.recast .explicit) p) ss ps

theorem AreStmts.gives {ps : List Pair} (h : AreStmts ss ps) :
    Gives (stmtsOf ps) (Stmt.recastAll .bare · = Stmt.recastAll .explicit ss) := by
  induction h with
  | nil => exact gives_pure rfl
  | cons hp _ ih =>
    exact hp.2.bind fun s hs => ih.bind fun ss hss => gives_pure (by simp [Stmt.recastAll, hs, hss])

/-- Statements up to something that is neither a statement nor an `else`. -/
theorem takes_statements (h : ∀ s ∈ ss, ReadsStatement s.toks (s.recast .explicit))
    (hend : Fails Host.statement rest) (helse : Fails (.rule (.word "else")) rest) :
    TakesAgain Host.statement (Stmt.toksAll ss ++ rest) (AreStmts ss) rest := by
  induction ss with
  | nil => exact (TakesAgain.done hend).mono fun ps hps => hps ▸ .nil
  | cons s ss ih =>
    have hmore := ih fun s hs => h s (List.mem_cons_of_mem _ hs)
    have hnext : Fails (.rule (.word "else")) (Stmt.toksAll ss ++ rest) := by
      cases ss with
      | nil => exact helse
      | cons s' ss =>
        have hs' := (h s' (by simp)).2 (Stmt.toksAll ss ++ rest)
        simpa [Stmt.toksAll] using hs'
    have hall := (TakesAgain.step ((h s List.mem_cons_self).1 _ hnext) hmore).mono
        (Q := AreStmts (s :: ss)) (by
      rintro _ ⟨_, ps, rfl, ⟨p, rfl, hp⟩, hps⟩
      exact .cons hp hps)
    simpa [Stmt.toksAll] using hall

theorem readsBlock (stamp : Stamp) (h : ∀ s ∈ ss, ReadsStatement s.toks (s.recast .explicit)) :
    ReadsBlock (Block.toks ⟨stamp, ss⟩) (Block.recast .explicit ⟨stamp, ss⟩) := by
  have hlooks : look 60 Host.statement [.sym '\x7d'] = .fails ∧
      look 60 (.rule (.word "else")) [.sym '\x7d'] = .fails := by decide
  intro rest
  have hsees : Sees [.sym '\x7d'] (.sym '\x7d' :: rest) := ⟨rfl, trivial⟩
  have hstmts := takes_statements h (fails_of_look hlooks.1 hsees) (fails_of_look hlooks.2 hsees)
  have hall := ((takes_sign (w := "\x7b") (t := .sym '\x7b') rfl _).seq hstmts.star).seq
    (takes_sign (w := "\x7d") (t := .sym '\x7d') rfl rest)
  rw [cat_nil, nil_cat] at hall
  have hmono := (Takes.rule (r := .block) rfl hall).mono
    (Q := One (IsBlock (Block.recast .explicit ⟨stamp, ss⟩))) (by
      rintro _ ⟨⟨r, i, j, source, ps⟩, rfl, hr, hps⟩
      obtain rfl : r = .block := hr
      refine ⟨_, rfl, rfl, ?_⟩
      simp only [blockOf]
      refine AreStmts.gives hps |>.bind fun ss hss => gives_stamped fun _ => ?_
      simp [Block.recast, hss])
  simpa [Block.toks] using hmono

theorem gives_membersOf {ps : List Pair} (h : List.Forall₂ IsMember ms ps) :
    Gives (membersOf ps) (Member.recastAll .bare · = Member.recastAll .explicit ms) := by
  induction h with
  | nil => exact gives_pure rfl
  | cons hp _ ih => exact hp.2 _ _ ih

theorem only_members {ps : List Pair} (h : List.Forall₂ IsMember ms ps) :
    Only [.methodMember, .fieldMember] ps := by
  induction h with
  | nil => exact only_nil
  | cons hp _ ih =>
    intro q hq
    rcases List.mem_cons.mp hq with rfl | hq
    · exact hp.1
    · exact ih q hq

theorem Member.toksAll_cons (m : Member) (ms : List Member) :
    Member.toksAll (m :: ms) = Member.toksAll [m] ++ Member.toksAll ms := by
  cases m with
  | field s name init => cases init <;> simp [Member.toksAll]
  | method s head body => simp [Member.toksAll]

theorem takes_members (h : ∀ m ∈ ms, ReadsMember m) (hend : Fails Host.classMember rest) :
    TakesAgain Host.classMember (Member.toksAll ms ++ rest) (List.Forall₂ IsMember ms) rest := by
  induction ms with
  | nil => exact (TakesAgain.done hend).mono fun ps hps => hps ▸ .nil
  | cons m ms ih =>
    have hmore := ih fun m hm => h m (List.mem_cons_of_mem _ hm)
    have hfirst := h m List.mem_cons_self (Member.toksAll ms ++ rest)
    have hall := (TakesAgain.step hfirst hmore).mono (Q := List.Forall₂ IsMember (m :: ms)) (by
      rintro _ ⟨_, ps, rfl, ⟨p, rfl, hp⟩, hps⟩
      exact .cons hp hps)
    rw [Member.toksAll_cons, List.append_assoc]
    exact hall

/-- The members of a class stand behind the pairs of its head. -/
theorem membersOf_append {rs : List Rule} {ps qs : List Pair} (h : Only rs ps)
    (hmethod : .methodMember ∉ rs) (hfield : .fieldMember ∉ rs) :
    membersOf (ps ++ qs) = membersOf qs := by
  induction ps with
  | nil => rfl
  | cons p ps ih =>
    have hmem := h p List.mem_cons_self
    have hmore := ih fun q hq => h q (List.mem_cons_of_mem _ hq)
    obtain ⟨r, i, j, source, inner⟩ := p
    rw [List.cons_append, membersOf.eq_4]
    · exact hmore
    · rintro _ _ _ _ heq
      injection heq with hr
      exact hmethod (hr ▸ hmem)
    · rintro _ _ _ _ heq
      injection heq with hr
      exact hfield (hr ▸ hmem)

theorem readsStatement_class (stamp : Stamp) {head : ClassHead} (hname : Whole .identifier head.name)
    (hderives : ∀ name ∈ head.derives, Whole .identifier name) (h : ∀ m ∈ ms, ReadsMember m) :
    ReadsStatement (classToks head ++ .sym '\x7b' :: (Member.toksAll ms ++ [.sym '\x7d']))
      ((Stmt.classDecl stamp head ms).recast .explicit) := by
  have hlooks : ∀ v ∈ [Visibility.internal, .named, .default],
      ∀ y ∈ .word "else" :: statementRules.takeWhile (· ≠ .classDecl),
      look 60 (.rule y) (visibilityLook v ++ [.word "class"]) = .fails := by decide
  have hclose : look 60 Host.classMember [.sym '\x7d'] = .fails := by decide
  refine ReadsStmt.statement (visibilityLook head.visibility ++ [.word "class"])
    (readsStmt_rule (r := .classDecl) (by simp) rfl
      (P := Cat (IsClassHead head) (List.Forall₂ IsMember ms)) ?_ ?_)
    (by decide) ?_ (hlooks _ (by cases head.visibility <;> simp))
  · intro rest _
    have hend : Fails Host.classMember (.sym '\x7d' :: rest) := fails_of_look hclose ⟨rfl, trivial⟩
    have hmembers := takes_members h hend
    have hall := (((takes_classHead hname hderives).seq
      (takes_sign (w := "\x7b") (t := .sym '\x7b') rfl _)).seq hmembers.star).seq
      (takes_sign (w := "\x7d") (t := .sym '\x7d') rfl rest)
    rw [cat_nil, cat_nil] at hall
    simp only [List.append_assoc, List.cons_append]
    exact hall
  · rintro i j source _ ⟨hs, ps, rfl, hhead, hps⟩
    have honly := only_members hps
    have hclass : classHeadOf (hs ++ ps) = head := by
      rw [← hhead.2]
      unfold classHeadOf
      congr 1
      · simp only [textOf, textsOf_append]
        rw [honly.textsOf (by simp), List.append_nil]
      · rw [identifiersIn_append, honly.identifiersIn (by simp), List.append_nil]
      · exact visibilityOf_append honly (by simp) (by simp)
    simp only [stmtOf, membersOf_append hhead.1 (by simp) (by simp), hclass]
    refine (gives_membersOf hps).bind fun members hmembers => gives_stamped fun _ => ?_
    simp [Stmt.recast, hmembers]
  · intro rest
    have hclass : Sees [.word "class"] (.word "class" :: .word head.name ::
        (deriveToks head.derives ++ .sym '\x7b' :: (Member.toksAll ms ++ .sym '\x7d' :: rest))) :=
      ⟨rfl, trivial⟩
    simpa [classToks] using sees_visibility head.visibility hclass

end Lists

end MacroEngine.Grammar
