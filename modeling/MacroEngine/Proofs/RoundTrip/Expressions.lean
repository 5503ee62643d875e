import MacroEngine.Proofs.RoundTrip.Infix
import MacroEngine.Proofs.RoundTrip.TreeTokens

/-!
# Reading expressions back

For each level of the grammar of expressions, a statement that some tokens are read to some tree
there: as an operand with its suffixes, with the operators in front of it, in a chain of infix
operators, as a whole expression. Each form of expression has one lemma, which follows the rule of
the grammar that reads it. What comes after the tokens matters only by its first token.
-/

namespace MacroEngine.Grammar

/-- What comes after an expression. -/
def endLooks : List Look := [.sym ')', .sym ']', .sym '\x7d', .sym ',', .sym ';']

def stopLooks : List Look := endLooks ++ .eq :: BinaryOp.all.map .op

def followLooks : List Look := stopLooks ++ [.sym '.', .sym '(']

def Ends (rest : List Tok) : Prop := ∃ h ∈ endLooks, Sees [h] rest

def Stops (rest : List Tok) : Prop := ∃ h ∈ stopLooks, Sees [h] rest

def Follows (rest : List Tok) : Prop := ∃ h ∈ followLooks, Sees [h] rest

theorem Ends.stops {rest : List Tok} (h : Ends rest) : Stops rest := by
  obtain ⟨l, hl, hsees⟩ := h
  exact ⟨l, List.mem_append_left _ hl, hsees⟩

theorem Stops.follows {rest : List Tok} (h : Stops rest) : Follows rest := by
  obtain ⟨l, hl, hsees⟩ := h
  exact ⟨l, List.mem_append_left _ hl, hsees⟩

def suffix : Peg := .alt (.rule .callArgs) (.rule .memberAccess)

def infixStep : Peg := Host.infixOp ++ Peg.rule .prefixed

def IsExpr (x : Expr) (p : Pair) : Prop :=
  p.rule = .expression ∧ Gives (exprOf p) (·.recast .bare = x)

/-- In front of anything that ends it, an expression of these tokens is read to `x`. -/
def ReadsExpr (ts : List Tok) (x : Expr) : Prop :=
  ∀ rest, Ends rest → Takes (.rule .expression) (ts ++ rest) (One (IsExpr x)) rest

def ReadsPrimary (F : List Tok → Prop) (ts : List Tok) (x : Expr) : Prop :=
  ∀ rest, F rest → Takes Host.primary (ts ++ rest)
    (One fun p => Gives (primaryOf p) (·.recast .bare = x)) rest

/-- An operand and its suffixes are read to `x`, whatever suffixes come after them. -/
def SuffixedTo (p : Pair) (ss : List Pair) (x : Expr) : Prop :=
  ∀ more n, ∃ e n', e.recast .bare = x ∧
    (primaryOf p >>= fun e => suffixedOf e (ss ++ more)).run n = (suffixedOf e more).run n'

def ReadsPostfixed (F : List Tok → Prop) (ts : List Tok) (x : Expr) : Prop :=
  ∀ rest Q rest', F rest → TakesAgain suffix rest Q rest' → ∃ mid P₁ P₂,
    Takes Host.primary (ts ++ rest) (One P₁) mid ∧ TakesAgain suffix mid (Cat P₂ Q) rest' ∧
      ∀ p ss, P₁ p → P₂ ss → SuffixedTo p ss x

def ReadsPrefixed (F : List Tok → Prop) (ts : List Tok) (x : Expr) : Prop :=
  ∀ rest, F rest → ∃ mid P₁ P₂, TakesAgain (.rule .prefixOp) (ts ++ rest) P₁ mid ∧
    Takes (.rule .postfixed) mid (One P₂) rest ∧
      ∀ ops p, P₁ ops → P₂ p → Gives (operandOf (ops ++ [p])) (·.recast .bare = x)

/-- A chain of these tokens is grouped to `x`, whatever chain comes after it. -/
def ReadsChain (F : List Tok → Prop) (ts : List Tok) (x : Expr) (k : Nat) : Prop :=
  ∀ rest Q rest', F rest → TakesAgain infixStep rest Q rest' → ∃ mid P₁ P₂,
    Takes (.rule .prefixed) (ts ++ rest) (One P₁) mid ∧ TakesAgain infixStep mid (Cat P₂ Q) rest' ∧
      ∀ p ms, P₁ p → P₂ ms → Regroups p ms x k

theorem cat_assoc (P Q R : List Pair → Prop) : Cat (Cat P Q) R = Cat P (Cat Q R) := by
  funext ps
  apply propext
  constructor
  · rintro ⟨_, r, rfl, ⟨p, q, rfl, hp, hq⟩, hr⟩
    exact ⟨p, q ++ r, by simp, hp, q, r, rfl, hq, hr⟩
  · rintro ⟨p, _, rfl, hp, q, r, rfl, hq, hr⟩
    exact ⟨p ++ q, r, by simp, ⟨p, q, rfl, hp, hq⟩, hr⟩

section Levels

variable {F G : List Tok → Prop} {ts ts' : List Tok} {x y : Expr} {k l : Nat}

theorem Stops.suffix {rest : List Tok} (h : Stops rest) : Fails suffix rest := by
  have hlooks : ∀ l ∈ stopLooks, look 60 Grammar.suffix [l] = .fails := by decide
  obtain ⟨l, hl, hsees⟩ := h
  exact fails_of_look (hlooks l hl) hsees

theorem Ends.infixStep {rest : List Tok} (h : Ends rest) : Fails infixStep rest := by
  have hlooks : ∀ l ∈ endLooks, look 60 Grammar.infixStep [l] = .fails := by decide
  obtain ⟨l, hl, hsees⟩ := h
  exact fails_of_look (hlooks l hl) hsees

theorem Ends.assignment {rest : List Tok} (h : Ends rest) : Fails (text "=") rest := by
  have hlooks : ∀ l ∈ endLooks, look 60 (text "=") [l] = .fails := by decide
  obtain ⟨l, hl, hsees⟩ := h
  exact fails_of_look (hlooks l hl) hsees

theorem ReadsPrimary.postfixed (h : ReadsPrimary F ts x) : ReadsPostfixed F ts x := by
  intro rest Q rest' hF hmore
  refine ⟨rest, _, Nil, h rest hF, by simpa using hmore, ?_⟩
  rintro p ss hp rfl more n
  obtain ⟨e, n', hrun, he⟩ := hp n
  refine ⟨e, n', he, ?_⟩
  rw [StateT.run_bind, hrun]
  rfl

theorem ReadsPostfixed.prefixed (h : ReadsPostfixed F ts x) (hF : ∀ rest, G rest → F rest)
    (hstop : ∀ rest, G rest → Stops rest)
    (hop : ∀ rest, G rest → Fails (.rule .prefixOp) (ts ++ rest)) : ReadsPrefixed G ts x := by
  intro rest hG
  obtain ⟨mid, P₁, P₂, hprimary, hsuffixes, hreads⟩ := h rest Nil rest (hF rest hG)
    (.done (hstop rest hG).suffix)
  rw [cat_nil] at hsuffixes
  refine ⟨ts ++ rest, Nil, _, .done (hop rest hG), Takes.rule rfl (hprimary.seq hsuffixes.star), ?_⟩
  rintro ops p rfl ⟨hrule, _, ss, hinner, ⟨q, rfl, hq⟩, hss⟩
  obtain ⟨r, i, j, s, ps⟩ := p
  obtain rfl : r = .postfixed := hrule
  obtain rfl : ps = [q] ++ ss := hinner
  intro n
  obtain ⟨e, n', he, hrun⟩ := hreads q ss hq hss [] n
  refine ⟨e, n', ?_, he⟩
  rw [List.append_nil] at hrun
  simp only [List.nil_append, List.cons_append, operandOf]
  rw [hrun]
  simp [suffixedOf]

theorem ReadsPrefixed.chain (h : ReadsPrefixed F ts x) (k : Nat) : ReadsChain F ts x k := by
  intro rest Q rest' hF hmore
  obtain ⟨mid, P₁, P₂, hops, hpostfixed, hreads⟩ := h rest hF
  refine ⟨rest, _, Nil, Takes.rule rfl (hops.star.seq hpostfixed), by simpa using hmore, ?_⟩
  rintro p ms ⟨hrule, ops, _, hinner, hops, q, rfl, hq⟩ rfl
  obtain ⟨r, i, j, s, ps⟩ := p
  obtain rfl : r = .prefixed := hrule
  obtain rfl : ps = ops ++ [q] := hinner
  refine regroups_operand ?_ k
  simpa only [prefixedOf] using hreads ops q hops hq

theorem gives_binary {p : Pair} {ms : List Pair} (h : Regroups p ms x k) (i j : Nat)
    (s : List Char) : Gives (exprOf (.mk .binary i j s (p :: ms))) (·.recast .bare = x) := by
  intro n
  obtain ⟨e, n', hx, hrun⟩ := h [] [] n (by simp [Under]) trivial
  refine ⟨e, n', ?_, hx⟩
  rw [List.append_nil] at hrun
  simp only [exprOf]
  rw [hrun]
  rfl

theorem ReadsChain.binary (h : ReadsChain F ts x k) {rest : List Tok} (hF : F rest)
    (hstop : Fails Grammar.infixStep rest) :
    Takes (.rule .binary) (ts ++ rest)
      (One fun p => p.rule = .binary ∧ Gives (exprOf p) (·.recast .bare = x)) rest := by
  obtain ⟨mid, P₁, P₂, hfirst, hmore, hreads⟩ := h rest Nil rest hF (.done hstop)
  rw [cat_nil] at hmore
  refine (Takes.rule (r := .binary) rfl (hfirst.seq hmore.star)).mono ?_
  rintro _ ⟨p, rfl, hrule, _, ms, hinner, ⟨q, rfl, hq⟩, hms⟩
  obtain ⟨r, i, j, s, ps⟩ := p
  obtain rfl : r = .binary := hrule
  obtain rfl : ps = [q] ++ ms := hinner
  exact ⟨_, rfl, rfl, gives_binary (hreads q ms hq hms) i j s⟩

theorem ReadsChain.expression (h : ReadsChain F ts x k) (hF : ∀ rest, Ends rest → F rest) :
    ReadsExpr ts x := by
  intro rest hends
  have hbinary := h.binary (hF rest hends) hends.infixStep
  have hnone := Takes.opt_none (Fails.seq_left (b := Peg.rule .expression)
    (Fails.seq_left (b := Peg.not (.alt (text "=") (text ">"))) hends.assignment))
  refine (Takes.rule (r := .expression) rfl (hbinary.seq hnone)).mono ?_
  rintro _ ⟨p, rfl, hrule, hinner⟩
  rw [cat_nil] at hinner
  obtain ⟨b, hb, hbrule, hreads⟩ := hinner
  obtain ⟨r, i, j, s, ps⟩ := p
  obtain rfl : r = .expression := hrule
  obtain rfl : ps = [b] := hb
  refine ⟨_, rfl, rfl, ?_⟩
  simpa only [exprOf] using hreads

/-- A sign of an assignment is no operator. -/
theorem infixStep_eq (rest : List Tok) : Fails Grammar.infixStep (.eq :: rest) := by
  have hlook : look 60 Grammar.infixStep [.eq] = .fails := by decide
  exact fails_of_look hlook ⟨trivial, trivial⟩

theorem ReadsChain.assign (h : ReadsChain Stops ts x k) (hvalue : ReadsExpr ts' y)
    (hsign : ∀ rest, Fails (.alt (text "=") (text ">")) (ts' ++ rest)) :
    ReadsExpr (ts ++ .eq :: ts') (.assign default x y) := by
  intro rest hends
  have hstops : Stops (.eq :: (ts' ++ rest)) :=
    ⟨.eq, by simp [stopLooks, endLooks], trivial, trivial⟩
  have hbinary := h.binary hstops (infixStep_eq _)
  have hassign := ((takes_sign (w := "=") (t := .eq) rfl (ts' ++ rest)).seq
    (.not (hsign rest))).seq (hvalue rest hends)
  rw [List.append_assoc, List.cons_append]
  refine (Takes.rule (r := .expression) rfl (hbinary.seq hassign.opt)).mono ?_
  rintro _ ⟨p, rfl, hrule, hinner⟩
  simp only [nil_cat] at hinner
  obtain ⟨_, _, hinner, ⟨b, rfl, hb, hleft⟩, ⟨v, rfl, hv, hright⟩⟩ := hinner
  obtain ⟨r, i, j, s, ps⟩ := p
  obtain rfl : r = .expression := hrule
  obtain rfl : ps = [b] ++ [v] := hinner
  refine ⟨_, rfl, rfl, ?_⟩
  simp only [List.cons_append, List.nil_append, exprOf]
  refine hleft.bind fun target htarget => hright.bind fun value hvalue => gives_stamped fun stamp => ?_
  simp [Expr.recast, htarget, hvalue]

theorem host_op (op : BinaryOp) : (host (.op op)).2 = .lit (Tok.op op).spell :=
  congrArg text (spelling_eq_token op)

theorem takes_infixOp (op : BinaryOp) (rest : List Tok) :
    Takes Host.infixOp (.op op :: rest) (One fun p => p.rule = .op op) rest := by
  have hlooks : ∀ op ∈ BinaryOp.all, ∀ o ∈ [BinaryOp.or, .and, .strictEq, .strictNe, .eq, .ne, .le,
      .ge, .lt, .gt, .add, .sub, .pow, .mul, .div, .mod].takeWhile (· ≠ op),
      look 60 (.rule (.op o)) [.op op] = .fails := by decide
  refine Takes.first (x := op) (by cases op <;> decide) ?_ ?_
  · intro o ho
    exact fails_of_look (hlooks op (by cases op <;> decide) o ho) ⟨rfl, trivial⟩
  · have hspots : Spots (host (.op op)).2 (.op op) Nil := by
      rw [host_op]
      exact spots_lit (.op op)
    exact (Takes.rule (r := .op op) rfl (hspots.takes rest)).mono fun ps ⟨p, hp, hr⟩ =>
      ⟨p, hp, hr.1⟩

/-- Two chains with an operator between them are one chain. -/
theorem ReadsChain.join {op : BinaryOp} (h : ReadsChain Stops ts x k)
    (h' : ReadsChain Stops ts' y l) (hk : (Printer.operandLevels op).1 ≤ k)
    (hl : (Printer.operandLevels op).2 ≤ l) :
    ReadsChain Stops (ts ++ .op op :: ts') (.binary default op x y) op.precedence := by
  intro rest Q rest' hstops hmore
  obtain ⟨mid', P₁', P₂', hfirst', hmore', hreads'⟩ := h' rest Q rest' hstops hmore
  have hop : Stops (.op op :: (ts' ++ rest)) :=
    ⟨.op op, by cases op <;> simp [stopLooks, BinaryOp.all], rfl, trivial⟩
  have hstep := TakesAgain.step ((takes_infixOp op (ts' ++ rest)).seq hfirst') hmore'
  obtain ⟨mid, P₁, P₂, hfirst, hmore, hreads⟩ := h _ _ rest' hop hstep
  rw [← cat_assoc, ← cat_assoc] at hmore
  rw [List.append_assoc, List.cons_append]
  refine ⟨mid, P₁, _, hfirst, hmore, ?_⟩
  rintro p _ hp ⟨_, ms', rfl, ⟨ms, _, rfl, hms, _, _, rfl, ⟨o, rfl, ho⟩, ⟨q, rfl, hq⟩⟩, hms'⟩
  obtain ⟨r, i, j, s, ps⟩ := o
  obtain rfl : r = .op op := ho
  have hboth := (hreads p ms hp hms).binary (hreads' q ms' hq hms') hk hl i j s ps
  simpa using hboth

theorem operandOf_cons (p : Pair) {ps : List Pair} (h : ps ≠ []) :
    operandOf (p :: ps) = operandOf ps >>= applyPrefix p := by
  obtain ⟨q, ps, rfl⟩ := List.exists_cons_of_ne_nil h
  rw [operandOf]
  simp

theorem ReadsPrefixed.after {t : Tok} {w : String} (h : ReadsPrefixed F ts x)
    (hop : ∀ rest, Takes (.rule .prefixOp) (t :: rest) (One (IsToken .prefixOp w)) rest)
    (happly : ∀ p e, p.text = w → e.recast .bare = x →
      Gives (applyPrefix p e) (·.recast .bare = y)) :
    ReadsPrefixed F (t :: ts) y := by
  intro rest hF
  obtain ⟨mid, P₁, P₂, hops, hpostfixed, hreads⟩ := h rest hF
  refine ⟨mid, _, P₂, .step (hop (ts ++ rest)) hops, hpostfixed, ?_⟩
  rintro _ p ⟨_, ops, rfl, ⟨q, rfl, hq⟩, hops⟩ hp
  rw [List.append_assoc, List.singleton_append, operandOf_cons q (by simp)]
  exact (hreads ops p hops hp).bind fun e he => happly q e hq.2 he

theorem takes_unary (op : UnaryOp) (rest : List Tok) :
    Takes (.rule .prefixOp) (unaryTok op :: rest) (One (IsToken .prefixOp op.token)) rest := by
  have hlooks : ∀ op ∈ [UnaryOp.not, .neg, .void, .typeOf],
      (op ≠ .not → look 60 (text "!") [unaryLook op] = .fails) ∧
      (op ∉ [.not, .neg] → look 60 (text "-") [unaryLook op] = .fails ∧
        look 60 (.rule .awaitWord) [unaryLook op] = .fails) ∧
      (op = .typeOf → look 60 (.rule .voidWord) [unaryLook op] = .fails) := by decide
  have hfails : ∀ e, look 60 e [unaryLook op] = .fails → Fails e (unaryTok op :: rest) := by
    intro e he
    exact fails_of_look he (by cases op <;> exact ⟨rfl, trivial⟩)
  obtain ⟨hbang, hminus, hvoid⟩ := hlooks op (by cases op <;> decide)
  cases op with
  | not => exact SpotsFirst.rule rfl (.alt_left ((spots_lit (.sym '!')).first rest))
  | neg =>
    exact SpotsFirst.rule rfl (.alt_right (hfails _ (hbang (by decide)))
      (.alt_left ((spots_lit (.sym '-')).first rest)))
  | void =>
    exact SpotsFirst.rule rfl (.alt_right (hfails _ (hbang (by decide)))
      (.alt_right (hfails _ (hminus (by decide)).1) (.alt_right (hfails _ (hminus (by decide)).2)
        (.alt_left ((spots_word (r := .voidWord) rfl).first rest)))))
  | typeOf =>
    exact SpotsFirst.rule rfl (.alt_right (hfails _ (hbang (by decide)))
      (.alt_right (hfails _ (hminus (by decide)).1) (.alt_right (hfails _ (hminus (by decide)).2)
        (.alt_right (hfails _ (hvoid rfl)) ((spots_word (r := .typeofWord) rfl).first rest)))))

theorem takes_await (rest : List Tok) :
    Takes (.rule .prefixOp) (.word "await" :: rest) (One (IsToken .prefixOp "await")) rest := by
  have hlooks : look 60 (text "!") [.word "await"] = .fails ∧
      look 60 (text "-") [.word "await"] = .fails := by decide
  exact SpotsFirst.rule rfl (.alt_right (fails_of_look hlooks.1 ⟨rfl, trivial⟩)
    (.alt_right (fails_of_look hlooks.2 ⟨rfl, trivial⟩)
      (.alt_left ((spots_word (r := .awaitWord) rfl).first rest))))

theorem ReadsPrefixed.unary (op : UnaryOp) (h : ReadsPrefixed F ts x) :
    ReadsPrefixed F (unaryTok op :: ts) (.unary default op x) := by
  refine h.after (takes_unary op) fun p e hp he => gives_stamped fun s => ?_
  rw [hp]
  cases op <;> simp [Expr.recast, he, UnaryOp.token]

theorem ReadsPrefixed.await (h : ReadsPrefixed F ts x) :
    ReadsPrefixed F (.word "await" :: ts) (.await default x) := by
  refine h.after takes_await fun p e hp he => gives_stamped fun s => ?_
  rw [hp]
  simp [Expr.recast, he]

theorem SuffixedTo.step {p m : Pair} {ss : List Pair} (h : SuffixedTo p ss x)
    (hm : ∀ e, e.recast .bare = x → ∀ more n, ∃ e' n', e'.recast .bare = y ∧
      (suffixedOf e (m :: more)).run n = (suffixedOf e' more).run n') :
    SuffixedTo p (ss ++ [m]) y := by
  intro more n
  obtain ⟨e, n', he, hrun⟩ := h (m :: more) n
  obtain ⟨e', n'', he', hrun'⟩ := hm e he more n'
  refine ⟨e', n'', he', ?_⟩
  rw [List.append_assoc, List.singleton_append, hrun, hrun']

theorem ReadsPostfixed.after {M : Pair → Prop} (h : ReadsPostfixed Follows ts x)
    (htakes : ∀ rest, Follows (ts' ++ rest) ∧ Takes suffix (ts' ++ rest) (One M) rest)
    (hm : ∀ m, M m → ∀ e, e.recast .bare = x → ∀ more n, ∃ e' n', e'.recast .bare = y ∧
      (suffixedOf e (m :: more)).run n = (suffixedOf e' more).run n') :
    ReadsPostfixed Follows (ts ++ ts') y := by
  intro rest Q rest' _ hmore
  obtain ⟨hfollows, hsuffix⟩ := htakes rest
  obtain ⟨mid, P₁, P₂, hprimary, hsuffixes, hreads⟩ :=
    h (ts' ++ rest) _ rest' hfollows (.step hsuffix hmore)
  rw [← cat_assoc] at hsuffixes
  rw [List.append_assoc]
  refine ⟨mid, P₁, _, hprimary, hsuffixes, ?_⟩
  rintro p _ hp ⟨ss, _, rfl, hss, m, rfl, hm'⟩
  exact (hreads p ss hp hss).step (hm m hm')

theorem ReadsPostfixed.member (h : ReadsPostfixed Follows ts x) (property : String) :
    ReadsPostfixed Follows (ts ++ [.sym '.', .word property]) (.member default x property) := by
  have hcall : look 60 (.rule .callArgs) [.sym '.'] = .fails := by decide
  refine h.after (M := fun m => m.rule = .memberAccess ∧ One (IsToken .propertyName property) m.inner)
    (fun rest => ⟨⟨.sym '.', by simp [followLooks], rfl, trivial⟩, ?_⟩) ?_
  · have hbody := (takes_sign (w := ".") (t := .sym '.') rfl (.word property :: rest)).seq
      ((spots_propertyName property).takes rest)
    rw [nil_cat] at hbody
    exact .alt_right (fails_of_look hcall ⟨rfl, trivial⟩) (.rule rfl hbody)
  · rintro ⟨r, i, j, s, ps⟩ ⟨hr, q, hps, hq⟩ e he more n
    obtain rfl : r = .memberAccess := hr
    obtain rfl : ps = [q] := hps
    have htext : textOf .propertyName [q] = property := by simp [textOf, textsOf, hq.1, hq.2]
    refine ⟨.member ⟨n, ⟨e.span.start, j⟩⟩ e property, n + 1, by simp [Expr.recast, he], ?_⟩
    rw [suffixedOf, htext]
    rfl

end Levels

end MacroEngine.Grammar
