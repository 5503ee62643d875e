import MacroEngine.Proofs.RoundTrip.Statements

/-!
# Reading trees back

Every well-formed expression is read back at each level of the grammar that takes its level, with
parentheses where printing puts them, and every well-formed statement is read back as a statement.
The proof is by recursion on the tree, one case per form.
-/

namespace MacroEngine

open Grammar

/-- The tokens of an expression are read back at every level that takes its own. -/
structure Expr.Reads (e : Expr) : Prop where
  expression : ReadsExpr e.toks (e.recast .explicit)
  chain : 1 ≤ e.level → ReadsChain Stops e.toks (e.recast .explicit) e.level
  prefixed : Level.unary ≤ e.level → ReadsPrefixed Stops e.toks (e.recast .explicit)
  postfixed : Level.postfixed ≤ e.level → ReadsPostfixed Follows e.toks (e.recast .explicit)

section Places

variable {e : Expr}

theorem Expr.fails_prefixOp (h : ∀ i ∈ e.items true, i.Regular) (hlevel : Level.postfixed ≤ e.level)
    (rest : List Tok) : Fails (.rule .prefixOp) (e.toks ++ rest) :=
  fails_of_look (e.look_prefixOp hlevel) (e.sees_lookahead rest h)

theorem Expr.reads_of_postfixed (h : ReadsPostfixed Follows e.toks (e.recast .explicit))
    (hregular : ∀ i ∈ e.items true, i.Regular) (hlevel : Level.postfixed ≤ e.level) : e.Reads := by
  have hprefixed : ReadsPrefixed Stops e.toks (e.recast .explicit) :=
    h.prefixed (fun _ => Stops.follows) (fun _ hstops => hstops)
      fun rest _ => e.fails_prefixOp hregular hlevel rest
  have hchain := hprefixed.chain e.level
  exact ⟨hchain.expression fun _ => Ends.stops, fun _ => hchain, fun _ => hprefixed, fun _ => h⟩

theorem Expr.reads_of_primary (h : ReadsPrimary Follows e.toks (e.recast .explicit))
    (hregular : ∀ i ∈ e.items true, i.Regular) (hlevel : Level.postfixed ≤ e.level) : e.Reads :=
  Expr.reads_of_postfixed h.postfixed hregular hlevel

theorem Expr.reads_of_prefixed (h : ReadsPrefixed Stops e.toks (e.recast .explicit))
    (hlevel : e.level = Level.unary) : e.Reads := by
  have hchain := h.chain e.level
  refine ⟨hchain.expression fun _ => Ends.stops, fun _ => hchain, fun _ => h, fun hle => ?_⟩
  rw [hlevel] at hle
  exact absurd hle (by decide)

theorem Expr.reads_of_chain (h : ReadsChain Stops e.toks (e.recast .explicit) e.level)
    (hlevel : e.level < Level.unary) : e.Reads := by
  have hnext : Level.unary < Level.postfixed := by decide
  exact ⟨h.expression fun _ => Ends.stops, fun _ => h, fun hle => absurd hle (by omega),
    fun hle => absurd hle (by omega)⟩

theorem Expr.reads_of_expression (h : ReadsExpr e.toks (e.recast .explicit))
    (hlevel : e.level = Level.assign) : e.Reads := by
  refine ⟨h, fun hle => ?_, fun hle => ?_, fun hle => ?_⟩
  all_goals rw [hlevel] at hle; exact absurd hle (by decide)

/-- No list of parameters is read where an expression stands in parentheses. -/
theorem Expr.fails_arrowFn (h : ∀ i ∈ e.items true, i.Regular) {rest : List Tok}
    (hrest : Follows rest) : Fails (.rule .arrowFn) (.sym '(' :: (e.toks ++ .sym ')' :: rest)) := by
  by_cases hident : ∃ s name, e = .ident s name
  · have hlooks : ∀ l ∈ followLooks,
        look 60 (.rule .arrowFn) [.sym '(', .name, .sym ')', l] = .fails := by decide
    obtain ⟨s, name, rfl⟩ := hident
    obtain ⟨l, hl, hsees⟩ := hrest
    have hname : Whole .identifier name := h _ List.mem_cons_self
    exact fails_of_look (hlooks l hl) ⟨rfl, (whole_identifier_iff.mp hname).2, rfl, hsees⟩
  · have hnot : ∀ s name, e ≠ .ident s name := fun s name heq => hident ⟨s, name, heq⟩
    exact fails_of_look (e.look_arrowFn hnot) ⟨rfl, e.sees_lookahead _ h⟩

theorem Expr.Reads.paren (h : e.Reads) (hregular : ∀ i ∈ e.items true, i.Regular) :
    ReadsPrimary Follows (.sym '(' :: (e.toks ++ [.sym ')'])) (.paren default (e.recast .explicit)) :=
  readsPrimary_paren h.expression fun _ hrest => e.fails_arrowFn hregular hrest

theorem Expr.Reads.paren_prefixed (h : e.Reads) (hregular : ∀ i ∈ e.items true, i.Regular) :
    ReadsPrefixed Stops (.sym '(' :: (e.toks ++ [.sym ')']))
      (.paren default (e.recast .explicit)) := by
  have hlook : look 60 (.rule .prefixOp) [.sym '('] = .fails := by decide
  exact (h.paren hregular).postfixed.prefixed (fun _ => Stops.follows) (fun _ hstops => hstops)
    fun rest _ => fails_of_look hlook ⟨rfl, trivial⟩

theorem Expr.Reads.paren_expression (h : e.Reads) (hregular : ∀ i ∈ e.items true, i.Regular) :
    ReadsExpr (.sym '(' :: (e.toks ++ [.sym ')'])) (.paren default (e.recast .explicit)) :=
  ((h.paren_prefixed hregular).chain 0).expression fun _ => Ends.stops

/-- An operand of an infix operator, in its place. -/
theorem Expr.Reads.place_chain (h : e.Reads) (hregular : ∀ i ∈ e.items true, i.Regular) {least : Nat}
    (hleast : 1 ≤ least) : ∃ k, least ≤ k ∧ ReadsChain Stops (Place.toks (.level least) e e.toks)
      (Parens.explicit.put (.level least) e (e.recast .explicit)) k := by
  unfold Place.toks Parens.put
  cases hwraps : (Place.level least).wraps e with
  | true => exact ⟨least, Nat.le_refl _, (h.paren_prefixed hregular).chain least⟩
  | false =>
    have hle : least ≤ e.level := by simpa [Place.wraps] using hwraps
    exact ⟨e.level, hle, by simpa using h.chain (Nat.le_trans hleast hle)⟩

theorem Expr.Reads.place_prefixed (h : e.Reads) (hregular : ∀ i ∈ e.items true, i.Regular) :
    ReadsPrefixed Stops (Place.toks (.level Level.unary) e e.toks)
      (Parens.explicit.put (.level Level.unary) e (e.recast .explicit)) := by
  unfold Place.toks Parens.put
  cases hwraps : (Place.level Level.unary).wraps e with
  | true => exact h.paren_prefixed hregular
  | false =>
    have hle : Level.unary ≤ e.level := by simpa [Place.wraps] using hwraps
    simpa using h.prefixed hle

theorem Expr.Reads.place_postfixed (h : e.Reads) (hregular : ∀ i ∈ e.items true, i.Regular) :
    ReadsPostfixed Follows (Place.toks (.level Level.postfixed) e e.toks)
      (Parens.explicit.put (.level Level.postfixed) e (e.recast .explicit)) := by
  unfold Place.toks Parens.put
  cases hwraps : (Place.level Level.postfixed).wraps e with
  | true => exact (h.paren hregular).postfixed
  | false =>
    have hle : Level.postfixed ≤ e.level := by simpa [Place.wraps] using hwraps
    simpa using h.postfixed hle

/-- An arrow function, which nothing but the end of an expression may follow. -/
theorem Expr.reads_of_arrow {isAsync : Bool} {names : List String} {ts : List Tok} (htoks : e.toks =
      asyncToks isAsync ++ (paramToks names ++ .arrow :: ts))
    (h : ReadsPrimary Ends e.toks (e.recast .explicit)) (hlevel : e.level = Level.assign) :
    e.Reads := by
  have hlooks : ∀ isAsync : Bool,
      look 60 (.rule .prefixOp) (asyncLook isAsync ++ [.sym '(']) = .fails := by decide
  have hop : ∀ rest, Fails (.rule .prefixOp) (e.toks ++ rest) := by
    intro rest
    have hparen : Sees [.sym '('] (paramToks names ++ .arrow :: (ts ++ rest)) := ⟨rfl, trivial⟩
    have hsees := sees_async isAsync hparen
    rw [htoks]
    exact fails_of_look (hlooks isAsync) (by simpa using hsees)
  have hprefixed : ReadsPrefixed Ends e.toks (e.recast .explicit) :=
    h.postfixed.prefixed (fun _ hends => hends) (fun _ => Ends.stops) fun rest _ => hop rest
  exact Expr.reads_of_expression ((hprefixed.chain 0).expression fun _ hends => hends) hlevel

end Places

/-- The tokens of a statement are read back as a statement, and behind `else` if they may stand
there. -/
structure Stmt.Reads (s : Stmt) : Prop where
  statement : ReadsStatement s.toks (s.recast .explicit)
  alternative : s.isAlternative = true →
    ReadsStmt (.alt (.rule .ifStmt) (.rule .block)) s.toks (s.recast .explicit)

theorem regular_of_wellFormed {items : List Item} (h : ∀ i ∈ items, i.WellFormed) :
    ∀ i ∈ items, i.Regular := fun i hi => (h i hi).1

section Statements

variable {e : Expr}

theorem Expr.Reads.statement (h : e.Reads) (hregular : ∀ i ∈ e.items true, i.Regular)
    (hobject : Printer.needsParens e = true ∨ ¬ e.opensWithEmptyObject)
    (hfunction : Printer.needsParens e = true ∨ ¬ e.opensWithNamedFunction) :
    ReadsStatement (Place.toks .statement e e.toks ++ [.sym ';'])
      (.expr default (Parens.explicit.put .statement e (e.recast .explicit))) := by
  have hparen : ∀ y ∈ .word "else" :: declarationRules, look 60 (.rule y) [.sym '('] = .fails := by
    decide
  unfold Place.toks Parens.put
  cases hwraps : Place.statement.wraps e with
  | true =>
    exact readsStatement_expr [.sym '('] (h.paren_expression hregular)
      (fun _ => ⟨rfl, trivial⟩) hparen
  | false =>
    have hneeds : ¬ Printer.needsParens e = true := by simpa [Place.wraps] using hwraps
    have hobject := hobject.resolve_left hneeds
    have hfunction := hfunction.resolve_left hneeds
    have helse := e.look_of_all (q := .rule (.word "else")) (by decide)
    have hstatement := readsStatement_expr e.lookahead h.expression
      (fun rest => e.sees_lookahead rest hregular) (by
        intro y hy
        rcases List.mem_cons.mp hy with rfl | hy
        · exact helse
        · exact e.look_declaration hobject hfunction y hy)
    simpa using hstatement

theorem Expr.Reads.arrowBody (h : e.Reads) (hregular : ∀ i ∈ e.items true, i.Regular)
    (hobject : Printer.isObject e = true ∨ ¬ e.opensWithEmptyObject) :
    ReadsExpr (Place.toks .arrowBody e e.toks)
        (Parens.explicit.put .arrowBody e (e.recast .explicit)) ∧
      ∀ rest, Fails (.rule .block) (Place.toks .arrowBody e e.toks ++ rest) := by
  have hparen : look 60 (.rule .block) [.sym '('] = .fails := by decide
  unfold Place.toks Parens.put
  cases hwraps : Place.arrowBody.wraps e with
  | true =>
    refine ⟨h.paren_expression hregular, fun rest => ?_⟩
    have hsees : Sees [.sym '('] (.sym '(' :: (e.toks ++ [.sym ')']) ++ rest) := ⟨rfl, trivial⟩
    exact fails_of_look hparen hsees
  | false =>
    have hnot : ¬ Printer.isObject e = true := by simpa [Place.wraps] using hwraps
    refine ⟨by simpa using h.expression, fun rest => ?_⟩
    exact fails_of_look (e.look_block (hobject.resolve_left hnot)) (e.sees_lookahead rest hregular)

end Statements

mutual

theorem Expr.reads : ∀ e : Expr, (∀ i ∈ e.items true, i.WellFormed) → e.Reads
  | .ident s name, h => by
    have hregular := regular_of_wellFormed h
    have hname : Whole .identifier name := hregular _ List.mem_cons_self
    exact Expr.reads_of_primary (readsPrimary_ident hname) hregular (by simp [Expr.level]; decide)
  | .number _ digits, h =>
    Expr.reads_of_primary (readsPrimary_number digits) (regular_of_wellFormed h)
      (by simp [Expr.level]; decide)
  | .str _ value, h =>
    Expr.reads_of_primary (readsPrimary_str value) (regular_of_wellFormed h)
      (by simp [Expr.level]; decide)
  | .bool _ value, h =>
    Expr.reads_of_primary (readsPrimary_bool value) (regular_of_wellFormed h)
      (by simp [Expr.level]; decide)
  | .null _, h =>
    Expr.reads_of_primary readsPrimary_null (regular_of_wellFormed h)
      (by simp [Expr.level]; decide)
  | .this _, h =>
    Expr.reads_of_primary readsPrimary_this (regular_of_wellFormed h)
      (by simp [Expr.level]; decide)
  | .template _ raw, h =>
    Expr.reads_of_primary (readsPrimary_template raw) (regular_of_wellFormed h)
      (by simp [Expr.level]; decide)
  | .tagged _ tag raw, h => by
    have hregular := regular_of_wellFormed h
    have htag : Whole .identifier tag ∧ _ := hregular _ List.mem_cons_self
    exact Expr.reads_of_primary (readsPrimary_tagged htag.1) hregular (by simp [Expr.level])
  | .array s es, h => by
    have hregular := regular_of_wellFormed h
    simp only [Expr.items, List.forall_mem_cons] at h
    exact Expr.reads_of_primary (readsPrimary_array (Expr.readsAll es h.2)) hregular
      (by simp [Expr.level]; decide)
  | .object s ps, h => by
    have hregular := regular_of_wellFormed h
    simp only [Expr.items, List.forall_mem_cons] at h
    exact Expr.reads_of_primary (readsPrimary_object (Expr.readsProperties ps h.2)) hregular
      (by simp [Expr.level]; decide)
  | .paren s e, h => by
    have hregular := regular_of_wellFormed h
    simp only [Expr.items, List.forall_mem_cons] at h
    have hinner := (e.reads h.2).paren (regular_of_wellFormed h.2)
    exact Expr.reads_of_primary hinner hregular (by simp [Expr.level]; decide)
  | .member s owner property, h => by
    have hregular := regular_of_wellFormed h
    simp only [Expr.items, List.forall_mem_cons] at h
    have hinner := (owner.reads h.2).place_postfixed (regular_of_wellFormed h.2)
    exact Expr.reads_of_postfixed (hinner.member property) hregular (by simp [Expr.level])
  | .call s callee args, h => by
    have hregular := regular_of_wellFormed h
    simp only [Expr.items, List.forall_mem_cons, List.forall_mem_append] at h
    have hinner := (callee.reads h.2.1).place_postfixed (regular_of_wellFormed h.2.1)
    exact Expr.reads_of_postfixed (hinner.call (Expr.readsAll args h.2.2)) hregular
      (by simp [Expr.level])
  | .invoke s name args, h => by
    have hregular := regular_of_wellFormed h
    simp only [Expr.items, List.forall_mem_cons] at h
    have hname : Whole .identifier name := h.1.1
    exact Expr.reads_of_primary (readsPrimary_invoke hname (Expr.readsAll args h.2)) hregular
      (by simp [Expr.level])
  | .unary s op operand, h => by
    simp only [Expr.items, List.forall_mem_cons] at h
    have hinner := (operand.reads h.2).place_prefixed (regular_of_wellFormed h.2)
    exact Expr.reads_of_prefixed (hinner.unary op) rfl
  | .binary s op lhs rhs, h => by
    simp only [Expr.items, List.forall_mem_cons, List.forall_mem_append] at h
    have hlevels : 1 ≤ (Printer.operandLevels op).1 ∧ 1 ≤ (Printer.operandLevels op).2 ∧
        op.precedence < Level.unary := by cases op <;> decide
    obtain ⟨k, hk, hleft⟩ := (lhs.reads h.2.1).place_chain (regular_of_wellFormed h.2.1) hlevels.1
    obtain ⟨l, hl, hright⟩ :=
      (rhs.reads h.2.2).place_chain (regular_of_wellFormed h.2.2) hlevels.2.1
    exact Expr.reads_of_chain (hleft.join hright hk hl) hlevels.2.2
  | .assign s target value, h => by
    simp only [Expr.items, List.forall_mem_cons, List.forall_mem_append] at h
    have hleast : 1 ≤ Level.postfixed := by decide
    obtain ⟨k, -, htarget⟩ :=
      (target.reads h.2.1).place_chain (regular_of_wellFormed h.2.1) hleast
    have hsign := value.look_of_all (q := .alt (text "=") (text ">")) (by decide)
    exact Expr.reads_of_expression (htarget.assign (value.reads h.2.2).expression fun rest =>
      fails_of_look hsign (value.sees_lookahead rest (regular_of_wellFormed h.2.2))) rfl
  | .await s operand, h => by
    simp only [Expr.items, List.forall_mem_cons] at h
    have hinner := (operand.reads h.2).place_prefixed (regular_of_wellFormed h.2)
    exact Expr.reads_of_prefixed hinner.await rfl
  | .arrow s names isAsync body, h => by
    simp only [Expr.items, List.forall_mem_cons, bodyItems_true] at h
    have hnames : ∀ name ∈ names, Whole .identifier name := h.1.1
    exact Expr.reads_of_arrow rfl (readsPrimary_arrow isAsync hnames (body.reads h.2)) rfl
  | .arrowExpr s names isAsync body, h => by
    simp only [Expr.items, List.forall_mem_cons, if_true] at h
    have hnames : ∀ name ∈ names, Whole .identifier name := h.1.1
    have hbody := (body.reads h.2).arrowBody (regular_of_wellFormed h.2) h.1.2
    exact Expr.reads_of_arrow rfl (readsPrimary_arrowExpr isAsync hnames hbody.1 hbody.2) rfl
  | .function s head body, h => by
    have hregular := regular_of_wellFormed h
    simp only [Expr.items, List.forall_mem_cons, bodyItems_true] at h
    have hhead : head.Regular ∧ head.visibility = .internal := h.1.1
    exact Expr.reads_of_primary (readsPrimary_function hhead.1 hhead.2 (body.reads h.2)) hregular
      (by simp [Expr.level]; decide)

theorem Expr.readsAll : ∀ es : List Expr, (∀ i ∈ Expr.itemsAll true es, i.WellFormed) →
    ∀ e ∈ es, ReadsExpr e.toks (e.recast .explicit)
  | [], _ => by simp
  | e :: es, h => by
    simp only [Expr.itemsAll, List.forall_mem_append] at h
    simp only [List.forall_mem_cons]
    exact ⟨(e.reads h.1).expression, Expr.readsAll es h.2⟩

theorem Expr.readsProperties : ∀ ps : List (String × Expr),
    (∀ i ∈ Expr.itemsProperties true ps, i.WellFormed) →
    ∀ p ∈ ps, ReadsExpr p.2.toks (p.2.recast .explicit)
  | [], _ => by simp
  | (name, e) :: ps, h => by
    simp only [Expr.itemsProperties, List.forall_mem_append] at h
    simp only [List.forall_mem_cons]
    exact ⟨(e.reads h.1).expression, Expr.readsProperties ps h.2⟩

theorem Stmt.reads : ∀ s : Stmt, (∀ i ∈ s.items true, i.WellFormed) → s.Reads
  | .importNames s names specifier, h => by
    have hnames : ∀ name ∈ names, Whole .identifier name := (h _ List.mem_cons_self).1
    exact ⟨readsStatement_import hnames specifier, by simp [Stmt.isAlternative]⟩
  | .function s head body, h => by
    simp only [Stmt.items, List.forall_mem_cons, bodyItems_true] at h
    have hhead : head.Regular ∧ head.name ≠ none := h.1.1
    exact ⟨readsStatement_function hhead.1 hhead.2 (body.reads h.2), by simp [Stmt.isAlternative]⟩
  | .classDecl s head members, h => by
    simp only [Stmt.items, List.forall_mem_cons] at h
    obtain ⟨hname, hderives, hmembers⟩ : Whole .identifier head.name ∧
      (∀ name ∈ head.derives, Whole .identifier name) ∧ ∀ m ∈ members, m.Regular := h.1.1
    exact ⟨readsStatement_class s hname hderives (Member.readsAll members hmembers h.2),
      by simp [Stmt.isAlternative]⟩
  | .binding s kind name none v, h => by
    have hname : Whole .identifier name := (h _ List.mem_cons_self).1
    exact ⟨readsStatement_binding none kind v hname (by simp), by simp [Stmt.isAlternative]⟩
  | .binding s kind name (some e) v, h => by
    simp only [Stmt.items, List.forall_mem_cons] at h
    have hname : Whole .identifier name := h.1.1
    refine ⟨readsStatement_binding (some e) kind v hname ?_, by simp [Stmt.isAlternative]⟩
    rintro e' ⟨⟩
    exact (e.reads h.2).expression
  | .expr s e, h => by
    simp only [Stmt.items, List.forall_mem_cons] at h
    exact ⟨(e.reads h.2).statement (regular_of_wellFormed h.2) h.1.2 h.1.1,
      by simp [Stmt.isAlternative]⟩
  | .ret s none, _ => ⟨readsStatement_ret_none, by simp [Stmt.isAlternative]⟩
  | .ret s (some e), h => by
    simp only [Stmt.items, List.forall_mem_cons] at h
    exact ⟨readsStatement_ret (e.reads h.2).expression, by simp [Stmt.isAlternative]⟩
  | .ifElse s c t none, h => by
    simp only [Stmt.items, List.forall_mem_cons, List.forall_mem_append] at h
    have hif := readsStmt_if (c.reads h.2.1).expression (t.reads h.2.2)
    exact ⟨readsStatement_if hif, fun _ => hif.alternative_if⟩
  | .ifElse s c t (some e), h => by
    simp only [Stmt.items, List.forall_mem_cons, List.forall_mem_append] at h
    have hkind : ∀ a ∈ some e, a.isAlternative = true := h.1.1
    have hif := readsStmt_ifElse (c.reads h.2.1).expression (t.reads h.2.2.1)
      ((e.reads h.2.2.2).alternative (hkind e rfl))
    exact ⟨readsStatement_if hif, fun _ => hif.alternative_if⟩
  | .whileLoop s c body, h => by
    simp only [Stmt.items, List.forall_mem_cons, List.forall_mem_append] at h
    exact ⟨readsStatement_while (c.reads h.2.1).expression (body.reads h.2.2),
      by simp [Stmt.isAlternative]⟩
  | .forOf s kind name iterable body, h => by
    simp only [Stmt.items, List.forall_mem_cons, List.forall_mem_append] at h
    have hname : Whole .identifier name := h.1.1
    exact ⟨readsStatement_forOf kind hname (iterable.reads h.2.1).expression (body.reads h.2.2),
      by simp [Stmt.isAlternative]⟩
  | .block s ⟨stamp, ss⟩, h => by
    simp only [Stmt.items, Block.items, List.forall_mem_cons] at h
    have hblock := readsBlock stamp (Stmt.readsAll ss h.2)
    exact ⟨readsStatement_block hblock, fun _ => readsStmt_alternative_block hblock⟩
  | .defer s body, h => by
    simp only [Stmt.items, List.forall_mem_cons] at h
    exact ⟨readsStatement_defer (body.reads h.2), by simp [Stmt.isAlternative]⟩
  | .tryFinally s body finalizer, h => by
    simp only [Stmt.items, List.forall_mem_cons, List.forall_mem_append] at h
    exact ⟨readsStatement_try (body.reads h.2.1) (finalizer.reads h.2.2),
      by simp [Stmt.isAlternative]⟩
  | .throwExpr s e, h => by
    simp only [Stmt.items, List.forall_mem_cons] at h
    exact ⟨readsStatement_throw (e.reads h.2).expression, by simp [Stmt.isAlternative]⟩
  | .empty s, _ => ⟨readsStatement_empty, by simp [Stmt.isAlternative]⟩

theorem Stmt.readsAll : ∀ ss : List Stmt, (∀ i ∈ Stmt.itemsAll true ss, i.WellFormed) →
    ∀ s ∈ ss, ReadsStatement s.toks (s.recast .explicit)
  | [], _ => by simp
  | s :: ss, h => by
    simp only [Stmt.itemsAll, List.forall_mem_append] at h
    simp only [List.forall_mem_cons]
    exact ⟨(s.reads h.1).statement, Stmt.readsAll ss h.2⟩

theorem Member.readsAll : ∀ ms : List Member, (∀ m ∈ ms, m.Regular) →
    (∀ i ∈ Member.itemsAll true ms, i.WellFormed) → ∀ m ∈ ms, ReadsMember m
  | [], _, _ => by simp
  | .field s name none :: ms, hregular, h => by
    simp only [List.forall_mem_cons, Member.itemsAll] at hregular h ⊢
    exact ⟨readsMember_field s hregular.1 (by simp), Member.readsAll ms hregular.2 h⟩
  | .field s name (some e) :: ms, hregular, h => by
    simp only [List.forall_mem_cons, Member.itemsAll, List.forall_mem_append] at hregular h ⊢
    refine ⟨readsMember_field s hregular.1 ?_, Member.readsAll ms hregular.2 h.2⟩
    rintro e' ⟨⟩
    exact (e.reads h.1).expression
  | .method s head body :: ms, hregular, h => by
    simp only [List.forall_mem_cons, Member.itemsAll, List.forall_mem_append, bodyItems_true]
      at hregular h ⊢
    exact ⟨readsMember_method s hregular.1 (body.reads h.1), Member.readsAll ms hregular.2 h.2⟩

theorem Block.reads : ∀ b : Block, (∀ i ∈ b.items true, i.WellFormed) →
    ReadsBlock b.toks (b.recast .explicit)
  | ⟨stamp, ss⟩, h => readsBlock stamp (Stmt.readsAll ss h)

end

end MacroEngine
