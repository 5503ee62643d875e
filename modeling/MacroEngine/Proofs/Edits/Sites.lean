import MacroEngine.Proofs.Edits.Turns

/-!
# Where the expression of a site comes from

What replaces a site takes the site's place in the text, and so does the `void 0` that a removal
leaves. There is one exception: of an expression statement it is the statement that takes the place,
and then its expression is put there as it is. `transformSite_span_iff` says that there is no other,
and that no node is refused but statements that are no expression statements.
-/

namespace MacroEngine

/-- The expression that stands where hooks left a node. -/
inductive Node.StandsAs : Node → Expr → Prop where
  | expr (e : Expr) : StandsAs (.expr e) e
  | exprStmt (stamp : Stamp) (e : Expr) : StandsAs (.stmt (.expr stamp e)) e
  /-- A gap is filled with `void 0`. -/
  | voidZero (span : Span) (i j : NodeId) :
      StandsAs (.void span) (.unary ⟨j, span⟩ .void (.number ⟨i, ⟨0, 0⟩⟩ "0"))

def Node.IsOtherStmt (node : Node) : Prop := ∃ s, node = .stmt s ∧ ∀ stamp e, s ≠ .expr stamp e

theorem Node.StandsAs.not_isOtherStmt {node : Node} {e : Expr} (h : node.StandsAs e) :
    ¬ node.IsOtherStmt := by
  rintro ⟨s, rfl, hs⟩
  cases h with
  | exprStmt stamp e => exact hs stamp e rfl

/-- What stands where a node was left comes from where the node does, but for what an expression
statement holds. -/
theorem Node.StandsAs.span_iff {node : Node} {e : Expr} (h : node.StandsAs e) :
    e.span = node.span ↔ ∀ stamp inner, node = .stmt (.expr stamp inner) → inner.span = node.span := by
  cases h with
  | expr e => exact ⟨fun _ _ _ => nofun, fun _ => rfl⟩
  | exprStmt stamp e =>
    refine ⟨fun h stamp' inner heq => ?_, fun h => h stamp e rfl⟩
    obtain ⟨rfl, rfl⟩ := Stmt.expr.inj (Node.stmt.inj heq)
    exact h
  | voidZero span i j => exact ⟨fun _ _ _ => nofun, fun _ => rfl⟩

/-- What becomes of a site when its hooks have left a node and asked for edits. -/
inductive SiteOutcome (d : Declaration) (node : Node) (asked : List Edit) :
    Except Error (Expr × Beside) → Prop where
  | ok {e : Expr} (h : node.StandsAs e) : SiteOutcome d node asked (.ok (e, .requested asked))
  | error (h : node.IsOtherStmt) : SiteOutcome d node asked (.error (.statementForExpression d.name))

/-- A site runs by the turns of its hooks. -/
theorem transformSite_takesTurns (file : FileView) (d : Declaration) (hooks : Hooks) (site : Expr)
    (patcher : Patcher) (shop : Workshop) : ∃ asked node shop',
    TakeTurns file d hooks.transform (.expr site) shop asked node shop' ∧
      SiteOutcome d node asked ((transformSite file d hooks site patcher).run shop).1.1 ∧
      patcher.Receives asked ((transformSite file d hooks site patcher).run shop).1.2 := by
  obtain ⟨asked, hturns, hbeside, hpatcher⟩ :=
    Folded.through_takesTurns file d hooks.transform ⟨.expr site, .empty, patcher⟩ shop
  refine ⟨asked, _, _, hturns, ?_⟩
  rw [transformSite, StateT.run_bind]
  generalize (Folded.through file d hooks.transform ⟨.expr site, .empty, patcher⟩).run shop = out
    at hbeside hpatcher
  obtain ⟨⟨node, beside, received⟩, shop'⟩ := out
  obtain rfl : beside = .requested asked := hbeside
  obtain rfl : received = asked.foldl Edit.patch patcher := hpatcher
  have hreceives := Patcher.receives_foldl asked patcher
  cases node with
  | expr e => exact ⟨.ok (.expr e), hreceives⟩
  | void span => exact ⟨.ok (.voidZero span _ _), hreceives⟩
  | stmt s =>
    cases s with
    | expr stamp e => exact ⟨.ok (.exprStmt stamp e), hreceives⟩
    | _ => exact ⟨.error ⟨_, rfl, nofun⟩, hreceives⟩

/-- The expression that hooks leave at a site stands in the site's place in the text, unless they
leave an expression statement that holds an expression from elsewhere. What they leave is refused
just if it is a statement, but no expression statement. -/
theorem transformSite_span_iff (file : FileView) (d : Declaration) (hooks : Hooks) (site : Expr)
    (patcher : Patcher) (shop : Workshop) :
    let out := ((transformSite file d hooks site patcher).run shop).1.1
    ∃ asked node shop', TakeTurns file d hooks.transform (.expr site) shop asked node shop' ∧
      (∀ e beside, out = .ok (e, beside) → (e.span = site.span ↔
        ∀ stamp inner, node = .stmt (.expr stamp inner) → inner.span = site.span)) ∧
      ∀ err, out = .error err ↔ err = .statementForExpression d.name ∧ node.IsOtherStmt := by
  obtain ⟨asked, node, shop', hturns, houtcome, -⟩ :=
    transformSite_takesTurns file d hooks site patcher shop
  have hspan : node.span = site.span := hturns.span
  dsimp only
  refine ⟨asked, node, shop', hturns, ?_⟩
  rw [← hspan]
  generalize ((transformSite file d hooks site patcher).run shop).1.1 = out at houtcome
  cases houtcome with
  | ok h =>
    refine ⟨fun e beside heq => ?_, fun err => ⟨nofun, fun herr => absurd herr.2 h.not_isOtherStmt⟩⟩
    obtain ⟨rfl, rfl⟩ := Prod.mk.inj (Except.ok.inj heq)
    exact h.span_iff
  | error h =>
    refine ⟨fun e beside => nofun, fun err => ⟨fun heq => ⟨(Except.error.inj heq).symm, h⟩, ?_⟩⟩
    rintro ⟨rfl, -⟩
    rfl

section Unwrapped

/-- A macro that puts its argument in place of its site. -/
def unwrapDeclaration : Declaration := ⟨1, .function, "unwrap", .function false, default, default⟩

def unwrappedArgument : Expr := .ident ⟨10, ⟨11, 12⟩⟩ "x"

def unwrapSite : Expr := .invoke ⟨11, ⟨3, 13⟩⟩ "unwrap" [unwrappedArgument]

/-- Hooks that take the site away, and then put its argument there as a statement. -/
def unwrapHooks : Hooks :=
  ⟨[fun _ => return [.remove],
    fun _ => return [.replace (.stmt (.expr ⟨20, ⟨0, 0⟩⟩ unwrappedArgument))]], []⟩

/-- The argument stands in the place of the site, but it still comes from where it was. -/
theorem transformSite_span_unwrapped :
    ((transformSite ⟨default, []⟩ unwrapDeclaration unwrapHooks unwrapSite .empty).run
        ⟨30, 0, []⟩).1.1 = .ok (unwrappedArgument, .empty) ∧
      unwrappedArgument.span ≠ unwrapSite.span ∧
      ∃ asked node shop', TakeTurns ⟨default, []⟩ unwrapDeclaration unwrapHooks.transform
          (.expr unwrapSite) ⟨30, 0, []⟩ asked node shop' ∧
        ∃ stamp inner, node = .stmt (.expr stamp inner) ∧ inner.span ≠ unwrapSite.span := by
  have hok : ((transformSite ⟨default, []⟩ unwrapDeclaration unwrapHooks unwrapSite .empty).run
    ⟨30, 0, []⟩).1.1 = .ok (unwrappedArgument, .empty) := rfl
  have hspan : unwrappedArgument.span ≠ unwrapSite.span := by decide
  obtain ⟨asked, node, shop', hturns, hiff, -⟩ := transformSite_span_iff ⟨default, []⟩
    unwrapDeclaration unwrapHooks unwrapSite .empty ⟨30, 0, []⟩
  have hinner := mt (hiff _ _ hok).mpr hspan
  push Not at hinner
  exact ⟨hok, hspan, asked, node, shop', hturns, hinner⟩

/-- Not every expression that hooks leave at a site stands in the site's place in the text. -/
theorem not_transformSite_keeps_span :
    ¬ ∀ file d hooks site patcher shop e beside,
      ((transformSite file d hooks site patcher).run shop).1.1 = .ok (e, beside) →
        e.span = site.span := by
  intro h
  have hspan := h ⟨default, []⟩ unwrapDeclaration unwrapHooks unwrapSite .empty ⟨30, 0, []⟩
    unwrappedArgument .empty rfl
  exact absurd hspan (by decide)

end Unwrapped

end MacroEngine
