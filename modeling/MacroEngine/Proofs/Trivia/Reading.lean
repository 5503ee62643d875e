import MacroEngine.Proofs.Order.Lockstep
import MacroEngine.Proofs.Parsed.Readable
import MacroEngine.Proofs.Trivia.Crossing

/-!
# Reading pairs that are alike

Trees are compared without their spans: the same nodes with the same numbers, wherever they stand in
the text. Pairs that are alike are read to trees that agree in this way, since reading takes from a
pair its rule, what is inside, and the text of a token.
-/

namespace MacroEngine

def Stamp.unplaced (s : Stamp) : Stamp := ⟨s.id, default⟩

section Definitions

mutual

/-- The expression without the places of its nodes in the text. -/
def Expr.unplaced : Expr → Expr
  | .ident s n => .ident s.unplaced n
  | .number s d => .number s.unplaced d
  | .str s v => .str s.unplaced v
  | .bool s v => .bool s.unplaced v
  | .null s => .null s.unplaced
  | .this s => .this s.unplaced
  | .template s r => .template s.unplaced r
  | .tagged s t r => .tagged s.unplaced t r
  | .array s es => .array s.unplaced (Expr.unplacedAll es)
  | .object s ps => .object s.unplaced (Expr.unplacedProperties ps)
  | .paren s e => .paren s.unplaced e.unplaced
  | .member s o p => .member s.unplaced o.unplaced p
  | .call s c as => .call s.unplaced c.unplaced (Expr.unplacedAll as)
  | .invoke s n as => .invoke s.unplaced n (Expr.unplacedAll as)
  | .unary s o e => .unary s.unplaced o e.unplaced
  | .binary s o l r => .binary s.unplaced o l.unplaced r.unplaced
  | .assign s t v => .assign s.unplaced t.unplaced v.unplaced
  | .await s e => .await s.unplaced e.unplaced
  | .arrow s p a b => .arrow s.unplaced p a b.unplaced
  | .arrowExpr s p a e => .arrowExpr s.unplaced p a e.unplaced
  | .function s h b => .function s.unplaced h b.unplaced

def Expr.unplacedAll : List Expr → List Expr
  | [] => []
  | e :: es => e.unplaced :: Expr.unplacedAll es

def Expr.unplacedProperties : List (String × Expr) → List (String × Expr)
  | [] => []
  | (name, e) :: ps => (name, e.unplaced) :: Expr.unplacedProperties ps

def Stmt.unplaced : Stmt → Stmt
  | .importNames s ns m => .importNames s.unplaced ns m
  | .function s h b => .function s.unplaced h b.unplaced
  | .classDecl s h ms => .classDecl s.unplaced h (Member.unplacedAll ms)
  | .binding s k n none v => .binding s.unplaced k n none v
  | .binding s k n (some e) v => .binding s.unplaced k n (some e.unplaced) v
  | .expr s e => .expr s.unplaced e.unplaced
  | .ret s none => .ret s.unplaced none
  | .ret s (some e) => .ret s.unplaced (some e.unplaced)
  | .ifElse s c t none => .ifElse s.unplaced c.unplaced t.unplaced none
  | .ifElse s c t (some e) => .ifElse s.unplaced c.unplaced t.unplaced (some e.unplaced)
  | .whileLoop s c b => .whileLoop s.unplaced c.unplaced b.unplaced
  | .forOf s k n i b => .forOf s.unplaced k n i.unplaced b.unplaced
  | .block s b => .block s.unplaced b.unplaced
  | .defer s b => .defer s.unplaced b.unplaced
  | .tryFinally s b f => .tryFinally s.unplaced b.unplaced f.unplaced
  | .throwExpr s e => .throwExpr s.unplaced e.unplaced
  | .empty s => .empty s.unplaced

def Stmt.unplacedAll : List Stmt → List Stmt
  | [] => []
  | s :: ss => s.unplaced :: Stmt.unplacedAll ss

def Member.unplaced : Member → Member
  | .field s n none => .field s.unplaced n none
  | .field s n (some e) => .field s.unplaced n (some e.unplaced)
  | .method s h b => .method s.unplaced h b.unplaced

def Member.unplacedAll : List Member → List Member
  | [] => []
  | m :: ms => m.unplaced :: Member.unplacedAll ms

def Block.unplaced : Block → Block
  | ⟨s, ss⟩ => ⟨s.unplaced, Stmt.unplacedAll ss⟩

end

def SourceFile.unplaced (file : SourceFile) : SourceFile :=
  { file with statements := Stmt.unplacedAll file.statements, span := default }

theorem Member.unplaced_field (s : Stamp) (name : String) (init : Option Expr) :
    (Member.field s name init).unplaced =
      .field s.unplaced name (init.map Expr.unplaced) := by
  cases init <;> rfl

theorem Stmt.unplaced_binding (s : Stamp) (k : VarKind) (name : String) (init : Option Expr)
    (v : Visibility) : (Stmt.binding s k name init v).unplaced =
      .binding s.unplaced k name (init.map Expr.unplaced) v := by
  cases init <;> rfl

theorem Stmt.unplaced_ret (s : Stamp) (value : Option Expr) :
    (Stmt.ret s value).unplaced = .ret s.unplaced (value.map Expr.unplaced) := by
  cases value <;> rfl

end Definitions

abbrev Shares {α β : Type} (f : α → β) (a a' : α) : Prop := f a = f a'

namespace Grammar

open Reading

/-- Readings of which the second yields something whenever the first does, with the same numbers. -/
def follows : Lockstep Reading where
  holds V x y := ∀ n a k, x.run n = some (a, k) → ∃ b, y.run n = some (b, k) ∧ V a b
  pure h n a k hrun := by
    obtain ⟨rfl, rfl⟩ := run_pure_eq_some.mp hrun
    exact ⟨_, rfl, h⟩
  bind h h' n c k hrun := by
    obtain ⟨a, m, ha, hc⟩ := run_bind_eq_some.mp hrun
    obtain ⟨b, hb, hab⟩ := h n a m ha
    obtain ⟨d, hd, hcd⟩ := h' a b hab m c k hc
    exact ⟨d, run_bind_eq_some.mpr ⟨b, m, hb, hd⟩, hcd⟩

section Follows

variable {α β : Type} {V : α → β → Prop}

theorem follows_failure {y : Reading β} : follows.holds V failure y :=
  fun _ _ _ hrun => (run_failure_eq_some.mp hrun).elim

theorem follows_stampFrom (i j i' j' : Nat) :
    follows.holds (Shares Stamp.unplaced) (stampFrom i j) (stampFrom i' j') := by
  intro n s k hrun
  obtain ⟨rfl, rfl⟩ := run_stampFrom_eq_some.mp hrun
  exact ⟨_, rfl, rfl⟩

theorem follows_node {i j i' j' : Nat} {make : Stamp → α} {make' : Stamp → β}
    (h : ∀ s s', s.unplaced = s'.unplaced → V (make s) (make' s')) :
    follows.holds V (do return make (← stampFrom i j)) (do return make' (← stampFrom i' j')) :=
  follows.bind (follows_stampFrom i j i' j') fun s s' hs => follows.pure (h s s' hs)

theorem follows_skipId : follows.holds (fun _ _ => True) skipId skipId := by
  intro n u k hrun
  exact ⟨u, hrun, trivial⟩

end Follows

namespace Pair.Alike

variable {p p' : Pair}

theorem rule (h : p.Alike p') : p.rule = p'.rule := by
  cases h
  rfl

theorem text (h : p.Alike p') (hr : isSpelled p.rule = true) : p.text = p'.text := by
  cases h with
  | mk text => exact text hr

theorem inner (h : p.Alike p') : List.Forall₂ Pair.Alike p.inner p'.inner := by
  cases h with
  | mk _ inside => exact inside

end Pair.Alike

section Heads

variable {ps ps' : List Pair} {r : Rule}

theorem textsOf_eq (h : List.Forall₂ Pair.Alike ps ps') (hr : isSpelled r = true) :
    textsOf r ps = textsOf r ps' := by
  induction h with
  | nil => rfl
  | cons hp _ ih =>
    unfold textsOf at ih ⊢
    rw [List.filter_cons, List.filter_cons, ← hp.rule]
    split
    · rename_i hrule
      rw [List.map_cons, List.map_cons, ih, hp.text (of_decide_eq_true hrule ▸ hr)]
    · exact ih

theorem textOf_eq (h : List.Forall₂ Pair.Alike ps ps') (hr : isSpelled r = true) :
    textOf r ps = textOf r ps' := by
  rw [textOf, textOf, textsOf_eq h hr]

theorem identifiersIn_eq (h : List.Forall₂ Pair.Alike ps ps') :
    identifiersIn r ps = identifiersIn r ps' := by
  induction h with
  | nil => rfl
  | cons hp _ ih =>
    unfold identifiersIn at ih ⊢
    rw [List.filter_cons, List.filter_cons, ← hp.rule]
    split
    · rw [List.flatMap_cons, List.flatMap_cons, ih, textsOf_eq hp.inner rfl]
    · exact ih

theorem has_eq (h : List.Forall₂ Pair.Alike ps ps') : has r ps = has r ps' := by
  induction h with
  | nil => rfl
  | cons hp _ ih =>
    unfold has at ih ⊢
    rw [List.any_cons, List.any_cons, ih, hp.rule]

theorem find?_rel {R : Pair → Pair → Prop} (hR : ∀ p p', R p p' → p.rule = p'.rule)
    (h : List.Forall₂ R ps ps') :
    Option.Rel R (ps.find? (·.rule = r)) (ps'.find? (·.rule = r)) := by
  induction h with
  | nil => exact .none
  | cons hp _ ih =>
    rw [List.find?_cons, List.find?_cons, ← hR _ _ hp]
    split
    · exact .some hp
    · exact ih

theorem visibilityOf_eq (h : List.Forall₂ Pair.Alike ps ps') : visibilityOf ps = visibilityOf ps' := by
  rw [visibilityOf, visibilityOf, has_eq h, has_eq h]

theorem macroKindOf_eq (h : List.Forall₂ Pair.Alike ps ps') : macroKindOf ps = macroKindOf ps' := by
  have hfound := find?_rel (r := .macroModifier) (fun _ _ hp => hp.rule) h
  unfold macroKindOf
  generalize ps.find? _ = found at hfound ⊢
  generalize ps'.find? _ = found' at hfound ⊢
  cases hfound with
  | none => rfl
  | some hp => rw [Option.map_some, Option.map_some, has_eq hp.inner, has_eq hp.inner]

theorem functionHeadOf_eq (h : List.Forall₂ Pair.Alike ps ps') :
    functionHeadOf ps = functionHeadOf ps' := by
  rw [functionHeadOf, functionHeadOf, textsOf_eq h rfl, identifiersIn_eq h, has_eq h, macroKindOf_eq h,
    visibilityOf_eq h]

theorem methodHeadOf_eq (h : List.Forall₂ Pair.Alike ps ps') : methodHeadOf ps = methodHeadOf ps' := by
  rw [methodHeadOf, methodHeadOf, textOf_eq h rfl, identifiersIn_eq h, has_eq h]

theorem classHeadOf_eq (h : List.Forall₂ Pair.Alike ps ps') : classHeadOf ps = classHeadOf ps' := by
  rw [classHeadOf, classHeadOf, textOf_eq h rfl, identifiersIn_eq h, visibilityOf_eq h]

/-- The inside of a literal is a token without gaps. -/
theorem insideText_eq {p p' : Pair} (h : p.Alike p') (hp : Grown p)
    (hr : p.rule = .string ∨ p.rule = .template) : insideText p = insideText p' := by
  obtain ⟨r, i, j, source, qs⟩ := p
  obtain ⟨r', i', j', source', qs'⟩ := p'
  have hspelled : ∀ q ∈ qs, isSpelled q.rule = true := by
    have hall : ∀ q ∈ mentions (Host.body r), isSpelled q = true := by
      rcases hr with hr | hr <;> obtain rfl : r = _ := hr <;> decide
    exact fun q hq => hall _ (hp.rules q hq)
  have hinner : List.Forall₂ Pair.Alike qs qs' := h.inner
  change (qs.head?.map Pair.text).getD "" = (qs'.head?.map Pair.text).getD ""
  cases hinner with
  | nil => rfl
  | cons hq => exact hq.text (hspelled _ List.mem_cons_self)

theorem stringValue_eq {p p' : Pair} (h : p.Alike p') (hp : Grown p) (hr : p.rule = .string) :
    stringValue p = stringValue p' := by
  rw [stringValue, stringValue, insideText_eq h hp (.inl hr)]

end Heads

section Operands

variable {waiting waiting' : Waiting} {e e' : Expr}

def Waits (w w' : Expr × BinaryOp) : Prop := w.1.unplaced = w'.1.unplaced ∧ w.2 = w'.2

theorem joinOperands_follows {lhs lhs' rhs rhs' : Expr} (hlhs : Shares Expr.unplaced lhs lhs')
    (op : BinaryOp) (hrhs : Shares Expr.unplaced rhs rhs') :
    follows.holds (Shares Expr.unplaced) (joinOperands lhs op rhs) (joinOperands lhs' op rhs') :=
  follows_node fun s s' hs => by rw [Shares, Expr.unplaced, Expr.unplaced, hs, hlhs, hrhs]

theorem closeBefore_follows (next : BinaryOp) (h : List.Forall₂ Waits waiting waiting')
    (he : Shares Expr.unplaced e e') :
    follows.holds (fun w w' => List.Forall₂ Waits w.1 w'.1 ∧ Shares Expr.unplaced w.2 w'.2)
      (closeBefore next waiting e) (closeBefore next waiting' e') := by
  induction h generalizing e e' with
  | nil => exact follows.pure ⟨.nil, he⟩
  | @cons w w' waiting waiting' hw hmore ih =>
    obtain ⟨lhs, op⟩ := w
    obtain ⟨lhs', op'⟩ := w'
    obtain ⟨hlhs, rfl⟩ : lhs.unplaced = lhs'.unplaced ∧ op = op' := hw
    rw [closeBefore, closeBefore]
    split
    · exact follows.bind (joinOperands_follows hlhs op he) fun e e' he => ih he
    · exact follows.pure ⟨.cons ⟨hlhs, rfl⟩ hmore, he⟩

theorem closeAll_follows (h : List.Forall₂ Waits waiting waiting') (he : Shares Expr.unplaced e e') :
    follows.holds (Shares Expr.unplaced) (closeAll waiting e) (closeAll waiting' e') := by
  induction h generalizing e e' with
  | nil => exact follows.pure he
  | @cons w w' waiting waiting' hw _ ih =>
    obtain ⟨lhs, op⟩ := w
    obtain ⟨lhs', op'⟩ := w'
    obtain ⟨hlhs, rfl⟩ : lhs.unplaced = lhs'.unplaced ∧ op = op' := hw
    exact follows.bind (joinOperands_follows hlhs op he) fun e e' he => ih he

theorem applyPrefix_follows {p p' : Pair} (hp : p.text = p'.text) (he : Shares Expr.unplaced e e') :
    follows.holds (Shares Expr.unplaced) (applyPrefix p e) (applyPrefix p' e') := by
  refine follows_node fun s s' hs => ?_
  rw [← hp]
  split <;> rw [Shares, Expr.unplaced, Expr.unplaced, hs, he]

end Operands

/-- Whatever the first pair is read as, the second one is read as the same, the places in the text
apart. -/
structure Pair.ReadAlike (p p' : Pair) : Prop where
  grown : Grown p
  alike : p.Alike p'
  expr : follows.holds (Shares Expr.unplaced) (exprOf p) (exprOf p')
  prefixed : follows.holds (Shares Expr.unplaced) (prefixedOf p) (prefixedOf p')
  primary : follows.holds (Shares Expr.unplaced) (primaryOf p) (primaryOf p')
  block : follows.holds (Shares Block.unplaced) (blockOf p) (blockOf p')
  stmt : follows.holds (Shares Stmt.unplaced) (stmtOf p) (stmtOf p')

/-- Two pairs are read alike, and so are the pairs inside them. -/
inductive Pair.Twins : Pair → Pair → Prop where
  | mk {r : Rule} {i j i' j' : Nat} {source source' : List Char} {ps ps' : List Pair}
    (here : Pair.ReadAlike (.mk r i j source ps) (.mk r i' j' source' ps'))
    (inside : List.Forall₂ Pair.Twins ps ps') :
    Pair.Twins (.mk r i j source ps) (.mk r i' j' source' ps')

namespace Pair.Twins

variable {p p' : Pair}

theorem here (h : p.Twins p') : p.ReadAlike p' := by
  cases h with
  | mk here _ => exact here

theorem inner (h : p.Twins p') : List.Forall₂ Pair.Twins p.inner p'.inner := by
  cases h with
  | mk _ inside => exact inside

theorem alike {ps ps' : List Pair} (h : List.Forall₂ Pair.Twins ps ps') :
    List.Forall₂ Pair.Alike ps ps' := h.imp fun _ _ hp => hp.here.alike

end Pair.Twins

section Lists

variable {ps ps' : List Pair}

theorem exprsOf_follows (h : List.Forall₂ Pair.Twins ps ps') :
    follows.holds (Shares Expr.unplacedAll) (exprsOf ps) (exprsOf ps') := by
  induction h with
  | nil => exact follows.pure rfl
  | cons hp _ ih =>
    rw [exprsOf, exprsOf]
    refine follows.bind hp.here.expr fun e e' he => follows.bind ih fun es es' hes => follows.pure ?_
    rw [Shares, Expr.unplacedAll, Expr.unplacedAll, he, hes]

theorem stmtsOf_follows (h : List.Forall₂ Pair.Twins ps ps') :
    follows.holds (Shares Stmt.unplacedAll) (stmtsOf ps) (stmtsOf ps') := by
  induction h with
  | nil => exact follows.pure rfl
  | cons hp _ ih =>
    rw [stmtsOf, stmtsOf]
    refine follows.bind hp.here.stmt fun s s' hs => follows.bind ih fun ss ss' hss => follows.pure ?_
    rw [Shares, Stmt.unplacedAll, Stmt.unplacedAll, hs, hss]

theorem infixOf_follows {waiting waiting' : Waiting} {e e' : Expr}
    (hwaiting : List.Forall₂ Waits waiting waiting') (he : Shares Expr.unplaced e e')
    (ps ps' : List Pair) (h : List.Forall₂ Pair.Twins ps ps') :
    follows.holds (Shares Expr.unplaced) (infixOf waiting e ps) (infixOf waiting' e' ps') := by
  unfold infixOf
  split
  · cases h
    exact closeAll_follows hwaiting he
  · rename_i op i j source inner operand more
    cases h with
    | cons hop h =>
      cases h with
      | @cons _ operand' _ more' hoperand hmore =>
        cases hop with
        | mk =>
          refine follows.bind (closeBefore_follows op hwaiting he) ?_
          rintro ⟨waiting, lhs⟩ ⟨waiting', lhs'⟩ ⟨hwaiting, hlhs⟩
          have hwaiting : List.Forall₂ Waits ((lhs, op) :: waiting) ((lhs', op) :: waiting') :=
            .cons ⟨hlhs, rfl⟩ hwaiting
          refine follows.bind hoperand.here.prefixed fun e e' he => ?_
          exact infixOf_follows hwaiting he more more' hmore
  · exact follows_failure
termination_by ps.length

theorem suffixedOf_follows {e e' : Expr} (he : Shares Expr.unplaced e e')
    (h : List.Forall₂ Pair.Twins ps ps') :
    follows.holds (Shares Expr.unplaced) (suffixedOf e ps) (suffixedOf e' ps') := by
  induction h generalizing e e' with
  | nil =>
    rw [suffixedOf, suffixedOf]
    exact follows.pure he
  | @cons p p' ps ps' hp _ ih =>
    cases hp with
    | mk here inside =>
      unfold suffixedOf
      split
      · rename_i heq
        cases heq
      · rename_i heq
        cases heq
        refine follows.bind (exprsOf_follows inside) fun args args' hargs => ?_
        refine follows.bind (follows_stampFrom _ _ _ _) fun s s' hs => ih ?_
        rw [Shares, Expr.unplaced, Expr.unplaced, hs, he, hargs]
      · rename_i heq
        cases heq
        refine follows.bind (follows_stampFrom _ _ _ _) fun s s' hs => ih ?_
        rw [Shares, Expr.unplaced, Expr.unplaced, hs, he,
          textOf_eq (Pair.Twins.alike inside) rfl]
      · exact follows_failure

theorem operandOf_follows {ops ops' suffixes suffixes' : List Pair} {i j i' j' : Nat}
    {source source' : List Char} {p p' : Pair} (hops : List.Forall₂ Pair.Twins ops ops')
    (hrules : ∀ q ∈ ops, q.rule = .prefixOp) (hp : p.Twins p')
    (hsuffixes : List.Forall₂ Pair.Twins suffixes suffixes') :
    follows.holds (Shares Expr.unplaced)
      (operandOf (ops ++ [.mk .postfixed i j source (p :: suffixes)]))
      (operandOf (ops' ++ [.mk .postfixed i' j' source' (p' :: suffixes')])) := by
  induction hops with
  | nil =>
    rw [List.nil_append, List.nil_append, operandOf, operandOf]
    exact follows.bind hp.here.primary fun e e' he => suffixedOf_follows he hsuffixes
  | @cons op op' ops ops' hop _ ih =>
    obtain ⟨hrule, hmore⟩ := List.forall_mem_cons.mp hrules
    have halike := hop.here.alike
    have htext := halike.text (by rw [hrule]; rfl)
    have hrule' := halike.rule.symm.trans hrule
    obtain ⟨r, _, _, _, _⟩ := op
    obtain ⟨r', _, _, _, _⟩ := op'
    obtain rfl : r = .prefixOp := hrule
    obtain rfl : r' = .prefixOp := hrule'
    rw [List.cons_append, List.cons_append, operandOf, operandOf]
    · exact follows.bind (ih hmore) fun e e' he => applyPrefix_follows htext he
    · intro _ _ _ _ _ heq
      cases heq
    · intro _ _ _ _ _ heq
      cases heq

theorem arrowBodyOf_follows (h : List.Forall₂ Pair.Twins ps ps') :
    follows.holds (Shares (Sum.map Block.unplaced Expr.unplaced)) (arrowBodyOf ps)
      (arrowBodyOf ps') := by
  induction h with
  | nil => exact follows_failure
  | cons hp _ ih =>
    rw [arrowBodyOf, arrowBodyOf, ← hp.here.alike.rule]
    split
    · exact follows.bind hp.here.block fun b b' hb => follows.pure (congrArg Sum.inl hb)
    · split
      · exact follows.bind hp.here.expr fun e e' he => follows.pure (congrArg Sum.inr he)
      · exact ih

theorem bodyOf_follows (h : List.Forall₂ Pair.Twins ps ps') :
    follows.holds (Shares Block.unplaced) (bodyOf ps) (bodyOf ps') := by
  induction h with
  | nil => exact follows_failure
  | cons hp _ ih =>
    rw [bodyOf, bodyOf, ← hp.here.alike.rule]
    split
    · exact hp.here.block
    · exact ih

theorem initOf_follows (h : List.Forall₂ Pair.Twins ps ps') :
    follows.holds (Shares (Option.map Expr.unplaced)) (initOf ps) (initOf ps') := by
  induction h with
  | nil => exact follows.pure rfl
  | cons hp _ ih =>
    rw [initOf, initOf, ← hp.here.alike.rule]
    split
    · exact follows.bind hp.here.expr fun e e' he => follows.pure (congrArg some he)
    · exact ih

theorem membersOf_follows (h : List.Forall₂ Pair.Twins ps ps') :
    follows.holds (Shares Member.unplacedAll) (membersOf ps) (membersOf ps') := by
  induction h with
  | nil =>
    rw [membersOf]
    exact follows.pure rfl
  | @cons p p' ps ps' hp _ ih =>
    cases hp with
    | mk here inside =>
      unfold membersOf
      split
      · rename_i heq
        cases heq
      · rename_i heq
        cases heq
        refine follows.bind follows_skipId fun _ _ _ => ?_
        refine follows.bind (bodyOf_follows inside) fun b b' hb => ?_
        refine follows.bind (follows_stampFrom _ _ _ _) fun s s' hs => ?_
        refine follows.bind ih fun ms ms' hms => follows.pure ?_
        rw [Shares, Member.unplacedAll, Member.unplacedAll, Member.unplaced, Member.unplaced, hs, hb,
          hms, methodHeadOf_eq (Pair.Twins.alike inside)]
      · rename_i heq
        cases heq
        refine follows.bind (initOf_follows inside) fun init init' hinit => ?_
        refine follows.bind (follows_stampFrom _ _ _ _) fun s s' hs => ?_
        refine follows.bind ih fun ms ms' hms => follows.pure ?_
        rw [Shares, Member.unplacedAll, Member.unplacedAll, Member.unplaced_field,
          Member.unplaced_field, hs, hinit, hms,
          textOf_eq (Pair.Twins.alike inside) rfl]
      · rename_i hmethod hfield heq
        cases heq
        split
        · rename_i heq
          cases heq
        · rename_i heq
          cases heq
          exact (hmethod _ _ _ _ rfl).elim
        · rename_i heq
          cases heq
          exact (hfield _ _ _ _ rfl).elim
        · rename_i heq
          cases heq
          exact ih

/-- The specifier of an import is a string. -/
theorem specifier_eq (h : List.Forall₂ Pair.Twins ps ps') :
    ((ps.find? (·.rule = .string)).map stringValue).getD "" =
      ((ps'.find? (·.rule = .string)).map stringValue).getD "" := by
  have hfound := find?_rel (r := .string) (fun _ _ hp => hp.here.alike.rule) h
  have hstring : ∀ p, ps.find? (·.rule = .string) = some p → p.rule = .string :=
    fun p hp => of_decide_eq_true (List.find?_some hp :)
  generalize ps.find? _ = found at hfound hstring ⊢
  generalize ps'.find? _ = found' at hfound ⊢
  cases hfound with
  | none => rfl
  | some hp =>
    exact stringValue_eq hp.here.alike hp.here.grown (hstring _ rfl)

/-- The key of a property is a name or a string. -/
theorem key_eq {key key' : Pair} (h : key.ReadAlike key')
    (hrule : key.rule = .propertyName ∨ key.rule = .string) :
    (if key.rule = .string then stringValue key else key.text) =
      if key'.rule = .string then stringValue key' else key'.text := by
  rw [← h.alike.rule]
  split
  · rename_i hstring
    exact stringValue_eq h.alike h.grown hstring
  · rename_i hstring
    refine h.alike.text ?_
    rw [hrule.resolve_right hstring]
    rfl

theorem propertiesOf_follows (h : List.Forall₂ Pair.Twins ps ps') :
    follows.holds (Shares Expr.unplacedProperties) (propertiesOf ps) (propertiesOf ps') := by
  induction h with
  | nil =>
    rw [propertiesOf]
    exact follows.pure rfl
  | @cons p p' ps ps' hp _ ih =>
    cases hp with
    | mk here inside =>
      unfold propertiesOf
      split
      · rename_i heq
        cases heq
      · rename_i heq
        cases heq
        have hshapes : ∀ l ∈ shapes (Host.body .property), ∃ q ∈ [Rule.propertyName, .string],
            l = [q, .expression] := by decide
        obtain ⟨q, hq, hshape⟩ := hshapes _ (here.grown.shape rfl rfl)
        cases inside with
        | cons hkey hvalues =>
          cases hvalues with
          | cons hvalue hnil =>
            cases hnil
            have hrule := (List.cons.inj hshape).1
            have hname := key_eq hkey.here (by simpa [hrule] using hq)
            refine follows.bind hvalue.here.expr fun e e' he => ?_
            refine follows.bind ih fun more more' hmore => follows.pure ?_
            rw [Shares, Expr.unplacedProperties, Expr.unplacedProperties, he, hmore, hname]
      · exact follows_failure

end Lists

section Pairs

variable {r : Rule} {i j i' j' : Nat} {source source' : List Char} {ps ps' : List Pair}

theorem exprOf_follows (h : List.Forall₂ Pair.Twins ps ps') :
    follows.holds (Shares Expr.unplaced) (exprOf (.mk r i j source ps))
      (exprOf (.mk r i' j' source' ps')) := by
  unfold exprOf
  split
  -- The branch that was taken says what is inside the pair, and so what is inside the other one.
  all_goals first | (rename_i heq; cases heq) | exact follows_failure
  · cases h with
    | cons htarget hnil =>
      cases hnil
      exact htarget.here.expr
  · cases h with
    | cons htarget hvalue =>
      cases hvalue with
      | cons hvalue hnil =>
        cases hnil
        refine follows.bind htarget.here.expr fun t t' ht => ?_
        refine follows.bind hvalue.here.expr fun v v' hv => follows_node fun s s' hs => ?_
        rw [Shares, Expr.unplaced, Expr.unplaced, hs, ht, hv]
  · cases h with
    | cons hfirst hmore =>
      refine follows.bind hfirst.here.prefixed fun e e' he => ?_
      exact infixOf_follows .nil he _ _ hmore

theorem exists_append_of_forall₂ {α β : Type} {R : α → β → Prop} {as bs : List α} {cs : List β}
    (h : List.Forall₂ R (as ++ bs) cs) :
    ∃ as' bs', cs = as' ++ bs' ∧ List.Forall₂ R as as' ∧ List.Forall₂ R bs bs' := by
  have h : List.Forall₂ (flip R) cs (as ++ bs) := List.Forall₂.flip h
  exact ⟨_, _, (List.take_append_drop as.length cs).symm,
    List.Forall₂.flip (List.forall₂_take_append cs as bs h),
    List.Forall₂.flip (List.forall₂_drop_append cs as bs h)⟩

theorem prefixedOf_follows (hp : Grown (.mk r i j source ps)) (h : List.Forall₂ Pair.Twins ps ps') :
    follows.holds (Shares Expr.unplaced) (prefixedOf (.mk r i j source ps))
      (prefixedOf (.mk r i' j' source' ps')) := by
  by_cases hr : r = .prefixed
  · subst hr
    obtain ⟨ops, ⟨_, k, l, cs, inner⟩, rfl, hlast, hops⟩ := hp.prefixed
    obtain rfl := hlast
    have hpostfixed := hp.inside (.mk .postfixed k l cs inner) (by simp)
    obtain ⟨first, suffixes, rfl, -, -⟩ := hpostfixed.postfixed
    obtain ⟨ops', _, rfl, hops', _ | ⟨⟨_, _ | ⟨hfirst, hsuffixes⟩⟩, _ | _⟩⟩ :=
      exists_append_of_forall₂ h
    rw [prefixedOf, prefixedOf]
    exact operandOf_follows hops' hops hfirst hsuffixes
  · rw [prefixedOf.eq_def]
    split
    · rename_i heq
      cases heq
      exact absurd rfl hr
    · exact follows_failure

theorem blockOf_follows (h : List.Forall₂ Pair.Twins ps ps') :
    follows.holds (Shares Block.unplaced) (blockOf (.mk r i j source ps))
      (blockOf (.mk r i' j' source' ps')) := by
  unfold blockOf
  split
  all_goals first | (rename_i heq; cases heq) | exact follows_failure
  · refine follows.bind (stmtsOf_follows h) fun ss ss' hss => follows_node fun s s' hs => ?_
    rw [Shares, Block.unplaced, Block.unplaced, hs, hss]

theorem primaryOf_follows (hp : Grown (.mk r i j source ps))
    (halike : (Pair.mk r i j source ps).Alike (.mk r i' j' source' ps'))
    (h : List.Forall₂ Pair.Twins ps ps') :
    follows.holds (Shares Expr.unplaced) (primaryOf (.mk r i j source ps))
      (primaryOf (.mk r i' j' source' ps')) := by
  unfold primaryOf
  split
  all_goals first | (rename_i heq; cases heq) | exact follows_failure
  · refine follows_node fun s s' hs => ?_
    rw [Shares, Expr.unplaced, Expr.unplaced, hs, halike.text rfl]
  · refine follows_node fun s s' hs => ?_
    rw [Shares, Expr.unplaced, Expr.unplaced, hs, halike.text rfl]
  · refine follows_node fun s s' hs => ?_
    rw [Shares, Expr.unplaced, Expr.unplaced, hs, stringValue_eq halike hp rfl]
  · refine follows_node fun s s' hs => ?_
    rw [Shares, Expr.unplaced, Expr.unplaced, hs, insideText_eq halike hp (.inr rfl)]
  · refine follows_node fun s s' hs => ?_
    rw [Shares, Expr.unplaced, Expr.unplaced, hs, halike.text rfl]
  · refine follows_node fun s s' hs => ?_
    rw [Shares, Expr.unplaced, Expr.unplaced, hs]
  · refine follows_node fun s s' hs => ?_
    rw [Shares, Expr.unplaced, Expr.unplaced, hs]
  · refine follows.bind (exprsOf_follows h) fun es es' hes => follows_node fun s s' hs => ?_
    rw [Shares, Expr.unplaced, Expr.unplaced, hs, hes]
  · refine follows.bind (propertiesOf_follows h) fun ps ps' hps => follows_node fun s s' hs => ?_
    rw [Shares, Expr.unplaced, Expr.unplaced, hs, hps]
  · cases h with
    | cons hinner hnil =>
      cases hnil
      refine follows.bind hinner.here.expr fun e e' he => follows_node fun s s' hs => ?_
      rw [Shares, Expr.unplaced, Expr.unplaced, hs, he]
  · rename_i name _ _ _ args
    have hshape : [name.rule, .callArgs] = [.identifier, .callArgs] :=
      List.mem_singleton.mp (hp.shape rfl rfl)
    cases h with
    | cons hname hargs =>
      cases hargs with
      | cons hargs hnil =>
        cases hnil
        cases hargs with
        | mk _ inside =>
          have htext := hname.here.alike.text (by rw [(List.cons.inj hshape).1]; rfl)
          refine follows.bind (exprsOf_follows inside) fun es es' hes => ?_
          refine follows_node fun s s' hs => ?_
          rw [Shares, Expr.unplaced, Expr.unplaced, hs, hes, htext]
  · rename_i tag raw
    have hshape : [tag.rule, raw.rule] = [.identifier, .template] :=
      List.mem_singleton.mp (hp.shape rfl rfl)
    cases h with
    | cons htag hraw =>
      cases hraw with
      | cons hraw hnil =>
        cases hnil
        have htext := htag.here.alike.text (by rw [(List.cons.inj hshape).1]; rfl)
        have hrule := List.singleton_inj.mp (List.cons.inj hshape).2
        have hinside := insideText_eq hraw.here.alike hraw.here.grown (.inr hrule)
        refine follows_node fun s s' hs => ?_
        rw [Shares, Expr.unplaced, Expr.unplaced, hs, htext, hinside]
  · refine follows.bind follows_skipId fun _ _ _ => ?_
    refine follows.bind (arrowBodyOf_follows h) fun body body' hbody => ?_
    refine follows.bind (follows_stampFrom _ _ _ _) fun s s' hs => follows.pure ?_
    have hnames := identifiersIn_eq (r := .arrowParams) (Pair.Twins.alike h)
    have hasync := has_eq (r := .asyncWord) (Pair.Twins.alike h)
    cases body with
    | inl b =>
      cases body' with
      | inl b' => rw [Shares, Expr.unplaced, Expr.unplaced, hs, Sum.inl.inj hbody, hnames, hasync]
      | inr => cases hbody
    | inr e =>
      cases body' with
      | inl => cases hbody
      | inr e' => rw [Shares, Expr.unplaced, Expr.unplaced, hs, Sum.inr.inj hbody, hnames, hasync]
  · refine follows.bind (bodyOf_follows h) fun b b' hb => follows_node fun s s' hs => ?_
    rw [Shares, Expr.unplaced, Expr.unplaced, hs, hb, functionHeadOf_eq (Pair.Twins.alike h)]

theorem stmtOf_follows (hp : Grown (.mk r i j source ps)) (h : List.Forall₂ Pair.Twins ps ps') :
    follows.holds (Shares Stmt.unplaced) (stmtOf (.mk r i j source ps))
      (stmtOf (.mk r i' j' source' ps')) := by
  have halike := Pair.Twins.alike h
  unfold stmtOf
  split
  all_goals first | (rename_i heq; cases heq) | exact follows_failure
  · refine follows_node fun s s' hs => ?_
    rw [Shares, Stmt.unplaced, Stmt.unplaced, hs, textsOf_eq halike rfl, specifier_eq h]
  · refine follows.bind (bodyOf_follows h) fun b b' hb => follows_node fun s s' hs => ?_
    rw [Shares, Stmt.unplaced, Stmt.unplaced, hs, hb, functionHeadOf_eq halike]
  · refine follows.bind (membersOf_follows h) fun ms ms' hms => follows_node fun s s' hs => ?_
    rw [Shares, Stmt.unplaced, Stmt.unplaced, hs, hms, classHeadOf_eq halike]
  · refine follows.bind (initOf_follows h) fun init init' hinit => follows_node fun s s' hs => ?_
    rw [Shares, Stmt.unplaced_binding, Stmt.unplaced_binding, hs, hinit, varKindOf, varKindOf,
      has_eq halike, textOf_eq halike rfl, visibilityOf_eq halike]
  · refine follows.bind (initOf_follows h) fun value value' hvalue => follows_node fun s s' hs => ?_
    rw [Shares, Stmt.unplaced_ret, Stmt.unplaced_ret, hs, hvalue]
  · obtain _ | ⟨_, _ | ⟨hcondition, _ | ⟨hconsequence, _ | _⟩⟩⟩ := h
    refine follows.bind hcondition.here.expr fun c c' hc => ?_
    refine follows.bind hconsequence.here.block fun t t' ht => follows_node fun s s' hs => ?_
    rw [Shares, Stmt.unplaced, Stmt.unplaced, hs, hc, ht]
  · obtain _ | ⟨_, _ | ⟨hcondition, _ | ⟨hconsequence, _ | ⟨_, _ | ⟨halternative, _ | _⟩⟩⟩⟩⟩ := h
    refine follows.bind hcondition.here.expr fun c c' hc => ?_
    refine follows.bind hconsequence.here.block fun t t' ht => ?_
    refine follows.bind halternative.here.stmt fun e e' he => follows_node fun s s' hs => ?_
    rw [Shares, Stmt.unplaced, Stmt.unplaced, hs, hc, ht, he]
  · obtain _ | ⟨_, _ | ⟨hcondition, _ | ⟨hbody, _ | _⟩⟩⟩ := h
    refine follows.bind hcondition.here.expr fun c c' hc => ?_
    refine follows.bind hbody.here.block fun b b' hb => follows_node fun s s' hs => ?_
    rw [Shares, Stmt.unplaced, Stmt.unplaced, hs, hc, hb]
  · rename_i name _ _ _
    have hshapes : ∀ l ∈ shapes (Host.body .forOfStmt), (l.drop 2).head? = some Rule.identifier := by
      decide
    have hname : name.rule = .identifier := by simpa using hshapes _ (hp.shape rfl rfl)
    obtain _ | ⟨_, _ | ⟨hkind, _ | ⟨htwins, _ | ⟨_, _ | ⟨hiterable, _ | ⟨hbody, _ | _⟩⟩⟩⟩⟩⟩ := h
    have htext := htwins.here.alike.text (by rw [hname]; rfl)
    have hvar := has_eq (r := .varLet) (.cons hkind.here.alike .nil)
    refine follows.bind hiterable.here.expr fun e e' he => ?_
    refine follows.bind hbody.here.block fun b b' hb => follows_node fun s s' hs => ?_
    rw [Shares, Stmt.unplaced, Stmt.unplaced, hs, varKindOf, varKindOf, hvar, htext, he, hb]
  · obtain _ | ⟨_, _ | ⟨hbody, _ | _⟩⟩ := h
    refine follows.bind hbody.here.block fun b b' hb => follows_node fun s s' hs => ?_
    rw [Shares, Stmt.unplaced, Stmt.unplaced, hs, hb]
  · obtain _ | ⟨_, _ | ⟨hbody, _ | ⟨_, _ | ⟨hfinalizer, _ | _⟩⟩⟩⟩ := h
    refine follows.bind hbody.here.block fun b b' hb => ?_
    refine follows.bind hfinalizer.here.block fun f f' hf => follows_node fun s s' hs => ?_
    rw [Shares, Stmt.unplaced, Stmt.unplaced, hs, hb, hf]
  · obtain _ | ⟨_, _ | ⟨hvalue, _ | _⟩⟩ := h
    refine follows.bind hvalue.here.expr fun e e' he => follows_node fun s s' hs => ?_
    rw [Shares, Stmt.unplaced, Stmt.unplaced, hs, he]
  · refine follows.bind (stmtsOf_follows h) fun ss ss' hss => ?_
    refine follows.bind (follows_stampFrom _ _ _ _) fun b b' hb => follows_node fun s s' hs => ?_
    rw [Shares, Stmt.unplaced, Stmt.unplaced, Block.unplaced, Block.unplaced, hs, hb, hss]
  · refine follows_node fun s s' hs => ?_
    rw [Shares, Stmt.unplaced, Stmt.unplaced, hs]
  · obtain _ | ⟨hvalue, _ | _⟩ := h
    refine follows.bind hvalue.here.expr fun e e' he => follows_node fun s s' hs => ?_
    rw [Shares, Stmt.unplaced, Stmt.unplaced, hs, he]

/-- Pairs that are alike are read alike, with all that is inside. -/
theorem Grown.twins {p p' : Pair} (hp : Grown p) (h : p.Alike p') : p.Twins p' := by
  refine (Grown.everywhere (P := fun p => ∀ p', p.Alike p' → p.Twins p') ?_ hp).here p' h
  rintro ⟨r, i, j, source, ps⟩ hp hinner p' halike
  have hps : ∀ q ∈ ps, ∀ q', q.Alike q' → q.Twins q' := fun q hq => (hinner q hq).here
  cases halike with
  | mk htext inside =>
    have htwins : List.Forall₂ Pair.Twins ps _ :=
      ((List.forall₂_and_left _ _).mpr ⟨hps, inside⟩).imp fun _ q' hq => hq.1 q' hq.2
    have halike := Pair.Alike.mk htext inside
    exact .mk ⟨hp, halike, exprOf_follows htwins, prefixedOf_follows hp htwins,
      primaryOf_follows hp halike htwins, blockOf_follows htwins, stmtOf_follows hp htwins⟩ htwins

/-- From trees of rules that are alike come files that differ in the places of their nodes only. -/
theorem fileOf_follows {input : List Char} {p p' : Pair} (hp : recognize input = .ok p)
    (h : p.Alike p') (path : SourcePath) :
    follows.holds (Shares SourceFile.unplaced) (fileOf path p) (fileOf path p') := by
  have hinner := List.rel_filter (R := Pair.Alike) (p := (·.rule ≠ .endOfInput))
    (q := (·.rule ≠ .endOfInput)) (fun _ _ hq => by simp [hq.rule]) h.inner
  have htwins : List.Forall₂ Pair.Twins _ _ :=
    ((List.forall₂_and_left _ _).mpr ⟨statements_of_recognize hp, hinner⟩).imp fun _ _ hq =>
      hq.1.1.twins hq.2
  refine follows.bind (stmtsOf_follows htwins) fun ss ss' hss => follows_node fun s s' hs => ?_
  have hid : s.id = s'.id := (Stamp.mk.inj hs).1
  rw [Shares, SourceFile.unplaced, SourceFile.unplaced, hss, hid]

end Pairs

end Grammar

end MacroEngine
