import MacroEngine.Proofs.RoundTrip.WellFormed

/-!
# The tokens of a tree

`toks` lists the tokens that printing writes for a tree, without regard to margins and line ends.
What an expression begins with decides how the grammar reads the place where it stands: `lookahead`
names the first tokens, and the last lemmas say which rules fail in front of them.
-/

namespace MacroEngine

open Grammar (Tok Look Sees look Rule Peg)
open Printer (isPlainKey)

def commas : List (List Tok) → List Tok
  | [] => []
  | [ts] => ts
  | ts :: more => ts ++ .sym ',' :: commas more

def Place.toks (place : Place) (e : Expr) (ts : List Tok) : List Tok :=
  if place.wraps e then .sym '(' :: (ts ++ [.sym ')']) else ts

def nameToks (names : List String) : List Tok := commas (names.map fun name => [.word name])

def paramToks (names : List String) : List Tok := .sym '(' :: (nameToks names ++ [.sym ')'])

def keyTok (name : String) : Tok := if isPlainKey name then .word name else .str name

def visibilityToks : Visibility → List Tok
  | .internal => []
  | .named => [.word "export"]
  | .default => [.exportDefault]

def macroToks : Option MacroKind → List Tok
  | none => []
  | some .function => [.word "macro"]
  | some .template => [.word "macro", .word "template"]
  | some .derive => [.word "macro", .word "derive"]

def asyncToks (isAsync : Bool) : List Tok := if isAsync then [.word "async"] else []

def functionToks (head : FunctionHead) : List Tok :=
  visibilityToks head.visibility ++ (macroToks head.macroKind ++ (asyncToks head.isAsync ++
    .word "function" :: (head.name.toList.map Tok.word ++ paramToks head.params)))

def methodToks (head : MethodHead) : List Tok :=
  asyncToks head.isAsync ++ .word head.name :: paramToks head.params

def deriveToks (names : List String) : List Tok :=
  if names.isEmpty then [] else .word "derives" :: nameToks names

def classToks (head : ClassHead) : List Tok :=
  visibilityToks head.visibility ++ .word "class" :: .word head.name :: deriveToks head.derives

def unaryTok : UnaryOp → Tok
  | .not => .sym '!'
  | .neg => .sym '-'
  | .void => .word "void"
  | .typeOf => .word "typeof"

mutual

def Expr.toks : Expr → List Tok
  | .ident _ name => [.word name]
  | .number _ digits => [.num digits]
  | .str _ value => [.str value]
  | .bool _ value => [.word (if value then "true" else "false")]
  | .null _ => [.word "null"]
  | .this _ => [.word "this"]
  | .template _ raw => [.tmpl raw]
  | .tagged _ tag raw => [.word tag, .tmpl raw]
  | .array _ items => .sym '[' :: (commas (Expr.toksAll items) ++ [.sym ']'])
  | .object _ ps => .sym '\x7b' :: (commas (Expr.propertyToks ps) ++ [.sym '\x7d'])
  | .paren _ e => .sym '(' :: (e.toks ++ [.sym ')'])
  | .member _ object property =>
    Place.toks (.level Level.postfixed) object object.toks ++ [.sym '.', .word property]
  | .call _ callee args =>
    Place.toks (.level Level.postfixed) callee callee.toks ++
      .sym '(' :: (commas (Expr.toksAll args) ++ [.sym ')'])
  | .invoke _ name args =>
    .word name :: .sym '!' :: .sym '(' :: (commas (Expr.toksAll args) ++ [.sym ')'])
  | .unary _ op operand => unaryTok op :: Place.toks (.level Level.unary) operand operand.toks
  | .binary _ op lhs rhs =>
    Place.toks (.level (Printer.operandLevels op).1) lhs lhs.toks ++
      .op op :: Place.toks (.level (Printer.operandLevels op).2) rhs rhs.toks
  | .assign _ target value =>
    Place.toks (.level Level.postfixed) target target.toks ++ .eq :: value.toks
  | .await _ operand => .word "await" :: Place.toks (.level Level.unary) operand operand.toks
  | .arrow _ names isAsync body => asyncToks isAsync ++ (paramToks names ++ .arrow :: body.toks)
  | .arrowExpr _ names isAsync body =>
    asyncToks isAsync ++ (paramToks names ++ .arrow :: Place.toks .arrowBody body body.toks)
  | .function _ head body => functionToks head ++ body.toks

def Expr.toksAll : List Expr → List (List Tok)
  | [] => []
  | e :: es => e.toks :: Expr.toksAll es

def Expr.propertyToks : List (String × Expr) → List (List Tok)
  | [] => []
  | (name, e) :: ps => (keyTok name :: .sym ':' :: e.toks) :: Expr.propertyToks ps

def Stmt.toks : Stmt → List Tok
  | .importNames _ names specifier =>
    .word "import" :: .sym '\x7b' ::
      (nameToks names ++ [.sym '\x7d', .word "from", .str specifier, .sym ';'])
  | .function _ head body => functionToks head ++ body.toks
  | .classDecl _ head members =>
    classToks head ++ .sym '\x7b' :: (Member.toksAll members ++ [.sym '\x7d'])
  | .binding _ kind name none visibility =>
    visibilityToks visibility ++ [.word kind.label, .word name, .sym ';']
  | .binding _ kind name (some e) visibility =>
    visibilityToks visibility ++ .word kind.label :: .word name :: .eq :: (e.toks ++ [.sym ';'])
  | .expr _ e => Place.toks .statement e e.toks ++ [.sym ';']
  | .ret _ none => [.word "return", .sym ';']
  | .ret _ (some e) => .word "return" :: (e.toks ++ [.sym ';'])
  | .ifElse _ c t none => .word "if" :: .sym '(' :: (c.toks ++ .sym ')' :: t.toks)
  | .ifElse _ c t (some e) =>
    .word "if" :: .sym '(' :: (c.toks ++ .sym ')' :: (t.toks ++ .word "else" :: e.toks))
  | .whileLoop _ c body => .word "while" :: .sym '(' :: (c.toks ++ .sym ')' :: body.toks)
  | .forOf _ kind name iterable body =>
    .word "for" :: .sym '(' :: .word kind.label :: .word name :: .word "of" ::
      (iterable.toks ++ .sym ')' :: body.toks)
  | .block _ body => body.toks
  | .defer _ body => .word "defer" :: body.toks
  | .tryFinally _ body finalizer => .word "try" :: (body.toks ++ .word "finally" :: finalizer.toks)
  | .throwExpr _ e => .word "throw" :: (e.toks ++ [.sym ';'])
  | .empty _ => [.sym ';']

def Stmt.toksAll : List Stmt → List Tok
  | [] => []
  | s :: ss => s.toks ++ Stmt.toksAll ss

def Member.toksAll : List Member → List Tok
  | [] => []
  | .field _ name none :: ms => .word name :: .sym ';' :: Member.toksAll ms
  | .field _ name (some e) :: ms =>
    .word name :: .eq :: (e.toks ++ .sym ';' :: Member.toksAll ms)
  | .method _ head body :: ms => methodToks head ++ (body.toks ++ Member.toksAll ms)

def Block.toks : Block → List Tok
  | ⟨_, ss⟩ => .sym '\x7b' :: (Stmt.toksAll ss ++ [.sym '\x7d'])

end

def keyLook (name : String) : Look :=
  if isPlainKey name then
    if name ∈ Grammar.Host.reserved then .word name else .name
  else .str

def unaryLook : UnaryOp → Look
  | .not => .sym '!'
  | .neg => .sym '-'
  | .void => .word "void"
  | .typeOf => .word "typeof"

def macroLook : Option MacroKind → List Look
  | none => []
  | some .function => [.word "macro"]
  | some .template => [.word "macro", .word "template"]
  | some .derive => [.word "macro", .word "derive"]

def asyncLook (isAsync : Bool) : List Look := if isAsync then [.word "async"] else []

/-- What an expression begins with if `left` stands at its left end and begins with `hs`, and `next`
comes after it. -/
def lookPast (place : Place) (left : Expr) (hs : List Look) (next : Look) : List Look :=
  if place.wraps left then [.sym '(']
  else match left with
    | .ident _ _ => [.name, next]
    | _ => hs

/-- What an expression begins with, as far as it matters. -/
def Expr.lookahead : Expr → List Look
  | .ident _ _ => [.name]
  | .number _ _ => [.num]
  | .str _ _ => [.str]
  | .bool _ value => [.word (if value then "true" else "false")]
  | .null _ => [.word "null"]
  | .this _ => [.word "this"]
  | .template _ _ => [.tmpl]
  | .tagged _ _ _ => [.name, .tmpl]
  | .array _ _ => [.sym '[']
  | .object _ [] => [.sym '\x7b', .sym '\x7d']
  | .object _ ((name, _) :: _) => [.sym '\x7b', keyLook name, .sym ':']
  | .paren _ _ => [.sym '(']
  | .member _ owner _ => lookPast (.level Level.postfixed) owner owner.lookahead (.sym '.')
  | .call _ callee _ => lookPast (.level Level.postfixed) callee callee.lookahead (.sym '(')
  | .invoke _ _ _ => [.name, .sym '!']
  | .unary _ op _ => [unaryLook op]
  | .binary _ op lhs _ =>
    lookPast (.level (Printer.operandLevels op).1) lhs lhs.lookahead (.op op)
  | .assign _ target _ => lookPast (.level Level.postfixed) target target.lookahead .eq
  | .await _ _ => [.word "await"]
  | .arrow _ _ isAsync _ | .arrowExpr _ _ isAsync _ => asyncLook isAsync ++ [.sym '(']
  | .function _ head _ =>
    macroLook head.macroKind ++ (asyncLook head.isAsync ++
      [.word "function", if head.name = none then .sym '(' else .name])

/-- The end of an expression that nothing stands at the left of. -/
def Expr.isLeaf : Expr → Bool
  | .member _ _ _ | .call _ _ _ | .binary _ _ _ _ | .assign _ _ _ => false
  | _ => true

def nextLooks : List Look := [.sym '.', .sym '(', .eq] ++ BinaryOp.all.map .op

section Sees

open Grammar

variable {left : Expr} {n : Look} {t : Tok} {rest : List Tok}

theorem sees_cons_of {h : Look} {hs : List Look} (ht : h.Is t) (hmore : Sees hs rest) :
    Sees (h :: hs) (t :: rest) := by
  cases h with
  | done => exact ht.elim
  | _ => exact ⟨ht, hmore⟩

theorem sees_lookPast (place : Place) (rest : List Tok)
    (h : ∀ rest, Sees left.lookahead (left.toks ++ rest)) (ht : n.Is t) :
    Sees (lookPast place left left.lookahead n) (place.toks left left.toks ++ t :: rest) := by
  unfold lookPast Place.toks
  cases hwraps : place.wraps left with
  | true => exact ⟨rfl, trivial⟩
  | false =>
    split
    · rename_i heq
      simp at heq
    · split
      · rename_i name
        exact ⟨(h []).1, sees_cons_of ht trivial⟩
      · exact h _

theorem keyLook_is (name : String) : (keyLook name).Is (keyTok name) := by
  unfold keyLook keyTok
  split
  · split
    · rfl
    · assumption
  · trivial

theorem sees_async (isAsync : Bool) {hs : List Look} {ts : List Tok} (h : Sees hs ts) :
    Sees (asyncLook isAsync ++ hs) (asyncToks isAsync ++ ts) := by
  cases isAsync with
  | false => exact h
  | true => exact sees_cons_of rfl h

theorem sees_macro (kind : Option MacroKind) {hs : List Look} {ts : List Tok} (h : Sees hs ts) :
    Sees (macroLook kind ++ hs) (macroToks kind ++ ts) := by
  rcases kind with _ | (_ | _ | _)
  · exact h
  · exact sees_cons_of rfl h
  · exact sees_cons_of rfl (sees_cons_of rfl h)
  · exact sees_cons_of rfl (sees_cons_of rfl h)

theorem sees_functionToks {head : FunctionHead} (h : head.Regular)
    (hvisibility : head.visibility = .internal) (rest : List Tok) :
    Sees (macroLook head.macroKind ++ (asyncLook head.isAsync ++
      [.word "function", if head.name = none then .sym '(' else .name])) (functionToks head ++ rest) := by
  have hword : Sees [.word "function", if head.name = none then .sym '(' else .name]
      (.word "function" :: (head.name.toList.map Tok.word ++ (paramToks head.params ++ rest))) := by
    cases hname : head.name with
    | none => exact ⟨rfl, rfl, trivial⟩
    | some name => exact ⟨rfl, (whole_identifier_iff.mp (h.1 name hname)).2, trivial⟩
  have hall := sees_macro head.macroKind (sees_async head.isAsync hword)
  simpa [functionToks, hvisibility, visibilityToks] using hall

theorem Expr.sees_lookahead : ∀ (e : Expr) (rest : List Tok), (∀ i ∈ e.items true, i.Regular) →
    Sees e.lookahead (e.toks ++ rest)
  | .ident _ name, rest, h => by
    have hname : Whole .identifier name := h _ List.mem_cons_self
    exact ⟨(whole_identifier_iff.mp hname).2, trivial⟩
  | .number _ _, _, _ | .str _ _, _, _ | .template _ _, _, _ => ⟨trivial, trivial⟩
  | .bool _ _, _, _ | .null _, _, _ | .this _, _, _ | .array _ _, _, _ | .paren _ _, _, _ =>
    ⟨rfl, trivial⟩
  | .tagged _ tag _, _, h => by
    have htag : Whole .identifier tag ∧ _ := h _ List.mem_cons_self
    exact ⟨(whole_identifier_iff.mp htag.1).2, trivial, trivial⟩
  | .object _ [], _, _ => ⟨rfl, rfl, trivial⟩
  | .object _ [(name, e)], _, _ => ⟨rfl, sees_cons_of (keyLook_is name) ⟨rfl, trivial⟩⟩
  | .object _ ((name, e) :: p :: ps), _, _ =>
    ⟨rfl, sees_cons_of (keyLook_is name) ⟨rfl, trivial⟩⟩
  | .member _ owner property, rest, h => by
    simp only [Expr.items, List.forall_mem_cons] at h
    have hpast := sees_lookPast (n := .sym '.') (t := .sym '.') (.level Level.postfixed)
      (.word property :: rest) (fun rest => owner.sees_lookahead rest h.2) rfl
    simpa [Expr.lookahead, Expr.toks] using hpast
  | .call _ callee args, rest, h => by
    simp only [Expr.items, List.forall_mem_cons, List.forall_mem_append] at h
    have hpast := sees_lookPast (n := .sym '(') (t := .sym '(') (.level Level.postfixed)
      (commas (Expr.toksAll args) ++ .sym ')' :: rest)
      (fun rest => callee.sees_lookahead rest h.2.1) rfl
    simpa [Expr.lookahead, Expr.toks] using hpast
  | .invoke _ name _, _, h => by
    simp only [Expr.items, List.forall_mem_cons] at h
    exact ⟨(whole_identifier_iff.mp h.1).2, rfl, trivial⟩
  | .unary _ op _, _, _ => by cases op <;> exact ⟨rfl, trivial⟩
  | .binary _ op lhs rhs, rest, h => by
    simp only [Expr.items, List.forall_mem_cons, List.forall_mem_append] at h
    have hpast := sees_lookPast (n := .op op) (t := .op op)
      (.level (Printer.operandLevels op).1)
      (Place.toks (.level (Printer.operandLevels op).2) rhs rhs.toks ++ rest)
      (fun rest => lhs.sees_lookahead rest h.2.1) rfl
    simpa [Expr.lookahead, Expr.toks] using hpast
  | .assign _ target value, rest, h => by
    simp only [Expr.items, List.forall_mem_cons, List.forall_mem_append] at h
    have hpast := sees_lookPast (n := .eq) (t := .eq) (.level Level.postfixed)
      (value.toks ++ rest) (fun rest => target.sees_lookahead rest h.2.1) trivial
    simpa [Expr.lookahead, Expr.toks] using hpast
  | .await _ _, _, _ => ⟨rfl, trivial⟩
  | .arrow _ names isAsync body, rest, _ => by
    have hparen : Sees [.sym '('] (paramToks names ++ .arrow :: (body.toks ++ rest)) :=
      ⟨rfl, trivial⟩
    have h := sees_async isAsync hparen
    simpa [Expr.lookahead, Expr.toks] using h
  | .arrowExpr _ names isAsync body, rest, _ => by
    have hparen : Sees [.sym '(']
        (paramToks names ++ .arrow :: (Place.toks .arrowBody body body.toks ++ rest)) :=
      ⟨rfl, trivial⟩
    have h := sees_async isAsync hparen
    simpa [Expr.lookahead, Expr.toks] using h
  | .function _ head body, rest, h => by
    have hhead : head.Regular ∧ head.visibility = .internal := h _ List.mem_cons_self
    have hall := sees_functionToks hhead.1 hhead.2 (body.toks ++ rest)
    simpa [Expr.lookahead, Expr.toks] using hall

end Sees

section Openings

theorem lookPast_cases (place : Place) (left : Expr) {n : Look} (hn : n ∈ nextLooks) :
    lookPast place left left.lookahead n = [.sym '('] ∨
      (∃ next ∈ nextLooks, lookPast place left left.lookahead n = [.name, next]) ∨
      (place.wraps left = false ∧ lookPast place left left.lookahead n = left.lookahead ∧
        ∀ s name, left ≠ .ident s name) := by
  unfold lookPast
  cases hwraps : place.wraps left with
  | true => exact .inl rfl
  | false =>
    cases left with
    | ident => exact .inr (.inl ⟨n, hn, rfl⟩)
    | _ => exact .inr (.inr ⟨rfl, rfl, by simp⟩)

theorem Expr.opening_of_isLeaf {e : Expr} (h : e.isLeaf = true) : e.opening = e := by
  cases e <;> first | rfl | simp [Expr.isLeaf] at h

/-- An expression begins with a parenthesis that printing adds, with a name that something follows,
or with what its left end begins with. -/
theorem Expr.lookahead_cases : ∀ e : Expr, e.lookahead = [.sym '('] ∨
    (∃ next ∈ nextLooks, e.lookahead = [.name, next]) ∨
    (e.lookahead = e.opening.lookahead ∧ e.opening.isLeaf = true ∧
      ((∃ s name, e.opening = .ident s name) → e.isLeaf = true))
  | .member _ owner _ => by
    rcases lookPast_cases (.level Level.postfixed) owner (n := .sym '.') (by decide) with
      h | h | ⟨hwraps, h, hident⟩
    · exact .inl h
    · exact .inr (.inl h)
    · simp only [Expr.lookahead, Expr.opening, h, hwraps]
      exact owner.lookahead_cases.imp_right (.imp_right (past_leaf hident))
  | .call _ callee _ => by
    rcases lookPast_cases (.level Level.postfixed) callee (n := .sym '(') (by decide) with
      h | h | ⟨hwraps, h, hident⟩
    · exact .inl h
    · exact .inr (.inl h)
    · simp only [Expr.lookahead, Expr.opening, h, hwraps]
      exact callee.lookahead_cases.imp_right (.imp_right (past_leaf hident))
  | .binary _ op lhs _ => by
    rcases lookPast_cases (.level (Printer.operandLevels op).1) lhs (n := .op op)
      (by cases op <;> decide) with h | h | ⟨hwraps, h, hident⟩
    · exact .inl h
    · exact .inr (.inl h)
    · simp only [Expr.lookahead, Expr.opening, h, hwraps]
      exact lhs.lookahead_cases.imp_right (.imp_right (past_leaf hident))
  | .assign _ target _ => by
    rcases lookPast_cases (.level Level.postfixed) target (n := .eq) (by decide) with
      h | h | ⟨hwraps, h, hident⟩
    · exact .inl h
    · exact .inr (.inl h)
    · simp only [Expr.lookahead, Expr.opening, h, hwraps]
      exact target.lookahead_cases.imp_right (.imp_right (past_leaf hident))
  | .ident _ _ | .number _ _ | .str _ _ | .bool _ _ | .null _ | .this _ | .template _ _
  | .tagged _ _ _ | .array _ _ | .object _ _ | .paren _ _ | .invoke _ _ _ | .unary _ _ _
  | .await _ _ | .arrow _ _ _ _ | .arrowExpr _ _ _ _ | .function _ _ _ =>
    .inr (.inr ⟨rfl, rfl, fun _ => rfl⟩)
where
  past_leaf {left : Expr} {b : Bool} (hident : ∀ s name, left ≠ .ident s name) :
      (left.lookahead = left.opening.lookahead ∧ left.opening.isLeaf = true ∧
        ((∃ s name, left.opening = .ident s name) → left.isLeaf = true)) →
      left.lookahead = left.opening.lookahead ∧ left.opening.isLeaf = true ∧
        ((∃ s name, left.opening = .ident s name) → b = true) := by
    rintro ⟨hlook, hleaf, himp⟩
    refine ⟨hlook, hleaf, ?_⟩
    rintro ⟨s, name, heq⟩
    have hself := Expr.opening_of_isLeaf (himp ⟨s, name, heq⟩)
    exact absurd (hself.symm.trans heq) (hident s name)

theorem Expr.opening_level : ∀ e : Expr, Level.postfixed ≤ e.level → Level.postfixed ≤ e.opening.level
  | .member s owner p, h => by
    simp only [Expr.opening]
    split
    · exact h
    · rename_i hwraps
      exact owner.opening_level (by simpa [Place.wraps] using hwraps)
  | .call s callee args, h => by
    simp only [Expr.opening]
    split
    · exact h
    · rename_i hwraps
      exact callee.opening_level (by simpa [Place.wraps] using hwraps)
  | .binary _ op _ _, h => by
    have hle : op.precedence < Level.postfixed := by cases op <;> decide
    exact absurd h (Nat.not_le_of_lt hle)
  | .assign _ _ _, h => by
    have h : Level.postfixed ≤ Level.assign := h
    exact absurd h (by decide)
  | .ident _ _, h | .number _ _, h | .str _ _, h | .bool _ _, h | .null _, h | .this _, h
  | .template _ _, h | .tagged _ _ _, h | .array _ _, h | .object _ _, h | .paren _ _, h
  | .invoke _ _ _, h | .unary _ _ _, h | .await _ _, h | .arrow _ _ _ _, h
  | .arrowExpr _ _ _ _, h | .function _ _ _, h => h

def keyLooks : List Look := .name :: .str :: Grammar.Host.reserved.map .word

/-- What functions begin with; the last token is `next`. -/
def functionLooks (next : Look) : List (List Look) :=
  [none, some .function, some .template, some .derive].flatMap fun kind =>
    [true, false].map fun isAsync =>
      macroLook kind ++ (asyncLook isAsync ++ [.word "function", next])

/-- What operands begin with that are no single names, and no empty objects or named functions. -/
def plainLooks : List (List Look) :=
  [[.num], [.str], [.word "true"], [.word "false"], [.word "null"], [.word "this"], [.tmpl],
    [.name, .tmpl], [.sym '['], [.sym '('], [.name, .sym '!']] ++
  nextLooks.map (fun next => [.name, next]) ++
  keyLooks.map (fun key => [.sym '\x7b', key, .sym ':']) ++ functionLooks (.sym '(')

def prefixLooks : List (List Look) :=
  [[.sym '!'], [.sym '-'], [.word "void"], [.word "typeof"], [.word "await"],
    [.word "async", .sym '('], [.sym '(']]

theorem keyLook_mem (name : String) : keyLook name ∈ keyLooks := by
  unfold keyLook keyLooks
  split
  · split
    · rename_i hmem
      simp [hmem]
    · simp
  · simp

theorem functionLooks_mem (kind : Option MacroKind) (isAsync : Bool) (next : Look) :
    macroLook kind ++ (asyncLook isAsync ++ [.word "function", next]) ∈ functionLooks next := by
  unfold functionLooks
  refine List.mem_flatMap.mpr ⟨kind, ?_, List.mem_map.mpr ⟨isAsync, ?_, rfl⟩⟩
  · rcases kind with _ | (_ | _ | _) <;> decide
  · cases isAsync <;> decide

theorem Expr.leaf_lookahead (e : Expr) (hleaf : e.isLeaf = true) :
    (∃ s name, e = .ident s name) ∨ e.lookahead ∈ plainLooks ∨
      (∃ s, e = .object s []) ∨
      (∃ s head body, e = .function s head body ∧ head.name ≠ none ∧
        e.lookahead ∈ functionLooks .name) ∨
      (e.level < Level.postfixed ∧ e.lookahead ∈ prefixLooks) := by
  cases e with
  | ident s name => exact .inl ⟨s, name, rfl⟩
  | number | str | null | this | template | tagged | array | paren | invoke =>
    exact .inr (.inl (by simp [plainLooks, Expr.lookahead]))
  | bool s value => cases value <;> exact .inr (.inl (by simp [plainLooks, Expr.lookahead]))
  | object s ps =>
    cases ps with
    | nil => exact .inr (.inr (.inl ⟨s, rfl⟩))
    | cons p ps =>
      refine .inr (.inl ?_)
      obtain ⟨name, e⟩ := p
      have hmem := keyLook_mem name
      simp only [plainLooks, List.mem_append, List.mem_map]
      exact .inl (.inr ⟨keyLook name, hmem, rfl⟩)
  | member | call | binary | assign => simp [Expr.isLeaf] at hleaf
  | unary s op e =>
    refine .inr (.inr (.inr (.inr ⟨by simp [Expr.level]; decide, ?_⟩)))
    cases op <;> simp [prefixLooks, Expr.lookahead, unaryLook]
  | await =>
    exact .inr (.inr (.inr (.inr ⟨by simp [Expr.level]; decide, by simp [prefixLooks, Expr.lookahead]⟩)))
  | arrow s names isAsync | arrowExpr s names isAsync =>
    refine .inr (.inr (.inr (.inr ⟨by simp [Expr.level]; decide, ?_⟩)))
    cases isAsync <;> simp [prefixLooks, Expr.lookahead, asyncLook]
  | function s head body =>
    by_cases hname : head.name = none
    · refine .inr (.inl ?_)
      have hmem := functionLooks_mem head.macroKind head.isAsync (.sym '(')
      simp only [plainLooks, List.mem_append, Expr.lookahead, hname, if_true]
      exact .inr hmem
    · refine .inr (.inr (.inr (.inl ⟨s, head, body, rfl, hname, ?_⟩)))
      have hmem := functionLooks_mem head.macroKind head.isAsync .name
      simpa only [Expr.lookahead, if_neg hname] using hmem

/-- What an expression begins with tells its left end. -/
theorem Expr.lookahead_mem (e : Expr) :
    (∃ s name, e = .ident s name) ∨ e.lookahead ∈ plainLooks ∨
      (e.opensWithEmptyObject ∧ e.lookahead = [.sym '\x7b', .sym '\x7d']) ∨
      (e.opensWithNamedFunction ∧ e.lookahead ∈ functionLooks .name) ∨
      (e.level < Level.postfixed ∧ e.lookahead ∈ prefixLooks) := by
  rcases e.lookahead_cases with h | ⟨next, hnext, h⟩ | ⟨h, hleaf, hident⟩
  · exact .inr (.inl (by simp [h, plainLooks]))
  · refine .inr (.inl ?_)
    simp only [h, plainLooks, List.mem_append, List.mem_map]
    exact .inl (.inl (.inr ⟨next, hnext, rfl⟩))
  · rw [h]
    rcases e.opening.leaf_lookahead hleaf with ⟨s, name, heq⟩ | hmem | ⟨s, heq⟩ |
      ⟨s, head, body, heq, hname, hmem⟩ | ⟨hlevel, hmem⟩
    · have hself := Expr.opening_of_isLeaf (hident ⟨s, name, heq⟩)
      exact .inl ⟨s, name, hself.symm.trans heq⟩
    · exact .inr (.inl hmem)
    · exact .inr (.inr (.inl ⟨⟨s, heq⟩, by rw [heq]; rfl⟩))
    · exact .inr (.inr (.inr (.inl ⟨⟨s, head, body, heq, hname⟩, hmem⟩)))
    · refine .inr (.inr (.inr (.inr ⟨?_, hmem⟩)))
      exact Nat.lt_of_not_le fun hle => Nat.not_lt_of_le (e.opening_level hle) hlevel

end Openings

section Alternatives

open Grammar

variable {e : Expr}

/-- No operator stands in front of an operand. -/
theorem Expr.look_prefixOp (h : Level.postfixed ≤ e.level) :
    look 60 (.rule .prefixOp) e.lookahead = .fails := by
  have hplain : ∀ hs ∈ plainLooks ++ functionLooks .name ++ [[.name], [.sym '\x7b', .sym '\x7d']],
      look 60 (.rule .prefixOp) hs = .fails := by decide
  refine hplain _ ?_
  rcases e.lookahead_mem with ⟨s, name, rfl⟩ | hmem | ⟨-, hmem⟩ | ⟨-, hmem⟩ | ⟨hlevel, -⟩
  · simp [Expr.lookahead]
  · simp [hmem]
  · simp [hmem]
  · simp [hmem]
  · omega

def declarationRules : List Rule :=
  [.importStmt, .functionDecl, .classDecl, .variableStmt, .returnStmt, .ifStmt, .whileStmt,
    .forOfStmt, .deferStmt, .tryStmt, .throwStmt, .block, .emptyStmt]

/-- An expression that begins neither with an empty object nor with a named function is no other
statement. -/
theorem Expr.look_declaration (hobject : ¬ e.opensWithEmptyObject)
    (hfunction : ¬ e.opensWithNamedFunction) (r : Rule) (hr : r ∈ declarationRules) :
    look 60 (.rule r) e.lookahead = .fails := by
  have hplain : ∀ r ∈ declarationRules, ∀ hs ∈ [.name] :: (plainLooks ++ prefixLooks),
      look 60 (.rule r) hs = .fails := by decide
  refine hplain r hr _ ?_
  rcases e.lookahead_mem with ⟨s, name, rfl⟩ | hmem | ⟨habsurd, -⟩ | ⟨habsurd, -⟩ | ⟨-, hmem⟩
  · simp [Expr.lookahead]
  · simp [hmem]
  · exact absurd habsurd hobject
  · exact absurd habsurd hfunction
  · simp [hmem]

theorem Expr.look_block (hobject : ¬ e.opensWithEmptyObject) :
    look 60 (.rule .block) e.lookahead = .fails := by
  have hplain : ∀ hs ∈ [.name] :: (plainLooks ++ prefixLooks ++ functionLooks .name),
      look 60 (.rule .block) hs = .fails := by decide
  refine hplain _ ?_
  rcases e.lookahead_mem with ⟨s, name, rfl⟩ | hmem | ⟨habsurd, -⟩ | ⟨-, hmem⟩ | ⟨-, hmem⟩
  · simp [Expr.lookahead]
  · simp [hmem]
  · exact absurd habsurd hobject
  · simp [hmem]
  · simp [hmem]

/-- What fails in front of everything that an expression may begin with. -/
theorem Expr.look_of_all {q : Peg} (h : ∀ hs ∈ plainLooks ++ prefixLooks ++ functionLooks .name ++
    [[.name], [.sym '\x7b', .sym '\x7d']], look 60 q hs = .fails) (e : Expr) :
    look 60 q e.lookahead = .fails := by
  refine h _ ?_
  rcases e.lookahead_mem with ⟨s, name, rfl⟩ | hmem | ⟨-, hmem⟩ | ⟨-, hmem⟩ | ⟨-, hmem⟩
  · simp [Expr.lookahead]
  all_goals simp [hmem]

/-- An expression in parentheses is no list of parameters, unless it is a single name. -/
theorem Expr.look_arrowFn (hident : ∀ s name, e ≠ .ident s name) :
    look 60 (.rule .arrowFn) (.sym '(' :: e.lookahead) = .fails := by
  have hplain : ∀ hs ∈ plainLooks ++ prefixLooks ++ functionLooks .name ++
      [[.sym '\x7b', .sym '\x7d']], look 60 (.rule .arrowFn) (.sym '(' :: hs) = .fails := by
    decide
  refine hplain _ ?_
  rcases e.lookahead_mem with ⟨s, name, heq⟩ | hmem | ⟨-, hmem⟩ | ⟨-, hmem⟩ | ⟨-, hmem⟩
  · exact absurd heq (hident s name)
  all_goals simp [hmem]

end Alternatives

end MacroEngine
