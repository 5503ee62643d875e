import MacroEngine.Proofs.RoundTrip.TreeTokens

/-!
# Printed texts

The printed text of a regular tree consists of the tokens of the tree. Two relations say so of a
text and some tokens: `Closes`, if nothing that follows can change the last token, and `Spells`, if
something quiet has to follow.
-/

namespace MacroEngine

open Grammar (Tok Lexes signs)
open Printer (isNameChar isNameStart isPlainKey)

namespace Grammar

/-- May follow any token that ends an expression. -/
def Quiet (rest : List Char) : Prop :=
  (∀ c ∈ rest.head?, isNameChar c = false) ∧
    ∀ c more, rest = '.' :: c :: more → c.isDigit = false

section Lexing

variable {rest : List Char} {ts : List Tok} {t : Tok} {c : Char}

theorem quiet_cons (hc : isNameChar c = false) (hdot : c ≠ '.') : Quiet (c :: rest) := by
  refine ⟨by simpa using hc, ?_⟩
  intro x more heq
  exact absurd (List.cons.inj heq).1 hdot

theorem avoids_gap {x : Char} (hx : x ∈ [' ', '\t', '\r', '\n', '/']) (ht : ∀ o, t ≠ .op o) :
    t.Avoids fun c => c = x := by
  simp only [List.mem_cons, List.not_mem_nil, or_false] at hx
  rcases hx with rfl | rfl | rfl | rfl | rfl <;>
    exact Tok.avoids_delimiter (by decide) (by decide) (by decide) (fun o h => absurd h (ht o))
      (by decide) (fun h => absurd h (by decide)) (fun h => absurd h (by decide))

theorem trim_spell (valid : t.Valid) (fits : t.Fits rest) :
    Grammar.trim (t.spell ++ rest) = t.spell ++ rest := by
  cases t with
  | op o =>
    cases rest with
    | nil => exact absurd fits (by simp [Tok.Fits])
    | cons c more =>
      obtain rfl := Option.some.inj fits
      cases o <;> simp [BinaryOp.token, Grammar.trim, Grammar.skipGap]
  | _ =>
    obtain ⟨c, cs, hspell⟩ := List.exists_cons_of_ne_nil (Tok.spell_ne_nil valid)
    have hne : ∀ x ∈ [' ', '\t', '\r', '\n', '/'], c ≠ x := by
      intro x hx
      have h := avoids_gap hx (by simp) valid c (by simp [hspell])
      simpa using h
    rw [hspell]
    refine Grammar.trim_of_not_blank ?_ (hne '/' (by decide)) (cs ++ rest)
    simp [hne ' ' (by decide), hne '\t' (by decide), hne '\r' (by decide), hne '\n' (by decide)]

theorem Lexes.tok (valid : t.Valid) (fits : t.Fits rest) (more : Lexes rest ts) :
    Lexes (t.spell ++ rest) (t :: ts) := .cons (trim_spell valid fits) valid fits more

theorem Lexes.sym (hc : c ∈ signs) (hbang : c ≠ '!') (more : Lexes rest ts) :
    Lexes (c :: rest) (.sym c :: ts) := Lexes.tok (t := .sym c) hc (fun h => absurd h hbang) more

theorem Lexes.blank (more : Lexes rest ts) : Lexes (' ' :: rest) ts := by
  refine Grammar.Lexes.of_trim ?_
  rw [Grammar.trim_blank (by decide)]
  exact Grammar.Lexes.trim more

theorem Lexes.newline (more : Lexes rest ts) : Lexes ('\n' :: rest) ts := by
  refine Grammar.Lexes.of_trim ?_
  rw [Grammar.trim_blank (by decide)]
  exact Grammar.Lexes.trim more

theorem Lexes.margin (depth : Nat) (more : Lexes rest ts) :
    Lexes ((Printer.margin depth).toList ++ rest) ts := by
  have h : ∀ n, Lexes (List.replicate n ' ' ++ rest) ts := by
    intro n
    induction n with
    | zero => exact more
    | succ n ih => exact Lexes.blank ih
  simpa [Printer.margin] using h (4 * depth)

theorem Lexes.word {w : String} (hw : isPlainKey w = true) (more : Lexes rest ts) :
    Lexes (w.toList ++ ' ' :: rest) (.word w :: ts) :=
  Lexes.tok (t := .word w) hw (by simp [Tok.Fits]; decide) (Lexes.blank more)

theorem Lexes.op (o : BinaryOp) (more : Lexes rest ts) :
    Lexes (o.token.toList ++ ' ' :: rest) (.op o :: ts) :=
  Lexes.tok (t := .op o) trivial rfl (Lexes.blank more)

theorem Lexes.eq (more : Lexes rest ts) : Lexes ('=' :: ' ' :: rest) (.eq :: ts) :=
  Lexes.tok (t := .eq) trivial rfl (Lexes.blank more)

theorem Lexes.arrow (more : Lexes rest ts) : Lexes ('=' :: '>' :: ' ' :: rest) (.arrow :: ts) :=
  Lexes.tok (t := .arrow) trivial rfl (Lexes.blank more)

/-- The text consists of these tokens if it is followed by something quiet. -/
def Spells (cs : List Char) (ts : List Tok) : Prop :=
  ∀ rest more, Quiet rest → Lexes rest more → Lexes (cs ++ rest) (ts ++ more)

/-- The text consists of these tokens whatever follows it. -/
def Closes (cs : List Char) (ts : List Tok) : Prop :=
  ∀ rest more, Lexes rest more → Lexes (cs ++ rest) (ts ++ more)

end Lexing

section Spells

variable {cs : List Char} {ts : List Tok} {w : String}

theorem Closes.spells (h : Closes cs ts) : Spells cs ts := fun rest more _ hmore => h rest more hmore

theorem spells_nil : Spells [] [] := fun _ _ _ hmore => hmore

theorem spells_word (hw : isPlainKey w = true) : Spells w.toList [.word w] :=
  fun _ _ hquiet hmore => Lexes.tok (t := .word w) hw hquiet.1 hmore

theorem spells_num {digits : String} (h : Grammar.IsNumber digits.toList) :
    Spells digits.toList [.num digits] := by
  intro rest more hquiet hmore
  refine Lexes.tok (t := .num digits) h ⟨?_, fun _ => hquiet.2⟩ hmore
  intro c hc
  have hname := hquiet.1 c hc
  cases hdigit : c.isDigit with
  | false => rfl
  | true => simp [isNameChar, Char.isAlphanum, hdigit] at hname

theorem closes_str (value : String) : Closes (Text.quote value).toList [.str value] :=
  fun _ _ hmore => Lexes.tok (t := .str value) trivial trivial hmore

theorem closes_tmpl {raw : String} (h : '`' ∉ raw.toList) :
    Closes ("`" ++ raw ++ "`").toList [.tmpl raw] := by
  intro rest more hmore
  have hlex := Lexes.tok (t := .tmpl raw) h trivial hmore
  simpa using hlex

theorem Spells.parens {text : String} (h : Spells text.toList ts) :
    Closes (Printer.parens text).toList (.sym '(' :: (ts ++ [.sym ')'])) := by
  intro rest more hmore
  have hclose : Lexes (')' :: rest) (.sym ')' :: more) := .sym (by decide) (by decide) hmore
  have hinner := h (')' :: rest) _ (quiet_cons (by decide) (by decide)) hclose
  have hopen := Lexes.sym (c := '(') (by decide) (by decide) hinner
  simpa [Printer.parens] using hopen

theorem Spells.wrap {text : String} (h : Spells text.toList ts) (place : Place) (e : Expr) :
    Spells (if place.wraps e then Printer.parens text else text).toList (place.toks e ts) := by
  unfold Place.toks
  cases place.wraps e with
  | true => exact h.parens.spells
  | false => exact h

theorem Spells.place {text : String} (h : Spells text.toList ts) (least : Nat) (e : Expr) :
    Spells (Printer.place least e text).toList (Place.toks (.level least) e ts) := by
  have hwrap := h.wrap (.level least) e
  unfold Printer.place
  simpa [Place.wraps] using hwrap

theorem Closes.append {cs' : List Char} {ts' : List Tok} (h : Closes cs ts) (h' : Closes cs' ts') :
    Closes (cs ++ cs') (ts ++ ts') := by
  intro rest more hmore
  rw [List.append_assoc, List.append_assoc]
  exact h _ _ (h' rest more hmore)

theorem Closes.append_spells {cs' : List Char} {ts' : List Tok} (h : Closes cs ts)
    (h' : Spells cs' ts') : Spells (cs ++ cs') (ts ++ ts') := by
  intro rest more hquiet hmore
  rw [List.append_assoc, List.append_assoc]
  exact h _ _ (h' rest more hquiet hmore)

theorem Spells.append {cs' : List Char} {ts' : List Tok} (h : Spells cs ts) (h' : Closes cs' ts')
    (hquiet : ∀ rest, Quiet (cs' ++ rest)) : Closes (cs ++ cs') (ts ++ ts') := by
  intro rest more hmore
  rw [List.append_assoc, List.append_assoc]
  exact h _ _ (hquiet rest) (h' rest more hmore)

theorem Spells.append_spells {cs' : List Char} {ts' : List Tok} (h : Spells cs ts)
    (h' : Spells cs' ts') (hquiet : ∀ rest, Quiet (cs' ++ rest)) :
    Spells (cs ++ cs') (ts ++ ts') := by
  intro rest more hrest hmore
  rw [List.append_assoc, List.append_assoc]
  exact h _ _ (hquiet rest) (h' rest more hrest hmore)

theorem closes_nil : Closes [] [] := fun _ _ hmore => hmore

theorem closes_blank : Closes [' '] [] := fun _ _ hmore => hmore.blank

theorem closes_sym {c : Char} (hc : c ∈ signs) (hbang : c ≠ '!') : Closes [c] [.sym c] :=
  fun _ _ hmore => .sym hc hbang hmore

theorem closes_word {w : String} (hw : isPlainKey w = true) : Closes (w.toList ++ [' ']) [.word w] := by
  intro rest more hmore
  rw [List.append_assoc]
  exact hmore.word hw

theorem closes_op (o : BinaryOp) : Closes (' ' :: (o.token.toList ++ [' '])) [.op o] := by
  intro rest more hmore
  have h := (hmore.op o).blank
  simpa using h

theorem closes_eq : Closes [' ', '=', ' '] [.eq] := fun _ _ hmore => hmore.eq.blank

theorem closes_arrow : Closes [' ', '=', '>', ' '] [.arrow] := fun _ _ hmore => hmore.arrow.blank

theorem quiet_blank (rest : List Char) : Quiet (' ' :: rest) := quiet_cons (by decide) (by decide)

theorem Spells.sym {c : Char} (h : Spells cs ts) (hc : c ∈ signs) (hbang : c ≠ '!')
    (hdot : c ≠ '.') : Closes (cs ++ [c]) (ts ++ [.sym c]) :=
  h.append (closes_sym hc hbang) fun _ => quiet_cons (isNameChar_of_mem_signs hc) hdot

inductive SpellsAll : List String → List (List Tok) → Prop where
  | nil : SpellsAll [] []
  | cons {text texts piece pieces} (first : Spells text.toList piece)
      (more : SpellsAll texts pieces) : SpellsAll (text :: texts) (piece :: pieces)

theorem SpellsAll.commas {texts : List String} {pieces : List (List Tok)}
    (h : SpellsAll texts pieces) : Spells (", ".intercalate texts).toList (commas pieces) := by
  induction h with
  | nil => exact spells_nil
  | @cons text texts piece pieces first more ih =>
    cases more with
    | nil => simpa [MacroEngine.commas] using first
    | @cons text' texts piece' pieces first' more =>
      have hcomma : Closes [',', ' '] [.sym ','] :=
        (closes_sym (c := ',') (by decide) (by decide)).append closes_blank
      have h := (first.append hcomma fun rest =>
        quiet_cons (by decide) (by decide)).append_spells ih
      simpa [MacroEngine.commas, String.intercalate_cons_cons] using h

theorem spells_names {names : List String} (h : ∀ name ∈ names, isPlainKey name = true) :
    Spells (", ".intercalate names).toList (nameToks names) := by
  refine SpellsAll.commas ?_
  induction names with
  | nil => exact .nil
  | cons name names ih =>
    refine .cons (spells_word (h name List.mem_cons_self)) (ih fun n hn => h n ?_)
    exact List.mem_cons_of_mem _ hn

theorem closes_params {names : List String} (h : ∀ name ∈ names, isPlainKey name = true) :
    Closes (Printer.params names).toList (paramToks names) := (spells_names h).parens

theorem closes_visibility (v : Visibility) :
    Closes (Printer.visibility v).toList (visibilityToks v) := by
  cases v with
  | internal => exact closes_nil
  | named => exact closes_word (w := "export") (by decide)
  | default =>
    intro rest more hmore
    have h := Lexes.tok (t := .exportDefault) trivial (by simp [Tok.Fits]; decide) hmore.blank
    exact h

theorem closes_macroToks (kind : Option MacroKind) :
    Closes (Printer.macroWords kind).toList (macroToks kind) := by
  have hmacro := closes_word (w := "macro") (by decide)
  rcases kind with _ | (_ | _ | _)
  · exact closes_nil
  · exact hmacro
  · exact hmacro.append (closes_word (w := "template") (by decide))
  · exact hmacro.append (closes_word (w := "derive") (by decide))

theorem closes_async (isAsync : Bool) :
    Closes (Printer.asyncWord isAsync).toList (asyncToks isAsync) := by
  cases isAsync with
  | false => exact closes_nil
  | true => exact closes_word (w := "async") (by decide)

theorem isPlainKey_of_whole {name : String} (h : Whole .identifier name) : isPlainKey name = true :=
  (whole_identifier_iff.mp h).1

theorem quiet_params (names : List String) (rest : List Char) :
    Quiet ((Printer.params names).toList ++ rest) := by
  simpa [Printer.params, Printer.parens] using quiet_cons (c := '(') (by decide) (by decide)

theorem closes_functionHead {head : FunctionHead} (h : head.Regular) :
    Closes (Printer.functionHead head).toList (functionToks head) := by
  have hparams := (closes_params fun name hn => isPlainKey_of_whole (h.2 name hn)).append closes_blank
  have hfunction : isPlainKey "function" = true := by decide
  have hwords := ((closes_visibility head.visibility).append (closes_macroToks head.macroKind)).append
    (closes_async head.isAsync)
  unfold Printer.functionHead functionToks
  cases hname : head.name with
  | none =>
    have hrest := (spells_word hfunction).append hparams fun rest => by
      rw [List.append_assoc]
      exact quiet_params _ _
    have h := hwords.append hrest
    simpa [List.append_assoc] using h
  | some name =>
    have hplain := isPlainKey_of_whole (h.1 name (by simp [hname]))
    have hrest := (closes_word hfunction).append ((spells_word hplain).append hparams fun rest => by
      rw [List.append_assoc]
      exact quiet_params _ _)
    have h := hwords.append hrest
    simpa [List.append_assoc] using h

theorem closes_methodHead {head : MethodHead} (hname : isPlainKey head.name = true)
    (h : ∀ name ∈ head.params, Whole .identifier name) :
    Closes (Printer.methodHead head).toList (methodToks head) := by
  have hparams := (closes_params fun name hn => isPlainKey_of_whole (h name hn)).append closes_blank
  have hrest := (spells_word hname).append hparams fun rest => by
    rw [List.append_assoc]
    exact quiet_params _ _
  have h := (closes_async head.isAsync).append hrest
  simpa [Printer.methodHead, methodToks, List.append_assoc] using h

theorem spells_classHead {head : ClassHead} (hname : Whole .identifier head.name)
    (h : ∀ name ∈ head.derives, Whole .identifier name) :
    Spells (Printer.classHead head).toList (classToks head) := by
  have hwords := (closes_visibility head.visibility).append (closes_word (w := "class") (by decide))
  have hplain := spells_word (isPlainKey_of_whole hname)
  unfold Printer.classHead classToks deriveToks
  cases hempty : head.derives.isEmpty with
  | true =>
    have h := hwords.append_spells hplain
    simpa [List.append_assoc] using h
  | false =>
    have hderives := (closes_word (w := "derives") (by decide)).append_spells
      (spells_names fun name hn => isPlainKey_of_whole (h name hn))
    have h := hwords.append_spells ((hplain.append closes_blank quiet_blank).append_spells hderives)
    simpa [List.append_assoc] using h

theorem quiet_dot {w : String} (hw : isPlainKey w = true) (rest : List Char) :
    Quiet (['.'] ++ w.toList ++ rest) := by
  obtain ⟨c, cs, heq, hc, -⟩ := isPlainKey_iff.mp hw
  refine ⟨by simp; decide, ?_⟩
  intro x more h
  rw [heq] at h
  obtain rfl : c = x := (List.cons.inj (List.cons.inj h).2).1
  cases hdigit : c.isDigit with
  | false => rfl
  | true => simp [not_isNameStart_of_isDigit hdigit] at hc

theorem closes_bang {ts : List Tok} {text : String} (h : Spells text.toList ts) :
    Closes ('!' :: (Printer.parens text).toList) (.sym '!' :: .sym '(' :: (ts ++ [.sym ')'])) := by
  intro rest more hmore
  refine Lexes.tok (t := .sym '!') (by simp [Tok.Valid, signs]) (fun _ => ?_) (h.parens rest more hmore)
  simp [Printer.parens]

theorem spells_key (name : String) : Spells (Printer.key name).toList [keyTok name] := by
  unfold Printer.key keyTok
  cases hplain : isPlainKey name with
  | true => simpa using spells_word hplain
  | false => simpa using (closes_str name).spells

def Tok.startsOperand : Tok → Bool
  | .op _ | .eq | .arrow => false
  | _ => true

theorem head_ne_eq {cs : List Char} {t : Tok} {ts : List Tok} (h : Lexes cs (t :: ts))
    (ht : t.startsOperand = true) : cs.head? ≠ some '=' := by
  intro heq
  obtain ⟨more, rfl⟩ : ∃ more, cs = '=' :: more := by
    cases cs with
    | nil => simp at heq
    | cons c more => exact ⟨more, by rw [Option.some.inj heq]⟩
  cases h with
  | @cons _ _ rest _ htrim valid _ _ =>
    rw [trim_of_not_blank (by decide) (by decide)] at htrim
    have hhead : '=' ∈ t.spell.head? := by
      obtain ⟨c, cs, hspell⟩ := List.exists_cons_of_ne_nil (Tok.spell_ne_nil valid)
      rw [hspell] at htrim ⊢
      exact congrArg some (List.cons.inj htrim).1.symm
    cases t with
    | word w => exact absurd (Tok.run_head (v := w) rfl valid _ hhead) (by decide)
    | exportDefault => exact absurd (Tok.run_head (v := "export") rfl valid _ hhead) (by decide)
    | num digits => exact absurd (Tok.num_head valid _ hhead) (by decide)
    | sym c =>
      obtain rfl : c = '=' := by simpa using hhead
      exact absurd valid (by simp [Tok.Valid, signs])
    | str | tmpl => simp at hhead
    | op | eq | arrow => simp [Tok.startsOperand] at ht

def BeginsOperand (ts : List Tok) : Prop := ∃ t more, ts = t :: more ∧ t.startsOperand = true

theorem BeginsOperand.append (h : BeginsOperand ts) (ts' : List Tok) : BeginsOperand (ts ++ ts') := by
  obtain ⟨t, more, rfl, ht⟩ := h
  exact ⟨t, more ++ ts', rfl, ht⟩

theorem BeginsOperand.place (h : BeginsOperand ts) (place : Place) (e : Expr) :
    BeginsOperand (place.toks e ts) := by
  unfold Place.toks
  split
  · exact ⟨_, _, rfl, rfl⟩
  · exact h

theorem beginsOperand_async (isAsync : Bool) (h : BeginsOperand ts) :
    BeginsOperand (asyncToks isAsync ++ ts) := by
  cases isAsync with
  | false => exact h
  | true => exact ⟨_, _, rfl, rfl⟩

theorem beginsOperand_function (head : FunctionHead) : BeginsOperand (functionToks head) := by
  unfold functionToks
  cases head.visibility with
  | named | default => exact ⟨_, _, rfl, rfl⟩
  | internal =>
    rcases head.macroKind with _ | (_ | _ | _)
    · exact beginsOperand_async _ ⟨_, _, rfl, rfl⟩
    all_goals exact ⟨_, _, rfl, rfl⟩

theorem beginsOperand_toks : ∀ e : Expr, BeginsOperand e.toks
  | .ident _ _ | .number _ _ | .str _ _ | .bool _ _ | .null _ | .this _ | .template _ _
  | .tagged _ _ _ | .array _ _ | .object _ _ | .paren _ _ | .invoke _ _ _ | .await _ _ =>
    ⟨_, _, rfl, rfl⟩
  | .unary _ op _ => ⟨_, _, rfl, by cases op <;> rfl⟩
  | .member _ owner _ => ((beginsOperand_toks owner).place _ owner).append _
  | .call _ callee _ => ((beginsOperand_toks callee).place _ callee).append _
  | .binary _ _ lhs _ => ((beginsOperand_toks lhs).place _ lhs).append _
  | .assign _ target _ => ((beginsOperand_toks target).place _ target).append _
  | .arrow _ _ isAsync _ | .arrowExpr _ _ isAsync _ => beginsOperand_async isAsync ⟨_, _, rfl, rfl⟩
  | .function _ head _ => (beginsOperand_function head).append _

theorem spells_unary (op : UnaryOp) (h : Spells cs ts) (hts : BeginsOperand ts) :
    Spells ((Printer.unaryWord op).toList ++ cs) (unaryTok op :: ts) := by
  obtain ⟨t, ts, rfl, ht⟩ := hts
  cases op with
  | not =>
    intro rest more hquiet hmore
    have hrest := h rest more hquiet hmore
    exact Lexes.tok (t := .sym '!') (by simp [Tok.Valid, signs]) (fun _ => head_ne_eq hrest ht) hrest
  | neg => exact (closes_sym (c := '-') (by decide) (by decide)).append_spells h
  | void => exact (closes_word (w := "void") (by decide)).append_spells h
  | typeOf => exact (closes_word (w := "typeof") (by decide)).append_spells h

end Spells

end Grammar

section Trees

open Grammar

theorem closes_margin (depth : Nat) : Closes (Printer.margin depth).toList [] :=
  fun _ _ hmore => hmore.margin depth

theorem closes_newline : Closes ['\n'] [] := fun _ _ hmore => hmore.newline

theorem closes_kind (kind : VarKind) : Closes (kind.label.toList ++ [' ']) [.word kind.label] := by
  cases kind <;> exact closes_word (by decide)

theorem closes_braces {ts : List Tok} (depth : Nat) (lines : String) (h : Closes lines.toList ts)
    (hts : lines.toList = [] → ts = []) :
    Closes (Printer.braces depth lines).toList (.sym '\x7b' :: (ts ++ [.sym '\x7d'])) := by
  have hopen : Closes ['\x7b'] [.sym '\x7b'] := closes_sym (by decide) (by decide)
  have hclose : Closes ['\x7d'] [.sym '\x7d'] := closes_sym (by decide) (by decide)
  unfold Printer.braces
  cases hempty : lines.isEmpty with
  | true =>
    have hnil : lines.toList = [] := by simpa using hempty
    have hall := hopen.append hclose
    simpa [hts hnil] using hall
  | false =>
    have hall := hopen.append
      (closes_newline.append (h.append ((closes_margin depth).append hclose)))
    simpa [List.append_assoc] using hall

theorem Stmt.toksAll_eq_nil (depth : Nat) (ss : List Stmt)
    (h : (Stmt.linesAt depth ss).toList = []) : Stmt.toksAll ss = [] := by
  cases ss with
  | nil => rfl
  | cons s ss => simp [Stmt.linesAt] at h

theorem Member.toksAll_eq_nil (depth : Nat) (ms : List Member)
    (h : (Member.linesAt depth ms).toList = []) : Member.toksAll ms = [] := by
  cases ms with
  | nil => rfl
  | cons m ms =>
    cases m with
    | field s name init => cases init <;> simp [Member.linesAt] at h
    | method => simp [Member.linesAt] at h

mutual

theorem Expr.spells (depth : Nat) : ∀ e : Expr, (∀ i ∈ e.items true, i.Regular) →
    Spells (e.textAt depth).toList e.toks
  | .ident _ name, h => by
    have hname : Whole .identifier name := h _ List.mem_cons_self
    exact spells_word (isPlainKey_of_whole hname)
  | .number _ digits, h => by
    have hnumber : Whole .number digits := h _ List.mem_cons_self
    exact spells_num (whole_number_iff.mp hnumber)
  | .str _ value, _ => (closes_str value).spells
  | .bool _ true, _ => spells_word (w := "true") (by decide)
  | .bool _ false, _ => spells_word (w := "false") (by decide)
  | .null _, _ => spells_word (w := "null") (by decide)
  | .this _, _ => spells_word (w := "this") (by decide)
  | .template _ raw, h => by
    have hraw : '`' ∉ raw.toList := h _ List.mem_cons_self
    exact (closes_tmpl hraw).spells
  | .tagged _ tag raw, h => by
    have htag : Whole .identifier tag ∧ '`' ∉ raw.toList := h _ List.mem_cons_self
    have htext := (spells_word (isPlainKey_of_whole htag.1)).append (closes_tmpl htag.2)
      fun rest => by simpa using quiet_cons (c := '`') (by decide) (by decide)
    simpa [Expr.textAt, Expr.toks] using htext.spells
  | .array _ items, h => by
    simp only [Expr.items, List.forall_mem_cons] at h
    have hitems := (Expr.spellsAll depth items h.2).commas.sym (c := ']') (by decide) (by decide)
      (by decide)
    have htext := (closes_sym (c := '[') (by decide) (by decide)).append hitems
    simpa [Expr.textAt, Expr.toks] using htext.spells
  | .object _ [], _ => by
    have hopen : Closes ['\x7b'] [.sym '\x7b'] := closes_sym (by decide) (by decide)
    have htext := hopen.append (closes_sym (c := '\x7d') (by decide) (by decide))
    simpa [Expr.textAt, Expr.toks, Expr.propertyToks, commas] using htext.spells
  | .object _ (p :: ps), h => by
    simp only [Expr.items, List.forall_mem_cons] at h
    have hopen : Closes ['\x7b'] [.sym '\x7b'] := closes_sym (by decide) (by decide)
    have hproperties := (Expr.spellsProperties depth (p :: ps) h.2).commas
    have hclose : Closes ['\x7d'] [.sym '\x7d'] := closes_sym (by decide) (by decide)
    have htext := (hopen.append closes_blank).append
      (hproperties.append (closes_blank.append hclose) fun rest => quiet_blank _)
    simpa [Expr.textAt, Expr.toks] using htext.spells
  | .paren _ e, h => by
    simp only [Expr.items, List.forall_mem_cons] at h
    exact (e.spells depth h.2).parens.spells
  | .member _ owner property, h => by
    simp only [Expr.items, List.forall_mem_cons] at h
    have hproperty := whole_propertyName_iff.mp h.1
    have hdot := (closes_sym (c := '.') (by decide) (by decide)).append_spells
      (spells_word hproperty)
    have howner := (owner.spells depth h.2).place Level.postfixed owner
    have htext := howner.append_spells hdot (quiet_dot hproperty)
    simpa [Expr.textAt, Expr.toks] using htext
  | .call _ callee args, h => by
    simp only [Expr.items, List.forall_mem_cons, List.forall_mem_append] at h
    have hcallee := (callee.spells depth h.2.1).place Level.postfixed callee
    have hargs := (Expr.spellsAll depth args h.2.2).commas.parens
    have htext := hcallee.append hargs fun rest => by
      simpa [Printer.parens] using quiet_cons (c := '(') (by decide) (by decide)
    simpa [Expr.textAt, Expr.toks] using htext.spells
  | .invoke _ name args, h => by
    simp only [Expr.items, List.forall_mem_cons] at h
    have hargs := closes_bang (Expr.spellsAll depth args h.2).commas
    have htext := (spells_word (isPlainKey_of_whole h.1)).append hargs fun rest =>
      quiet_cons (by decide) (by decide)
    simpa [Expr.textAt, Expr.toks] using htext.spells
  | .unary _ op operand, h => by
    simp only [Expr.items, List.forall_mem_cons] at h
    have hoperand := (operand.spells depth h.2).place Level.unary operand
    have htext := spells_unary op hoperand ((beginsOperand_toks operand).place _ operand)
    simpa [Expr.textAt, Expr.toks] using htext
  | .binary _ op lhs rhs, h => by
    simp only [Expr.items, List.forall_mem_cons, List.forall_mem_append] at h
    have hlhs := (lhs.spells depth h.2.1).place (Printer.operandLevels op).1 lhs
    have hrhs := (rhs.spells depth h.2.2).place (Printer.operandLevels op).2 rhs
    have htext := (hlhs.append (closes_op op) fun rest => quiet_blank _).append_spells hrhs
    simpa [Expr.textAt, Expr.toks] using htext
  | .assign _ target value, h => by
    simp only [Expr.items, List.forall_mem_cons, List.forall_mem_append] at h
    have htarget := (target.spells depth h.2.1).place Level.postfixed target
    have htext := (htarget.append closes_eq fun rest => quiet_blank _).append_spells
      (value.spells depth h.2.2)
    simpa [Expr.textAt, Expr.toks] using htext
  | .await _ operand, h => by
    simp only [Expr.items, List.forall_mem_cons] at h
    have hoperand := (operand.spells depth h.2).place Level.unary operand
    have htext := (closes_word (w := "await") (by decide)).append_spells hoperand
    simpa [Expr.textAt, Expr.toks] using htext
  | .arrow _ names isAsync body, h => by
    simp only [Expr.items, bodyItems_true, List.forall_mem_cons] at h
    have hnames := closes_params fun name hn => isPlainKey_of_whole (h.1 name hn)
    have htext := (closes_async isAsync).append
      (hnames.append (closes_arrow.append (body.closes depth h.2)))
    simpa [Expr.textAt, Expr.toks] using htext.spells
  | .arrowExpr _ names isAsync body, h => by
    simp only [Expr.items, if_true, List.forall_mem_cons] at h
    have hnames := closes_params fun name hn => isPlainKey_of_whole (h.1 name hn)
    have hbody : Spells (if Printer.isObject body then Printer.parens (body.textAt depth)
        else body.textAt depth).toList (Place.toks .arrowBody body body.toks) :=
      (body.spells depth h.2).wrap .arrowBody body
    have htext := (closes_async isAsync).append_spells
      (hnames.append_spells (closes_arrow.append_spells hbody))
    simpa [Expr.textAt, Expr.toks] using htext
  | .function _ head body, h => by
    simp only [Expr.items, bodyItems_true, List.forall_mem_cons] at h
    have hhead := closes_functionHead h.1.1
    have htext := hhead.append (body.closes depth h.2)
    simpa [Expr.textAt, Expr.toks] using htext.spells

theorem Expr.spellsAll (depth : Nat) : ∀ es : List Expr, (∀ i ∈ Expr.itemsAll true es, i.Regular) →
    SpellsAll (Expr.textsAt depth es) (Expr.toksAll es)
  | [], _ => .nil
  | e :: es, h => by
    simp only [Expr.itemsAll, List.forall_mem_append] at h
    exact .cons (e.spells depth h.1) (Expr.spellsAll depth es h.2)

theorem Expr.spellsProperties (depth : Nat) : ∀ ps : List (String × Expr),
    (∀ i ∈ Expr.itemsProperties true ps, i.Regular) →
    SpellsAll (Expr.propertiesAt depth ps) (Expr.propertyToks ps)
  | [], _ => .nil
  | (name, e) :: ps, h => by
    simp only [Expr.itemsProperties, List.forall_mem_append] at h
    have hcolon := ((spells_key name).sym (c := ':') (by decide) (by decide) (by decide)).append
      closes_blank
    refine .cons ?_ (Expr.spellsProperties depth ps h.2)
    have htext := hcolon.append_spells (e.spells depth h.1)
    simpa using htext

theorem Stmt.closes (depth : Nat) : ∀ s : Stmt, (∀ i ∈ s.items true, i.Regular) →
    Closes (s.textAt depth).toList s.toks
  | .importNames _ names specifier, h => by
    have hnames : ∀ name ∈ names, Whole .identifier name := h _ List.mem_cons_self
    have hopen : Closes ['\x7b'] [.sym '\x7b'] := closes_sym (by decide) (by decide)
    have hclose : Closes ['\x7d'] [.sym '\x7d'] := closes_sym (by decide) (by decide)
    have hlist := (spells_names fun name hn => isPlainKey_of_whole (hnames name hn)).append
      ((closes_blank.append hclose).append closes_blank) fun rest => quiet_blank _
    have hend := (closes_word (w := "from") (by decide)).append
      ((closes_str specifier).append (closes_sym (c := ';') (by decide) (by decide)))
    have htext := ((closes_word (w := "import") (by decide)).append
      ((hopen.append closes_blank).append hlist)).append hend
    simpa [Stmt.textAt, Stmt.toks] using htext
  | .function _ head body, h => by
    simp only [Stmt.items, bodyItems_true, List.forall_mem_cons] at h
    have htext := (closes_functionHead h.1.1).append (body.closes depth h.2)
    simpa [Stmt.textAt, Stmt.toks] using htext
  | .classDecl _ head members, h => by
    simp only [Stmt.items, List.forall_mem_cons] at h
    have hmembers := closes_braces depth (Member.linesAt (depth + 1) members)
      (Member.closesAll (depth + 1) members h.1.2.2 h.2) (Member.toksAll_eq_nil (depth + 1) members)
    have hhead := (spells_classHead h.1.1 h.1.2.1).append closes_blank quiet_blank
    have htext := hhead.append hmembers
    simpa [Stmt.textAt, Stmt.toks] using htext
  | .binding _ kind name none visibility, h => by
    have hname := isPlainKey_of_whole (h _ List.mem_cons_self)
    have htext := ((closes_visibility visibility).append (closes_kind kind)).append
      ((spells_word hname).sym (c := ';') (by decide) (by decide) (by decide))
    simpa [Stmt.textAt, Stmt.toks] using htext
  | .binding _ kind name (some e) visibility, h => by
    simp only [Stmt.items, List.forall_mem_cons] at h
    have hname := isPlainKey_of_whole h.1
    have hvalue := (e.spells depth h.2).sym (c := ';') (by decide) (by decide) (by decide)
    have htext := ((closes_visibility visibility).append (closes_kind kind)).append
      (((spells_word hname).append closes_eq fun rest => quiet_blank _).append hvalue)
    simpa [Stmt.textAt, Stmt.toks] using htext
  | .expr _ e, h => by
    simp only [Stmt.items, List.forall_mem_cons] at h
    have hvalue : Spells (if Printer.needsParens e then Printer.parens (e.textAt depth)
        else e.textAt depth).toList (Place.toks .statement e e.toks) :=
      (e.spells depth h.2).wrap .statement e
    have htext := hvalue.sym (c := ';') (by decide) (by decide) (by decide)
    simpa [Stmt.textAt, Stmt.toks] using htext
  | .ret _ none, _ => by
    have htext := (spells_word (w := "return") (by decide)).sym (c := ';') (by decide) (by decide)
      (by decide)
    simpa [Stmt.textAt, Stmt.toks] using htext
  | .ret _ (some e), h => by
    simp only [Stmt.items, List.forall_mem_cons] at h
    have hvalue := (e.spells depth h.2).sym (c := ';') (by decide) (by decide) (by decide)
    have htext := (closes_word (w := "return") (by decide)).append hvalue
    simpa [Stmt.textAt, Stmt.toks] using htext
  | .ifElse _ c t none, h => by
    simp only [Stmt.items, List.forall_mem_cons, List.forall_mem_append] at h
    have hcondition := (c.spells depth h.2.1).parens.append closes_blank
    have htext := (closes_word (w := "if") (by decide)).append
      (hcondition.append (t.closes depth h.2.2))
    simpa [Stmt.textAt, Stmt.toks] using htext
  | .ifElse _ c t (some e), h => by
    simp only [Stmt.items, List.forall_mem_cons, List.forall_mem_append] at h
    have hcondition := (c.spells depth h.2.1).parens.append closes_blank
    have helse := closes_blank.append ((closes_word (w := "else") (by decide)).append
      (e.closes depth h.2.2.2))
    have htext := (closes_word (w := "if") (by decide)).append
      (hcondition.append ((t.closes depth h.2.2.1).append helse))
    simpa [Stmt.textAt, Stmt.toks] using htext
  | .whileLoop _ c body, h => by
    simp only [Stmt.items, List.forall_mem_cons, List.forall_mem_append] at h
    have hcondition := (c.spells depth h.2.1).parens.append closes_blank
    have htext := (closes_word (w := "while") (by decide)).append
      (hcondition.append (body.closes depth h.2.2))
    simpa [Stmt.textAt, Stmt.toks] using htext
  | .forOf _ kind name iterable body, h => by
    simp only [Stmt.items, List.forall_mem_cons, List.forall_mem_append] at h
    have hname := (closes_kind kind).append (closes_word (isPlainKey_of_whole h.1))
    have hiterable := (hname.append (closes_word (w := "of") (by decide))).append_spells
      (iterable.spells depth h.2.1)
    have htext := (closes_word (w := "for") (by decide)).append
      (((closes_sym (c := '(') (by decide) (by decide)).append (hiterable.sym (c := ')') (by decide)
        (by decide) (by decide))).append (closes_blank.append (body.closes depth h.2.2)))
    simpa [Stmt.textAt, Stmt.toks, Printer.parens] using htext
  | .block _ body, h => by
    simp only [Stmt.items, List.forall_mem_cons] at h
    exact body.closes depth h.2
  | .defer _ body, h => by
    simp only [Stmt.items, List.forall_mem_cons] at h
    have htext := (closes_word (w := "defer") (by decide)).append (body.closes depth h.2)
    simpa [Stmt.textAt, Stmt.toks] using htext
  | .tryFinally _ body finalizer, h => by
    simp only [Stmt.items, List.forall_mem_cons, List.forall_mem_append] at h
    have hfinally := closes_blank.append ((closes_word (w := "finally") (by decide)).append
      (finalizer.closes depth h.2.2))
    have htext := (closes_word (w := "try") (by decide)).append
      ((body.closes depth h.2.1).append hfinally)
    simpa [Stmt.textAt, Stmt.toks] using htext
  | .throwExpr _ e, h => by
    simp only [Stmt.items, List.forall_mem_cons] at h
    have hvalue := (e.spells depth h.2).sym (c := ';') (by decide) (by decide) (by decide)
    have htext := (closes_word (w := "throw") (by decide)).append hvalue
    simpa [Stmt.textAt, Stmt.toks] using htext
  | .empty _, _ => by
    have htext : Closes [';'] [.sym ';'] := closes_sym (by decide) (by decide)
    simpa [Stmt.textAt, Stmt.toks] using htext

theorem Stmt.closesAll (depth : Nat) : ∀ ss : List Stmt, (∀ i ∈ Stmt.itemsAll true ss, i.Regular) →
    Closes (Stmt.linesAt depth ss).toList (Stmt.toksAll ss)
  | [], _ => closes_nil
  | s :: ss, h => by
    simp only [Stmt.itemsAll, List.forall_mem_append] at h
    have htext := (closes_margin depth).append ((s.closes depth h.1).append
      (closes_newline.append (Stmt.closesAll depth ss h.2)))
    simpa [Stmt.linesAt, Stmt.toksAll] using htext

theorem Member.closesAll (depth : Nat) : ∀ ms : List Member, (∀ m ∈ ms, m.Regular) →
    (∀ i ∈ Member.itemsAll true ms, i.Regular) →
    Closes (Member.linesAt depth ms).toList (Member.toksAll ms)
  | [], _, _ => closes_nil
  | .field _ name none :: ms, hms, h => by
    simp only [Member.itemsAll, List.forall_mem_cons] at hms h
    have hname := whole_propertyName_iff.mp hms.1
    have htext := (closes_margin depth).append
      (((spells_word hname).sym (c := ';') (by decide) (by decide) (by decide)).append
        (closes_newline.append (Member.closesAll depth ms hms.2 h)))
    simpa [Member.linesAt, Member.toksAll] using htext
  | .field _ name (some e) :: ms, hms, h => by
    simp only [Member.itemsAll, List.forall_mem_cons, List.forall_mem_append] at hms h
    have hname := whole_propertyName_iff.mp hms.1
    have hvalue := (e.spells depth h.1).sym (c := ';') (by decide) (by decide) (by decide)
    have htext := (closes_margin depth).append
      ((((spells_word hname).append closes_eq fun rest => quiet_blank _).append hvalue).append
        (closes_newline.append (Member.closesAll depth ms hms.2 h.2)))
    simpa [Member.linesAt, Member.toksAll] using htext
  | .method _ head body :: ms, hms, h => by
    simp only [Member.itemsAll, bodyItems_true, List.forall_mem_cons, List.forall_mem_append] at hms h
    have hhead := closes_methodHead (whole_propertyName_iff.mp hms.1.1) hms.1.2.2
    have htext := (closes_margin depth).append ((hhead.append (body.closes depth h.1)).append
      (closes_newline.append (Member.closesAll depth ms hms.2 h.2)))
    simpa [Member.linesAt, Member.toksAll] using htext

theorem Block.closes (depth : Nat) : ∀ b : Block, (∀ i ∈ b.items true, i.Regular) →
    Closes (b.textAt depth).toList b.toks
  | ⟨_, ss⟩, h =>
    closes_braces depth (Stmt.linesAt (depth + 1) ss) (Stmt.closesAll (depth + 1) ss h)
      (Stmt.toksAll_eq_nil (depth + 1) ss)

end

end Trees

end MacroEngine
