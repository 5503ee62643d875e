import MacroEngine.Proofs.Control.Covering
import MacroEngine.Proofs.Hoisting.Names

/-!
# The names of lowered trees

Lowering moves statements about and puts new ones between them. All names in a lowered tree are names
of the tree, or of the callees that operators are mapped to, or those that deferred statements are
lowered with. The statements of the file stay where they are.
-/

namespace MacroEngine

open Control

namespace Lowering

def deferWords : List String := [deferList, deferredFlag, actionName, "push"]

section Bodies

variable {P : String → Prop} {isAsync : Bool} {fresh : NodeId} {ss ss' : List Stmt}
  (hP : ∀ name ∈ deferWords, P name)

include hP

theorem names_cleanup {s : Stmt} (h : IsCleanup s) : ∀ name ∈ s.names, P name := by
  intro name hname
  refine hP name ?_
  obtain ⟨hcall⟩ := h
  cases hcall <;>
    simp only [Stmt.names, Block.names, Stmt.namesAll, Expr.names, Expr.namesAll, deferWords,
      List.mem_append, List.mem_cons, List.not_mem_nil] at hname ⊢ <;> tauto

mutual

theorem names_coversAll : ∀ {ss ss' : List Stmt}, CoversAll isAsync fresh ss ss' →
    (∀ name ∈ Stmt.namesAll ss, P name) → ∀ name ∈ Stmt.namesAll ss', P name
  | _, _, .nil, h => h
  | _, _, .ret hrun hss, h => by
    simp only [Stmt.namesAll, List.forall_mem_append] at h ⊢
    exact ⟨names_cleanup hP hrun.isCleanup, h.1, names_coversAll hss h.2⟩
  | _, _, .cons hs hss, h => by
    simp only [Stmt.namesAll, List.forall_mem_append] at h ⊢
    exact ⟨names_coversIn hs h.1, names_coversAll hss h.2⟩

theorem names_coversIn : ∀ {s s' : Stmt}, CoversIn isAsync fresh s s' →
    (∀ name ∈ s.names, P name) → ∀ name ∈ s'.names, P name
  | _, _, .same _, h => h
  | _, _, .ifElse ht, h | _, _, .whileLoop ht, h => by
    simp only [Stmt.names, Block.names, List.forall_mem_append] at h ⊢
    exact ⟨h.1, names_coversAll ht h.2⟩
  | _, _, .forOf ht, h => by
    simp only [Stmt.names, Block.names, List.forall_mem_cons, List.forall_mem_append] at h ⊢
    exact ⟨h.1, h.2.1, names_coversAll ht h.2.2⟩
  | _, _, .block ht, h => names_coversAll ht h
  | _, _, .elseReturn ht hrun _, h => by
    simp only [Stmt.names, Block.names, Stmt.namesAll, List.forall_mem_append] at h ⊢
    exact ⟨h.1, names_coversAll ht h.2.1, names_cleanup hP hrun.isCleanup, h.2.2, nofun⟩
  | _, _, .elseIn ht he, h => by
    simp only [Stmt.names, Block.names, List.forall_mem_append] at h ⊢
    exact ⟨h.1, names_coversAll ht h.2.1, names_coversIn he h.2.2⟩
  | _, _, .tryFinally ht hu, h => by
    simp only [Stmt.names, Block.names, List.forall_mem_append] at h ⊢
    exact ⟨names_coversAll ht h.1, names_coversAll hu h.2⟩

end

theorem names_registered (h : Registered isAsync fresh ss ss')
    (hss : ∀ name ∈ Stmt.namesAll ss, P name) : ∀ name ∈ Stmt.namesAll ss', P name := by
  induction h with
  | nil => exact hss
  | register _ _ _ ih =>
    simp only [Stmt.namesAll, Stmt.names, List.forall_mem_append] at hss
    simp only [Stmt.namesAll, Stmt.names, Expr.names, Expr.namesAll, List.forall_mem_append,
      List.forall_mem_cons, List.append_nil, List.nil_append]
    exact ⟨⟨⟨hP _ (by simp [deferWords]), hP _ (by simp [deferWords]), nofun⟩, hss.1⟩, ih hss.2⟩
  | keep _ _ ih =>
    simp only [Stmt.namesAll, List.forall_mem_append] at hss ⊢
    exact ⟨hss.1, ih hss.2⟩

/-- A body that is lowered has its own names, and those for the bookkeeping. -/
theorem names_lowered {inner : List Stmt} (h : Lowers isAsync fresh ss inner)
    (h' : Frames isAsync inner ss') (hss : ∀ name ∈ Stmt.namesAll ss, P name) :
    ∀ name ∈ Stmt.namesAll ss', P name := by
  have hinner : ∀ name ∈ Stmt.namesAll inner, P name := by
    cases h with
    | leaves hrs hss' _ => exact names_coversAll hP hss' (names_registered hP hrs hss)
    | falls hrs hss' _ hrun =>
      rw [Stmt.namesAll_append]
      refine List.forall_mem_append.mpr ⟨names_coversAll hP hss' (names_registered hP hrs hss), ?_⟩
      simpa only [Stmt.namesAll, List.append_nil] using names_cleanup hP hrun.isCleanup
  obtain ⟨hrun⟩ := h'
  have hcleanup := names_cleanup hP hrun.isCleanup
  simp only [Stmt.namesAll, Stmt.names, Block.names, Expr.names, Expr.namesAll,
    List.forall_mem_append, List.forall_mem_cons, List.append_nil]
  have hlist : P deferList := hP _ (by simp [deferWords])
  have hflag : P deferredFlag := hP _ (by simp [deferWords])
  exact ⟨⟨hlist, nofun⟩, ⟨hflag, nofun⟩, hinner, ⟨hflag, nofun⟩, hcleanup⟩

theorem functionBody_names (isAsync : Bool) {b : Block} (hb : ∀ name ∈ b.names, P name) :
    Always (functionBody isAsync b) fun out => ∀ name ∈ out.1.names, P name := by
  obtain ⟨stamp, ss⟩ := b
  intro next
  unfold functionBody
  split
  · obtain ⟨inner, hlowers, hframes⟩ := lowered_frames isAsync next ss next (Nat.le_refl next)
    exact names_lowered hP hlowers hframes hb
  · exact hb

end Bodies

/-- What a computation that counts comes to, wherever it begins. -/
def ComesTo {α : Type} (x : Counted α) (Q : α → Prop) : Prop :=
  ∀ n, Always (x.run n) fun out => Q out.1

section ComesTo

variable {α β : Type} {Q : α → Prop} {R : β → Prop}

theorem comesTo_pure {a : α} (h : Q a) : ComesTo (pure a) Q := fun _ => always_pure h

theorem comesTo_bind {x : Counted α} {f : α → Counted β} (hx : ComesTo x Q)
    (hf : ∀ a, Q a → ComesTo (f a) R) : ComesTo (x >>= f) R :=
  fun n => always_bind (hx n) fun out hout => hf out.1 hout out.2

theorem comesTo_lift {x : Fresh α} (hx : Always x Q) : ComesTo (liftM x : Counted α) Q :=
  fun _ next => hx next

end ComesTo

structure KeepsNames (r : Rebuilding Counted) (P : String → Prop) : Prop where
  onExpr : ∀ e : Expr, (∀ name ∈ e.names, P name) →
    ComesTo (r.onExpr e) fun e' => ∀ name ∈ e'.names, P name
  onBody : ∀ isAsync (b : Block), (∀ name ∈ b.names, P name) →
    ComesTo (r.onBody isAsync b) fun b' => ∀ name ∈ b'.names, P name

section Rebuilt

variable {r : Rebuilding Counted} {P : String → Prop}

mutual

theorem names_rebuildExpr (hr : KeepsNames r P) : ∀ e : Expr, (∀ name ∈ e.names, P name) →
    ComesTo (e.rebuild r) fun e' => ∀ name ∈ e'.names, P name
  | .ident _ _, h | .number _ _, h | .str _ _, h | .bool _ _, h | .null _, h | .this _, h
  | .template _ _, h | .tagged _ _ _, h => hr.onExpr _ h
  | .array _ es, h => comesTo_bind (names_rebuildExprs hr es h) fun es' hes => hr.onExpr _ hes
  | .object _ ps, h => comesTo_bind (names_rebuildProperties hr ps h) fun ps' hps => hr.onExpr _ hps
  | .paren _ e, h | .unary _ _ e, h | .await _ e, h =>
    comesTo_bind (names_rebuildExpr hr e h) fun e' he => hr.onExpr _ he
  | .member _ o p, h => by
    simp only [Expr.names, List.forall_mem_cons] at h
    refine comesTo_bind (names_rebuildExpr hr o h.2) fun o' ho => hr.onExpr _ ?_
    simp only [Expr.names, List.forall_mem_cons]
    exact ⟨h.1, ho⟩
  | .call _ c as, h => by
    simp only [Expr.names, List.forall_mem_append] at h
    refine comesTo_bind (names_rebuildExpr hr c h.1) fun c' hc => ?_
    refine comesTo_bind (names_rebuildExprs hr as h.2) fun as' has => hr.onExpr _ ?_
    simp only [Expr.names, List.forall_mem_append]
    exact ⟨hc, has⟩
  | .invoke _ _ as, h => by
    simp only [Expr.names, List.forall_mem_cons] at h
    refine comesTo_bind (names_rebuildExprs hr as h.2) fun as' has => hr.onExpr _ ?_
    simp only [Expr.names, List.forall_mem_cons]
    exact ⟨h.1, has⟩
  | .binary _ _ a b, h | .assign _ a b, h => by
    simp only [Expr.names, List.forall_mem_append] at h
    refine comesTo_bind (names_rebuildExpr hr a h.1) fun a' ha => ?_
    refine comesTo_bind (names_rebuildExpr hr b h.2) fun b' hb => hr.onExpr _ ?_
    simp only [Expr.names, List.forall_mem_append]
    exact ⟨ha, hb⟩
  | .arrow _ _ _ b, h | .function _ _ b, h => by
    simp only [Expr.names, List.forall_mem_append] at h
    refine comesTo_bind (names_rebuildBlock hr b h.2) fun b' hb => ?_
    refine comesTo_bind (hr.onBody _ b' hb) fun b'' hb' => hr.onExpr _ ?_
    simp only [Expr.names, List.forall_mem_append]
    exact ⟨h.1, hb'⟩
  | .arrowExpr _ _ _ e, h => by
    simp only [Expr.names, List.forall_mem_append] at h
    refine comesTo_bind (names_rebuildExpr hr e h.2) fun e' he => hr.onExpr _ ?_
    simp only [Expr.names, List.forall_mem_append]
    exact ⟨h.1, he⟩

theorem names_rebuildExprs (hr : KeepsNames r P) : ∀ es : List Expr,
    (∀ name ∈ Expr.namesAll es, P name) →
    ComesTo (Expr.rebuildAll r es) fun es' => ∀ name ∈ Expr.namesAll es', P name
  | [], h => comesTo_pure h
  | e :: es, h => by
    simp only [Expr.namesAll, List.forall_mem_append] at h
    refine comesTo_bind (names_rebuildExpr hr e h.1) fun e' he => ?_
    refine comesTo_bind (names_rebuildExprs hr es h.2) fun es' hes => comesTo_pure ?_
    exact List.forall_mem_append.mpr ⟨he, hes⟩

theorem names_rebuildProperties (hr : KeepsNames r P) : ∀ ps : List (String × Expr),
    (∀ name ∈ Expr.namesProperties ps, P name) →
      ComesTo (Expr.rebuildProperties r ps) fun ps' => ∀ name ∈ Expr.namesProperties ps', P name
  | [], h => comesTo_pure h
  | (_, e) :: ps, h => by
    simp only [Expr.namesProperties, List.forall_mem_cons, List.forall_mem_append] at h
    refine comesTo_bind (names_rebuildExpr hr e h.2.1) fun e' he => ?_
    refine comesTo_bind (names_rebuildProperties hr ps h.2.2) fun ps' hps => comesTo_pure ?_
    simp only [Expr.namesProperties, List.forall_mem_cons, List.forall_mem_append]
    exact ⟨h.1, he, hps⟩

theorem names_rebuildStmt (hr : KeepsNames r P) : ∀ s : Stmt, (∀ name ∈ s.names, P name) →
    ComesTo (s.rebuild r) fun s' => (∀ name ∈ s'.names, P name) ∧ s.SameHead s'
  | .importNames _ _ _, h | .empty _, h | .ret _ none, h | .binding _ _ _ none _, h =>
    comesTo_pure ⟨h, .refl _⟩
  | .function _ _ b, h => by
    simp only [Stmt.names, List.forall_mem_append] at h
    refine comesTo_bind (names_rebuildBlock hr b h.2) fun b' hb => ?_
    refine comesTo_bind (hr.onBody _ b' hb) fun b'' hb' => comesTo_pure ⟨?_, .of_not_import rfl rfl rfl rfl⟩
    simp only [Stmt.names, List.forall_mem_append]
    exact ⟨h.1, hb'⟩
  | .classDecl _ _ ms, h => by
    simp only [Stmt.names, List.forall_mem_cons, List.forall_mem_append] at h
    refine comesTo_bind (names_rebuildMembers hr ms h.2.2) fun ms' hms =>
      comesTo_pure ⟨?_, .of_not_import rfl rfl rfl rfl⟩
    simp only [Stmt.names, List.forall_mem_cons, List.forall_mem_append]
    exact ⟨h.1, h.2.1, hms⟩
  | .binding _ kind _ (some e) _, h => by
    simp only [Stmt.names, List.forall_mem_cons] at h
    refine comesTo_bind (names_rebuildExpr hr e h.2) fun e' he =>
      comesTo_pure ⟨?_, .of_not_import rfl rfl rfl (by cases kind <;> rfl)⟩
    simp only [Stmt.names, List.forall_mem_cons]
    exact ⟨h.1, he⟩
  | .expr _ e, h | .ret _ (some e), h | .throwExpr _ e, h =>
    comesTo_bind (names_rebuildExpr hr e h) fun e' he => comesTo_pure ⟨he, .of_not_import rfl rfl rfl rfl⟩
  | .ifElse _ c t none, h => by
    simp only [Stmt.names, List.forall_mem_append] at h
    refine comesTo_bind (names_rebuildExpr hr c h.1) fun c' hc => ?_
    refine comesTo_bind (names_rebuildBlock hr t h.2) fun t' ht =>
      comesTo_pure ⟨?_, .of_not_import rfl rfl rfl rfl⟩
    simp only [Stmt.names, List.forall_mem_append]
    exact ⟨hc, ht⟩
  | .ifElse _ c t (some e), h => by
    simp only [Stmt.names, List.forall_mem_append] at h
    refine comesTo_bind (names_rebuildExpr hr c h.1) fun c' hc => ?_
    refine comesTo_bind (names_rebuildBlock hr t h.2.1) fun t' ht => ?_
    refine comesTo_bind (names_rebuildStmt hr e h.2.2) fun e' he =>
      comesTo_pure ⟨?_, .of_not_import rfl rfl rfl rfl⟩
    simp only [Stmt.names, List.forall_mem_append]
    exact ⟨hc, ht, he.1⟩
  | .whileLoop _ c b, h => by
    simp only [Stmt.names, List.forall_mem_append] at h
    refine comesTo_bind (names_rebuildExpr hr c h.1) fun c' hc => ?_
    refine comesTo_bind (names_rebuildBlock hr b h.2) fun b' hb =>
      comesTo_pure ⟨?_, .of_not_import rfl rfl rfl rfl⟩
    simp only [Stmt.names, List.forall_mem_append]
    exact ⟨hc, hb⟩
  | .forOf _ _ _ c b, h => by
    simp only [Stmt.names, List.forall_mem_cons, List.forall_mem_append] at h
    refine comesTo_bind (names_rebuildExpr hr c h.2.1) fun c' hc => ?_
    refine comesTo_bind (names_rebuildBlock hr b h.2.2) fun b' hb =>
      comesTo_pure ⟨?_, .of_not_import rfl rfl rfl rfl⟩
    simp only [Stmt.names, List.forall_mem_cons, List.forall_mem_append]
    exact ⟨h.1, hc, hb⟩
  | .block _ b, h | .defer _ b, h =>
    comesTo_bind (names_rebuildBlock hr b h) fun b' hb => comesTo_pure ⟨hb, .of_not_import rfl rfl rfl rfl⟩
  | .tryFinally _ b f, h => by
    simp only [Stmt.names, List.forall_mem_append] at h
    refine comesTo_bind (names_rebuildBlock hr b h.1) fun b' hb => ?_
    refine comesTo_bind (names_rebuildBlock hr f h.2) fun f' hf =>
      comesTo_pure ⟨?_, .of_not_import rfl rfl rfl rfl⟩
    simp only [Stmt.names, List.forall_mem_append]
    exact ⟨hb, hf⟩

theorem names_rebuildStmts (hr : KeepsNames r P) : ∀ ss : List Stmt,
    (∀ name ∈ Stmt.namesAll ss, P name) →
    ComesTo (Stmt.rebuildAll r ss) fun ss' => ∀ name ∈ Stmt.namesAll ss', P name
  | [], h => comesTo_pure h
  | s :: ss, h => by
    simp only [Stmt.namesAll, List.forall_mem_append] at h
    refine comesTo_bind (names_rebuildStmt hr s h.1) fun s' hs => ?_
    refine comesTo_bind (names_rebuildStmts hr ss h.2) fun ss' hss => comesTo_pure ?_
    exact List.forall_mem_append.mpr ⟨hs.1, hss⟩

theorem names_rebuildMembers (hr : KeepsNames r P) : ∀ ms : List Member,
    (∀ name ∈ Member.namesAll ms, P name) →
    ComesTo (Member.rebuildAll r ms) fun ms' => ∀ name ∈ Member.namesAll ms', P name
  | [], h => comesTo_pure h
  | .field _ _ none :: ms, h => by
    simp only [Member.namesAll, List.forall_mem_append] at h
    refine comesTo_bind (names_rebuildMembers hr ms h.2) fun ms' hms => comesTo_pure ?_
    exact List.forall_mem_append.mpr ⟨h.1, hms⟩
  | .field _ _ (some e) :: ms, h => by
    simp only [Member.namesAll, Member.names, List.forall_mem_cons, List.forall_mem_append] at h
    refine comesTo_bind (names_rebuildExpr hr e h.1.2) fun e' he => ?_
    refine comesTo_bind (names_rebuildMembers hr ms h.2) fun ms' hms => comesTo_pure ?_
    simp only [Member.namesAll, Member.names, List.forall_mem_cons, List.forall_mem_append]
    exact ⟨⟨h.1.1, he⟩, hms⟩
  | .method _ _ b :: ms, h => by
    simp only [Member.namesAll, Member.names, List.forall_mem_cons, List.forall_mem_append] at h
    refine comesTo_bind (names_rebuildBlock hr b h.1.2.2) fun b' hb => ?_
    refine comesTo_bind (hr.onBody _ b' hb) fun b'' hb' => ?_
    refine comesTo_bind (names_rebuildMembers hr ms h.2) fun ms' hms => comesTo_pure ?_
    simp only [Member.namesAll, Member.names, List.forall_mem_cons, List.forall_mem_append]
    exact ⟨⟨h.1.1, h.1.2.1, hb'⟩, hms⟩

theorem names_rebuildBlock (hr : KeepsNames r P) : ∀ b : Block, (∀ name ∈ b.names, P name) →
    ComesTo (b.rebuild r) fun b' => ∀ name ∈ b'.names, P name
  | ⟨_, ss⟩, h => comesTo_bind (names_rebuildStmts hr ss h) fun _ hss => comesTo_pure hss

end

end Rebuilt

section Lowerings

variable {P : String → Prop}

theorem deferLowering_keepsNames (hP : ∀ name ∈ deferWords, P name) :
    KeepsNames deferLowering P where
  onExpr e he := comesTo_pure he
  onBody isAsync b hb := by
    refine comesTo_bind (comesTo_lift (functionBody_names hP isAsync hb)) fun out hout => ?_
    obtain ⟨b', actions⟩ := out
    dsimp only
    split
    · exact comesTo_bind (Q := fun _ => True) (fun _ _ => trivial) fun _ _ => comesTo_pure hout
    · exact comesTo_pure hout

def calleeNames (table : OperatorTable) : List String :=
  table.entries.flatMap fun entry => segments entry.2

theorem segments_subset_calleeNames {table : OperatorTable} {op : BinaryOp} {callee : String}
    (h : table.get? op = some callee) : segments callee ⊆ calleeNames table := by
  obtain ⟨before, after, hentries, -⟩ := List.lookup_eq_some_iff.mp h
  intro name hname
  refine List.mem_flatMap.mpr ⟨(op, callee), ?_, hname⟩
  rw [hentries]
  exact List.mem_append_right _ List.mem_cons_self

theorem operatorLowering_keepsNames {table : OperatorTable}
    (hP : ∀ name ∈ calleeNames table, P name) : KeepsNames (operatorLowering table) P where
  onExpr e he := by
    cases e with
    | binary s op l r =>
      cases hcallee : table.get? op with
      | none =>
        simp only [operatorLowering, lowerOperator, hcallee]
        exact comesTo_pure he
      | some callee =>
        simp only [operatorLowering, lowerOperator, hcallee]
        have hpath : Always (Fresh.path callee) fun e' => ∀ name ∈ e'.names, P name := by
          intro next name hname
          rw [run_path] at hname
          exact hP name (segments_subset_calleeNames hcallee (Expr.names_dotted _ _ hname))
        refine comesTo_bind (comesTo_lift hpath) fun path hpath => ?_
        refine comesTo_bind (Q := fun _ => True) (fun _ _ => trivial) fun _ _ => comesTo_pure ?_
        simp only [Expr.names, Expr.namesAll, List.forall_mem_append] at he ⊢
        exact ⟨hpath, he.1, he.2, nofun⟩
    | _ => exact comesTo_pure he
  onBody _ _ hb := comesTo_pure hb

end Lowerings

end Lowering

/-- A statement has become another one in its place, with no names but its own and some words. -/
structure Stmt.Grows (words : List String) (s s' : Stmt) : Prop extends s.SameHead s' where
  names : s'.names ⊆ s.names ++ words

namespace Lowering

section Files

variable {r : Rebuilding Counted} {words : List String}

/-- Every statement of a file stays in its place. -/
theorem rebuildAll_grows (hr : ∀ P : String → Prop, (∀ name ∈ words, P name) → KeepsNames r P)
    (ss : List Stmt) :
    ComesTo (Stmt.rebuildAll r ss) (List.Forall₂ (Stmt.Grows words) ss) := by
  induction ss with
  | nil => exact comesTo_pure .nil
  | cons s ss ih =>
    have hkeeps : KeepsNames r (· ∈ s.names ++ words) :=
      hr _ fun _ => List.mem_append_right s.names
    have hs := names_rebuildStmt hkeeps s fun _ => List.mem_append_left words
    refine comesTo_bind hs fun s' hs' => comesTo_bind ih fun ss' hss => comesTo_pure ?_
    exact .cons ⟨hs'.2, fun name hname => hs'.1 name hname⟩ hss

theorem defers_grows (file : SourceFile) : Always (defers file) fun out =>
    List.Forall₂ (Stmt.Grows deferWords) file.statements out.1.statements := by
  refine always_bind (rebuildAll_grows (fun _ => deferLowering_keepsNames) file.statements 0)
    fun out hout => ?_
  dsimp only
  split <;> exact always_pure hout

theorem operators_grows (table : OperatorTable) (file : SourceFile) :
    Always (operators table file) fun out =>
      List.Forall₂ (Stmt.Grows (calleeNames table)) file.statements out.1.statements :=
  always_bind (rebuildAll_grows (fun _ => operatorLowering_keepsNames) file.statements 0)
    fun _ hout => always_pure hout

end Files

end Lowering

end MacroEngine
