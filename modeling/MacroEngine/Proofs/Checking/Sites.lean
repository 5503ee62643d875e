import MacroEngine.Proofs.Order.AnyOrder

/-!
# The sites of a check

A check goes through the nodes of a file from left to right, every node before what it holds, and
stops at each use of a macro that the registry has bound. `boundUse?` says what it stops at, node by
node. An expression stands among the nodes of a file as a block: itself first, then all that it
holds. So a check that comes through lists the bound uses of the file one by one, each of them right
before those among its own arguments.
-/

namespace MacroEngine

/-- The name and the place of a use of a macro, if the registry has bound it. -/
def boundUse? (r : Registry) : Item → Option (String × Span)
  | .expr (.invoke stamp name _) =>
    if (r.binding? .function stamp.id).isSome then some (name, stamp.span) else none
  | .expr (.tagged stamp tag _) =>
    if (r.binding? .template stamp.id).isSome then some (tag, stamp.span) else none
  | _ => none

def boundUses (r : Registry) (items : List Item) : List (String × Span) :=
  items.filterMap (boundUse? r)

def CheckedSite.use (site : CheckedSite) : String × Span := (site.name, site.span)

section Blocks

/-- Every expression among the nodes stands there with all that it holds behind it. -/
def InBlocks (items : List Item) : Prop :=
  ∀ e, .expr e ∈ items → ∃ before after, items = before ++ (e.items true ++ after)

variable {items more : List Item}

theorem InBlocks.nil : InBlocks [] := fun _ h => absurd h List.not_mem_nil

theorem InBlocks.append (h : InBlocks items) (h' : InBlocks more) : InBlocks (items ++ more) := by
  intro e he
  rcases List.mem_append.mp he with he | he
  · obtain ⟨before, after, rfl⟩ := h e he
    exact ⟨before, after ++ more, by simp⟩
  · obtain ⟨before, after, rfl⟩ := h' e he
    exact ⟨items ++ before, after, by simp⟩

theorem InBlocks.stmt (s : Stmt) (h : InBlocks items) : InBlocks (.stmt s :: items) := by
  intro e he
  obtain ⟨before, after, rfl⟩ := h e ((List.mem_cons.mp he).resolve_left nofun)
  exact ⟨.stmt s :: before, after, rfl⟩

/-- An expression with what it holds, if what it holds stands in blocks. -/
theorem InBlocks.expr {e : Expr} (hitems : e.items true = .expr e :: items) (h : InBlocks items) :
    InBlocks (e.items true) := by
  intro e' he'
  rw [hitems] at he'
  rcases List.mem_cons.mp he' with heq | he'
  · obtain rfl := Item.expr.inj heq
    exact ⟨[], [], by simp⟩
  · obtain ⟨before, after, hsplit⟩ := h e' he'
    exact ⟨.expr e :: before, after, by rw [hitems, hsplit]; rfl⟩

mutual

theorem Expr.inBlocks : ∀ e : Expr, InBlocks (e.items true)
  | .ident _ _ | .number _ _ | .str _ _ | .bool _ _ | .null _ | .this _ | .template _ _
  | .tagged _ _ _ => .expr rfl .nil
  | .array _ es => .expr rfl (Expr.inBlocks_all es)
  | .object _ ps => .expr rfl (Expr.inBlocks_properties ps)
  | .paren _ e | .member _ e _ | .unary _ _ e | .await _ e | .arrowExpr _ _ _ e =>
    .expr rfl e.inBlocks
  | .call _ c as => .expr rfl (c.inBlocks.append (Expr.inBlocks_all as))
  | .invoke _ _ as => .expr rfl (Expr.inBlocks_all as)
  | .binary _ _ a b | .assign _ a b => .expr rfl (a.inBlocks.append b.inBlocks)
  | .arrow _ _ _ b | .function _ _ b => .expr rfl (bodyItems_true b ▸ b.inBlocks)

theorem Expr.inBlocks_all : ∀ es : List Expr, InBlocks (Expr.itemsAll true es)
  | [] => .nil
  | e :: es => e.inBlocks.append (Expr.inBlocks_all es)

theorem Expr.inBlocks_properties :
    ∀ ps : List (String × Expr), InBlocks (Expr.itemsProperties true ps)
  | [] => .nil
  | (_, e) :: ps => e.inBlocks.append (Expr.inBlocks_properties ps)

theorem Stmt.inBlocks : ∀ s : Stmt, InBlocks (s.items true)
  | .importNames _ _ _ | .empty _ | .binding _ _ _ none _ | .ret _ none => .stmt _ .nil
  | .function _ _ b => .stmt _ (bodyItems_true b ▸ b.inBlocks)
  | .classDecl _ _ ms => .stmt _ (Member.inBlocks_all ms)
  | .binding _ _ _ (some e) _ | .expr _ e | .ret _ (some e) | .throwExpr _ e => .stmt _ e.inBlocks
  | .ifElse _ c t none => .stmt _ (c.inBlocks.append t.inBlocks)
  | .ifElse _ c t (some e) => .stmt _ (c.inBlocks.append (t.inBlocks.append e.inBlocks))
  | .whileLoop _ e b | .forOf _ _ _ e b => .stmt _ (e.inBlocks.append b.inBlocks)
  | .block _ b | .defer _ b => .stmt _ b.inBlocks
  | .tryFinally _ b f => .stmt _ (b.inBlocks.append f.inBlocks)

theorem Stmt.inBlocks_all : ∀ ss : List Stmt, InBlocks (Stmt.itemsAll true ss)
  | [] => .nil
  | s :: ss => s.inBlocks.append (Stmt.inBlocks_all ss)

theorem Member.inBlocks_all : ∀ ms : List Member, InBlocks (Member.itemsAll true ms)
  | [] => .nil
  | .field _ _ none :: ms => Member.inBlocks_all ms
  | .field _ _ (some e) :: ms => e.inBlocks.append (Member.inBlocks_all ms)
  | .method _ _ b :: ms => (bodyItems_true b ▸ b.inBlocks).append (Member.inBlocks_all ms)

theorem Block.inBlocks : ∀ b : Block, InBlocks (b.items true)
  | ⟨_, ss⟩ => Stmt.inBlocks_all ss

end

/-- A bound use stands among those of a file right before the bound uses among its arguments. -/
theorem boundUses_of_mem {r : Registry} {file : SourceFile} {stamp : Stamp} {name : String}
    {args : List Expr} (h : .expr (.invoke stamp name args) ∈ file.items)
    (hbound : (r.binding? .function stamp.id).isSome = true) :
    ∃ before after, boundUses r file.items =
      before ++ (name, stamp.span) :: (boundUses r (Expr.itemsAll true args) ++ after) := by
  obtain ⟨before, after, hsplit⟩ := Stmt.inBlocks_all file.statements _ h
  refine ⟨boundUses r before, boundUses r after, ?_⟩
  have hitems : file.items = before ++ (.expr (.invoke stamp name args) ::
    Expr.itemsAll true args ++ after) := hsplit
  have huse : boundUse? r (.expr (.invoke stamp name args)) = some (name, stamp.span) := if_pos hbound
  rw [hitems, boundUses, List.filterMap_append, List.cons_append, List.filterMap_cons, huse,
    List.filterMap_append]
  rfl

end Blocks

namespace Session

/-- What a check goes through are the bound uses of the file. -/
theorem boundSites_uses (r : Registry) (file : SourceFile) :
    (boundSites r file).map (fun (site, name, _) => (name, site.span)) = boundUses r file.items := by
  unfold boundSites SourceFile.sites boundUses
  rw [List.map_filterMap, List.filterMap_filter, List.filterMap_filterMap]
  refine List.filterMap_congr fun i _ => ?_
  cases i with
  | stmt s => rfl
  | expr e =>
    cases e with
    | invoke stamp name args =>
      change Option.map _ ((r.binding? .function stamp.id).map _) = boundUse? r _
      cases h : r.binding? .function stamp.id with
      | none => simp [boundUse?, h]
      | some d =>
        simp [boundUse?, h]
        rfl
    | tagged stamp tag raw =>
      change Option.map _ ((r.binding? .template stamp.id).map _) = boundUse? r _
      cases h : r.binding? .template stamp.id with
      | none => simp [boundUse?, h]
      | some d =>
        simp [boundUse?, h]
        rfl
    | _ => rfl

/-- A check that comes through has one answer for each bound use of the file, in order. -/
theorem sites_of_check {s s' : Session} {file : SourceFile} {checker : TypeChecker}
    {report : CheckReport} (h : (check file checker).run.run s = (.ok report, s')) :
    report.sites.map CheckedSite.use = boundUses s.registry file.items := by
  obtain ⟨_, _, hget, h⟩ := run_bind_eq_ok.mp h
  cases hget
  obtain ⟨answers, _, hrun, h⟩ := run_bind_eq_ok.mp h
  obtain ⟨hreport, -⟩ := Prod.mk.inj h
  obtain rfl := Except.ok.inj hreport
  obtain ⟨-, hall⟩ := forall₂_of_run_mapM (fun _ _ _ _ => trivial) (P := fun _ => True) trivial hrun
  rw [← boundSites_uses, List.map_map, eq_comm]
  refine List.forall₂_eq_eq_eq ▸ List.forall₂_map_left_iff.mpr (List.forall₂_map_right_iff.mpr ?_)
  refine hall.imp fun found answer hanswer => ?_
  obtain ⟨-, s₁, -, hanswer⟩ := hanswer
  obtain ⟨site, name, d⟩ := found
  obtain ⟨_, _, -, hpure⟩ := run_bind_eq_ok.mp (Prod.ext hanswer rfl)
  obtain ⟨hpure, -⟩ := Prod.mk.inj hpure
  obtain rfl := Except.ok.inj hpure
  rfl

end Session

end MacroEngine
