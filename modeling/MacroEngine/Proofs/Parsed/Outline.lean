import MacroEngine.Proofs.Grammar.Places
import MacroEngine.Tree.Walk

/-!
# Outlines

The outline of a tree keeps of every node, blocks and class members among them, its kind, its stamp
and the nodes right inside it, in the order in which they are written. A node is placed well if its
span begins and ends between characters of the text and the nodes right inside it lie in it one after
the other. `InOrder` says this of all nodes of some outlines that lie one after the other
themselves, that their numbers grow from the inside out and from the left to the right, and that
every block is written in the text.
-/

namespace MacroEngine

open Text (byteLength)

inductive NodeKind where
  | file
  | statement
  | block
  | member
  | expression
deriving Repr, DecidableEq

/-- A node with the nodes right inside it. -/
inductive Outline where
  | node (kind : NodeKind) (stamp : Stamp) (parts : List Outline)

/-- What the span covers begins with an opening brace and ends with a closing one. -/
def Span.IsBraced (text : String) (span : Span) : Prop :=
  ∃ before inside after, text.toList = before ++ '\x7b' :: (inside ++ '\x7d' :: after) ∧
    span.start = byteLength before ∧
      span.stop = byteLength (before ++ '\x7b' :: (inside ++ ['\x7d']))

namespace Outline

def kind : Outline → NodeKind
  | .node k _ _ => k

def span : Outline → Span
  | .node _ s _ => s.span

def parts : Outline → List Outline
  | .node _ _ ps => ps

variable (k : NodeKind) (s : Stamp) (ps : List Outline)

@[simp] theorem kind_node : (node k s ps).kind = k := rfl

@[simp] theorem span_node : (node k s ps).span = s.span := rfl

@[simp] theorem parts_node : (node k s ps).parts = ps := rfl

mutual

def nodes : Outline → List Outline
  | .node k s ps => .node k s ps :: nodesAll ps

def nodesAll : List Outline → List Outline
  | [] => []
  | o :: os => o.nodes ++ nodesAll os

end

mutual

/-- The numbers of all nodes, those of the nodes inside a node before its own. -/
def postorder : Outline → List NodeId
  | .node _ s ps => postorderAll ps ++ [s.id]

def postorderAll : List Outline → List NodeId
  | [] => []
  | o :: os => o.postorder ++ postorderAll os

end

theorem nodesAll_append (os more : List Outline) :
    nodesAll (os ++ more) = nodesAll os ++ nodesAll more := by
  induction os with
  | nil => rfl
  | cons o os ih => rw [List.cons_append, nodesAll, nodesAll, ih, List.append_assoc]

theorem postorderAll_append (os more : List Outline) :
    postorderAll (os ++ more) = postorderAll os ++ postorderAll more := by
  induction os with
  | nil => rfl
  | cons o os ih => rw [List.cons_append, postorderAll, postorderAll, ih, List.append_assoc]

@[simp] theorem nodesAll_singleton (o : Outline) : nodesAll [o] = o.nodes :=
  List.append_nil _

@[simp] theorem postorderAll_singleton (o : Outline) : postorderAll [o] = o.postorder :=
  List.append_nil _

theorem mem_nodes_self (o : Outline) : o ∈ o.nodes := by
  cases o
  exact List.mem_cons_self

theorem mem_nodesAll {o : Outline} {os : List Outline} (h : o ∈ os) : o ∈ nodesAll os := by
  induction os with
  | nil => cases h
  | cons o' os ih =>
    rcases List.mem_cons.mp h with rfl | h
    · exact List.mem_append_left _ o.mem_nodes_self
    · exact List.mem_append_right _ (ih h)

/-- A node lies well in a text: its span begins and ends between characters, and the nodes right
inside it lie in it one after the other. -/
structure Placed (text : String) (o : Outline) : Prop where
  start_le_stop : o.span.start ≤ o.span.stop
  stop_le : o.span.stop ≤ text.utf8ByteSize
  start_valid : String.Pos.Raw.IsValid text ⟨o.span.start⟩
  stop_valid : String.Pos.Raw.IsValid text ⟨o.span.stop⟩
  inside : ∀ part ∈ o.parts, o.span.start ≤ part.span.start ∧ part.span.stop ≤ o.span.stop
  apart : o.parts.Pairwise fun part next => part.span.stop ≤ next.span.start

end Outline

mutual

def Expr.outline : Expr → Outline
  | .ident s _ | .number s _ | .str s _ | .bool s _ | .null s | .this s | .template s _
  | .tagged s _ _ => .node .expression s []
  | .array s es => .node .expression s (Expr.outlines es)
  | .object s ps => .node .expression s (Expr.propertyOutlines ps)
  | .paren s e => .node .expression s [e.outline]
  | .member s o _ => .node .expression s [o.outline]
  | .call s c as => .node .expression s (c.outline :: Expr.outlines as)
  | .invoke s _ as => .node .expression s (Expr.outlines as)
  | .unary s _ e => .node .expression s [e.outline]
  | .binary s _ l r => .node .expression s [l.outline, r.outline]
  | .assign s t v => .node .expression s [t.outline, v.outline]
  | .await s e => .node .expression s [e.outline]
  | .arrow s _ _ b => .node .expression s [b.outline]
  | .arrowExpr s _ _ e => .node .expression s [e.outline]
  | .function s _ b => .node .expression s [b.outline]

def Expr.outlines : List Expr → List Outline
  | [] => []
  | e :: es => e.outline :: Expr.outlines es

def Expr.propertyOutlines : List (String × Expr) → List Outline
  | [] => []
  | (_, e) :: ps => e.outline :: Expr.propertyOutlines ps

def Block.outline : Block → Outline
  | ⟨s, ss⟩ => .node .block s (Stmt.outlines ss)

def Stmt.outline : Stmt → Outline
  | .importNames s _ _ | .empty s => .node .statement s []
  | .function s _ b => .node .statement s [b.outline]
  | .classDecl s _ ms => .node .statement s (Member.outlines ms)
  | .binding s _ _ none _ | .ret s none => .node .statement s []
  | .binding s _ _ (some e) _ | .ret s (some e) => .node .statement s [e.outline]
  | .expr s e => .node .statement s [e.outline]
  | .ifElse s c t none => .node .statement s [c.outline, t.outline]
  | .ifElse s c t (some e) => .node .statement s [c.outline, t.outline, e.outline]
  | .whileLoop s c b => .node .statement s [c.outline, b.outline]
  | .forOf s _ _ i b => .node .statement s [i.outline, b.outline]
  | .block s b => .node .statement s [b.outline]
  | .defer s b => .node .statement s [b.outline]
  | .tryFinally s b f => .node .statement s [b.outline, f.outline]
  | .throwExpr s e => .node .statement s [e.outline]

def Stmt.outlines : List Stmt → List Outline
  | [] => []
  | s :: ss => s.outline :: Stmt.outlines ss

def Member.outline : Member → Outline
  | .field s _ none => .node .member s []
  | .field s _ (some e) => .node .member s [e.outline]
  | .method s _ b => .node .member s [b.outline]

def Member.outlines : List Member → List Outline
  | [] => []
  | m :: ms => m.outline :: Member.outlines ms

end

/-- The outline of a file: the file itself with its statements. -/
def SourceFile.outline (file : SourceFile) : Outline :=
  .node .file ⟨file.id, file.span⟩ (Stmt.outlines file.statements)

@[simp] theorem Expr.span_outline (e : Expr) : e.outline.span = e.span := by cases e <;> rfl

open Outline

/-- Outlines that lie one after the other between the bytes `i` and `j` of a text, with all their
nodes placed well and all blocks written. The numbers of the nodes grow, from `a` on and below
`b`. -/
structure InOrder (text : String) (i j : Nat) (a b : NodeId) (os : List Outline) : Prop where
  start_le_stop : i ≤ j
  first_le_last : a ≤ b
  inside : ∀ o ∈ os, i ≤ o.span.start ∧ o.span.stop ≤ j
  apart : os.Pairwise fun o next => o.span.stop ≤ next.span.start
  placed : ∀ o ∈ nodesAll os, o.Placed text
  braced : ∀ o ∈ nodesAll os, o.kind = .block → o.span.IsBraced text
  growing : (postorderAll os).Pairwise (· < ·)
  bounds : ∀ id ∈ postorderAll os, a ≤ id ∧ id < b

namespace InOrder

variable {text : String} {i j i' j' : Nat} {a b c : NodeId} {os more : List Outline}

theorem nil (hij : i ≤ j) (hab : a ≤ b) : InOrder text i j a b [] :=
  ⟨hij, hab, fun _ ho => absurd ho List.not_mem_nil, .nil, fun _ ho => absurd ho List.not_mem_nil,
    fun _ ho => absurd ho List.not_mem_nil, .nil, fun _ hid => absurd hid List.not_mem_nil⟩

theorem mono (h : InOrder text i j a b os) (hi : i' ≤ i) (hj : j ≤ j') :
    InOrder text i' j' a b os := by
  refine { h with start_le_stop := ?_, inside := fun o ho => ?_ }
  · exact Nat.le_trans hi (Nat.le_trans h.start_le_stop hj)
  · obtain ⟨hstart, hstop⟩ := h.inside o ho
    exact ⟨Nat.le_trans hi hstart, Nat.le_trans hstop hj⟩

/-- A number before those of the nodes may be left out. -/
theorem skip (h : InOrder text i j (a + 1) b os) : InOrder text i j a b os := by
  refine { h with first_le_last := ?_, bounds := fun id hid => ?_ }
  · exact Nat.le_of_succ_le h.first_le_last
  · exact ⟨Nat.le_of_succ_le (h.bounds id hid).1, (h.bounds id hid).2⟩

theorem append (h : InOrder text i j a b os) (h' : InOrder text i' j' b c more) (hj : j ≤ i') :
    InOrder text i j' a c (os ++ more) where
  start_le_stop := Nat.le_trans h.start_le_stop (Nat.le_trans hj h'.start_le_stop)
  first_le_last := Nat.le_trans h.first_le_last h'.first_le_last
  inside := by
    have hle := h.start_le_stop
    have hle' := h'.start_le_stop
    intro o ho
    rcases List.mem_append.mp ho with ho | ho
    · have ho := h.inside o ho
      omega
    · have ho := h'.inside o ho
      omega
  apart := by
    refine List.pairwise_append.mpr ⟨h.apart, h'.apart, fun o ho next hnext => ?_⟩
    exact Nat.le_trans (h.inside o ho).2 (Nat.le_trans hj (h'.inside next hnext).1)
  placed := by
    rw [nodesAll_append]
    intro o ho
    exact (List.mem_append.mp ho).elim (h.placed o) (h'.placed o)
  braced := by
    rw [nodesAll_append]
    intro o ho
    exact (List.mem_append.mp ho).elim (h.braced o) (h'.braced o)
  growing := by
    rw [postorderAll_append]
    refine List.pairwise_append.mpr ⟨h.growing, h'.growing, fun id hid next hnext => ?_⟩
    exact Nat.lt_of_lt_of_le (h.bounds id hid).2 (h'.bounds next hnext).1
  bounds := by
    rw [postorderAll_append]
    intro id hid
    rcases List.mem_append.mp hid with hid | hid
    · exact ⟨(h.bounds id hid).1, Nat.lt_of_lt_of_le (h.bounds id hid).2 h'.first_le_last⟩
    · exact ⟨Nat.le_trans h.first_le_last (h'.bounds id hid).1, (h'.bounds id hid).2⟩

/-- The last outlines become the parts of a node that covers them. -/
theorem wrap {front : List Outline} {kind : NodeKind} {s t : Nat}
    (h : InOrder text i j a b (front ++ os)) (hkind : kind = .block → Span.IsBraced text ⟨s, t⟩)
    (hs : String.Pos.Raw.IsValid text ⟨s⟩) (ht : String.Pos.Raw.IsValid text ⟨t⟩) (hst : s ≤ t)
    (hfront : ∀ o ∈ front, o.span.stop ≤ s)
    (hos : ∀ o ∈ os, s ≤ o.span.start ∧ o.span.stop ≤ t) (hi : i ≤ s) (hj : t ≤ j) :
    InOrder text i j a (b + 1) (front ++ [.node kind ⟨b, ⟨s, t⟩⟩ os]) where
  start_le_stop := h.start_le_stop
  first_le_last := Nat.le_succ_of_le h.first_le_last
  inside := by
    intro o ho
    rcases List.mem_append.mp ho with ho | ho
    · exact h.inside o (List.mem_append_left _ ho)
    · obtain rfl := List.mem_singleton.mp ho
      exact ⟨hi, hj⟩
  apart := by
    obtain ⟨hapart, -, -⟩ := List.pairwise_append.mp h.apart
    refine List.pairwise_append.mpr ⟨hapart, List.pairwise_singleton _ _, fun o ho next hnext => ?_⟩
    obtain rfl := List.mem_singleton.mp hnext
    exact hfront o ho
  placed := by
    have hplaced := h.placed
    rw [nodesAll_append] at hplaced
    rw [nodesAll_append, nodesAll_singleton, nodes]
    intro o ho
    rcases List.mem_append.mp ho with ho | ho
    · exact hplaced o (List.mem_append_left _ ho)
    rcases List.mem_cons.mp ho with rfl | ho
    · refine ⟨hst, ?_, hs, ht, hos, (List.pairwise_append.mp h.apart).2.1⟩
      exact String.Pos.Raw.le_iff.mp ht.le_rawEndPos
    · exact hplaced o (List.mem_append_right _ ho)
  braced := by
    have hbraced := h.braced
    rw [nodesAll_append] at hbraced
    rw [nodesAll_append, nodesAll_singleton, nodes]
    intro o ho
    rcases List.mem_append.mp ho with ho | ho
    · exact hbraced o (List.mem_append_left _ ho)
    rcases List.mem_cons.mp ho with rfl | ho
    · exact hkind
    · exact hbraced o (List.mem_append_right _ ho)
  growing := by
    have hbounds := h.bounds
    rw [postorderAll_append] at hbounds
    rw [postorderAll_append, postorderAll_singleton, postorder, ← List.append_assoc,
      ← postorderAll_append]
    refine List.pairwise_append.mpr ⟨h.growing, List.pairwise_singleton _ _, fun id hid next hnext => ?_⟩
    obtain rfl := List.mem_singleton.mp hnext
    exact (h.bounds id hid).2
  bounds := by
    rw [postorderAll_append, postorderAll_singleton, postorder, ← List.append_assoc,
      ← postorderAll_append]
    intro id hid
    rcases List.mem_append.mp hid with hid | hid
    · exact ⟨(h.bounds id hid).1, Nat.lt_succ_of_lt (h.bounds id hid).2⟩
    · obtain rfl := List.mem_singleton.mp hid
      exact ⟨h.first_le_last, Nat.lt_succ_self _⟩

/-- Outlines become the parts of a node that covers them. -/
theorem cover {kind : NodeKind} {s t : Nat} (h : InOrder text i j a b os)
    (hkind : kind = .block → Span.IsBraced text ⟨s, t⟩) (hs : String.Pos.Raw.IsValid text ⟨s⟩)
    (ht : String.Pos.Raw.IsValid text ⟨t⟩) (hst : s ≤ t)
    (hos : ∀ o ∈ os, s ≤ o.span.start ∧ o.span.stop ≤ t) (hi : i ≤ s) (hj : t ≤ j) :
    InOrder text i j a (b + 1) [.node kind ⟨b, ⟨s, t⟩⟩ os] := by
  rw [← List.nil_append os] at h
  exact h.wrap hkind hs ht hst (fun _ ho => absurd ho List.not_mem_nil) hos hi hj

theorem node {kind : NodeKind} (h : InOrder text i j a b os)
    (hkind : kind = .block → Span.IsBraced text ⟨i', j'⟩) (hs : String.Pos.Raw.IsValid text ⟨i'⟩)
    (ht : String.Pos.Raw.IsValid text ⟨j'⟩) (hi : i' ≤ i) (hj : j ≤ j') :
    InOrder text i' j' a (b + 1) [.node kind ⟨b, ⟨i', j'⟩⟩ os] := by
  have h := h.mono hi hj
  exact h.cover hkind hs ht h.start_le_stop h.inside (Nat.le_refl _) (Nat.le_refl _)

/-- The first of several outlines begins between characters. -/
theorem start_valid {o : Outline} (h : InOrder text i j a b os) (ho : o ∈ os) :
    String.Pos.Raw.IsValid text ⟨o.span.start⟩ :=
  (h.placed o (mem_nodesAll ho)).start_valid

theorem stop_valid {o : Outline} (h : InOrder text i j a b os) (ho : o ∈ os) :
    String.Pos.Raw.IsValid text ⟨o.span.stop⟩ :=
  (h.placed o (mem_nodesAll ho)).stop_valid

theorem span_le {o : Outline} (h : InOrder text i j a b os) (ho : o ∈ os) :
    o.span.start ≤ o.span.stop :=
  (h.placed o (mem_nodesAll ho)).start_le_stop

end InOrder

end MacroEngine
