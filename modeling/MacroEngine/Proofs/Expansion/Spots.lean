import Mathlib.Data.List.Basic
import MacroEngine.Proofs.Expansion.Parts

/-!
# Where nodes stand

The nodes that a node holds immediately are those of its parts, and the nodes of a file are what its
statements hold at any depth. What is so of a node if it is so of the nodes it holds is so of every
node. A spot is a node together with the node that holds it, and the spots of a file are its nodes in
the order of the text, each with its holder.
-/

namespace MacroEngine

/-- The element has the property, and none of those before it in the list does. -/
structure IsFirst {α : Type} (p : α → Prop) (as : List α) (a : α) : Prop where
  holds : p a
  first : ∃ before after, as = before ++ a :: after ∧ ∀ b ∈ before, ¬ p b

theorem isFirst_iff {α : Type} {p : α → Prop} [DecidablePred p] {as : List α} {a : α} :
    IsFirst p as a ↔ as.find? (fun a => p a) = some a := by
  rw [List.find?_eq_some_iff_append]
  simp only [decide_eq_true_eq, Bool.not_eq_true', decide_eq_false_iff_not]
  exact ⟨fun h => ⟨h.holds, h.first⟩, fun h => ⟨h.1, h.2⟩⟩

/-- The nodes that a part is, or that stand in it side by side. -/
def Part.nodes : Part → List Item
  | .expr e => [.expr e]
  | .stmt s => [.stmt s]
  | .list ss => ss.map .stmt

namespace Item

variable {i j k : Item}

def parts : Item → List Part
  | .stmt s => s.parts
  | .expr e => e.parts

def children (i : Item) : List Item := i.parts.flatMap Part.nodes

def items : Item → List Item
  | .stmt s => s.items true
  | .expr e => e.items true

theorem items_part (p : Part) : p.items = p.nodes.flatMap items := by
  cases p with
  | expr e => exact (List.append_nil _).symm
  | stmt s => exact (List.append_nil _).symm
  | list ss =>
    rw [Part.items, Part.nodes, Stmt.itemsAll_eq_flatMap, List.flatMap_map]
    rfl

theorem items_eq (i : Item) : i.items = i :: i.children.flatMap items := by
  have hparts : i.items = i :: i.parts.flatMap Part.items := by
    cases i with
    | stmt s => exact s.items_eq_parts
    | expr e => exact e.items_eq_parts
  have hnodes : Part.items = fun p => p.nodes.flatMap items := funext items_part
  rw [hparts, children, List.flatMap_assoc, hnodes]

theorem mem_items_self (i : Item) : i ∈ i.items := by
  rw [items_eq]
  exact List.mem_cons_self

theorem length_items_lt (h : j ∈ i.children) : j.items.length < i.items.length := by
  have hsub : j.items.Sublist (i.children.flatMap items) := by
    rw [List.flatMap_def]
    exact List.sublist_flatten_of_mem (List.mem_map_of_mem h)
  rw [items_eq i, List.length_cons]
  exact Nat.lt_succ_of_le hsub.length_le

/-- What is so of a node if it is so of the nodes it holds is so of every node. -/
theorem induction {P : Item → Prop} (h : ∀ i : Item, (∀ j ∈ i.children, P j) → P i) (i : Item) :
    P i :=
  h i fun j _ => induction h j
termination_by i.items.length
decreasing_by exact length_items_lt ‹_›

/-- The nodes in a node in `k` are nodes in `k`. -/
theorem items_subset (h : i ∈ k.items) : i.items ⊆ k.items := by
  induction k using Item.induction with
  | h k ih =>
    rw [items_eq k] at h ⊢
    rcases List.mem_cons.mp h with rfl | h
    · rw [items_eq i]
      exact List.Subset.refl _
    · obtain ⟨j, hj, hi⟩ := List.mem_flatMap.mp h
      intro node hnode
      exact List.mem_cons_of_mem _ (List.mem_flatMap.mpr ⟨j, hj, ih j hj hi hnode⟩)

end Item

structure Spot where
  /-- The node that holds it immediately; none holds the statements of a file. -/
  holder? : Option Item
  node : Item

/-- A node held by another, and the spots in it, each before what stands in it. -/
def Item.spots (holder? : Option Item) (i : Item) : List Spot :=
  ⟨holder?, i⟩ :: i.children.attach.flatMap fun ⟨j, _⟩ => j.spots (some i)
termination_by i.items.length
decreasing_by exact length_items_lt ‹_›

theorem Item.spots_eq (holder? : Option Item) (i : Item) :
    i.spots holder? = ⟨holder?, i⟩ :: i.children.flatMap (Item.spots (some i)) := by
  rw [spots, List.flatMap_def, List.flatMap_def]
  exact congrArg (fun placed => _ :: placed.flatten) (List.attach_map_val (f := spots (some i)))

/-- What stands at a spot in a node is the node itself, or is held by what it stands in. -/
theorem Item.mem_children_of_mem_spots {holder? : Option Item} {i : Item} {p : Spot}
    (h : p ∈ i.spots holder?) : p = ⟨holder?, i⟩ ∨ ∃ j, p.holder? = some j ∧ p.node ∈ j.children := by
  induction i using Item.induction generalizing holder? with
  | h i ih =>
    rw [spots_eq] at h
    rcases List.mem_cons.mp h with rfl | h
    · exact .inl rfl
    · obtain ⟨j, hj, hp⟩ := List.mem_flatMap.mp h
      rcases ih j hj hp with rfl | hin
      · exact .inr ⟨i, rfl, hj⟩
      · exact .inr hin

theorem Item.map_node_spots (holder? : Option Item) (i : Item) :
    (i.spots holder?).map Spot.node = i.items := by
  induction i using Item.induction generalizing holder? with
  | h i ih =>
    rw [spots_eq, items_eq, List.map_cons, List.map_flatMap]
    exact congrArg _ (List.flatMap_congr fun j hj => ih j hj (some i))

namespace SourceFile

variable {file : SourceFile} {i : Item}

inductive Holds (file : SourceFile) : Item → Prop
  | statement {s : Stmt} (h : s ∈ file.statements) : Holds file (.stmt s)
  | child {i j : Item} (h : Holds file i) (hj : j ∈ i.children) : Holds file j

theorem items_eq_flatMap (file : SourceFile) :
    file.items = file.statements.flatMap fun s => (Item.stmt s).items :=
  Stmt.itemsAll_eq_flatMap true file.statements

theorem Holds.of_mem_items {j : Item} (h : file.Holds i) (hj : j ∈ i.items) : file.Holds j := by
  induction i using Item.induction with
  | h i ih =>
    rw [Item.items_eq] at hj
    rcases List.mem_cons.mp hj with rfl | hj
    · exact h
    · obtain ⟨k, hk, hj⟩ := List.mem_flatMap.mp hj
      exact ih k hk (h.child hk) hj

theorem holds_iff : file.Holds i ↔ i ∈ file.items := by
  rw [items_eq_flatMap, List.mem_flatMap]
  constructor
  · intro h
    induction h with
    | @statement s hs => exact ⟨s, hs, Item.mem_items_self _⟩
    | @child i j _ hj ih =>
      obtain ⟨s, hs, hi⟩ := ih
      refine ⟨s, hs, Item.items_subset hi ?_⟩
      rw [Item.items_eq]
      exact List.mem_cons_of_mem _ (List.mem_flatMap.mpr ⟨j, hj, j.mem_items_self⟩)
  · rintro ⟨s, hs, hi⟩
    exact (Holds.statement hs).of_mem_items hi

def spots (file : SourceFile) : List Spot :=
  file.statements.flatMap fun s => (Item.stmt s).spots none

/-- Its holder holds what stands at a spot. -/
theorem mem_children_of_mem_spots {p : Spot} (h : p ∈ file.spots) (hi : p.holder? = some i) :
    p.node ∈ i.children := by
  obtain ⟨s, -, hp⟩ := List.mem_flatMap.mp h
  rcases Item.mem_children_of_mem_spots hp with rfl | ⟨j, hj, hin⟩
  · cases hi
  · obtain rfl := Option.some.inj (hj.symm.trans hi)
    exact hin

theorem map_node_spots (file : SourceFile) : file.spots.map Spot.node = file.items := by
  rw [spots, items_eq_flatMap, List.map_flatMap]
  simp only [Item.map_node_spots]

end SourceFile

end MacroEngine
