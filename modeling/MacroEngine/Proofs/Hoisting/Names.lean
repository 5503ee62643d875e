import MacroEngine.Proofs.Operators.Calls
import MacroEngine.Proofs.Parsed.Shape
import MacroEngine.Standard
import Mathlib.Data.Set.Defs
import Mathlib.Logic.Function.Basic

/-!
# Names in trees

Every name that a tree writes counts here, be it that of a variable, a parameter, a macro, a member
or a key. What stands between the quotes of a string or between the backticks of a template is no
name. The names of hoisted expressions are told apart by their numbers.
-/

namespace MacroEngine

mutual

def Expr.names : Expr → List String
  | .number _ _ | .str _ _ | .bool _ _ | .null _ | .this _ | .template _ _ => []
  | .ident _ name => [name]
  | .tagged _ tag _ => [tag]
  | .array _ es => Expr.namesAll es
  | .object _ ps => Expr.namesProperties ps
  | .paren _ e | .unary _ _ e | .await _ e => e.names
  | .member _ o property => property :: o.names
  | .call _ c as => c.names ++ Expr.namesAll as
  | .invoke _ name as => name :: Expr.namesAll as
  | .binary _ _ l r => l.names ++ r.names
  | .assign _ t v => t.names ++ v.names
  | .arrow _ params _ b => params ++ b.names
  | .arrowExpr _ params _ e => params ++ e.names
  | .function _ head b => head.identifiers ++ b.names

def Expr.namesAll : List Expr → List String
  | [] => []
  | e :: es => e.names ++ Expr.namesAll es

def Expr.namesProperties : List (String × Expr) → List String
  | [] => []
  | (key, e) :: ps => key :: (e.names ++ Expr.namesProperties ps)

def Stmt.names : Stmt → List String
  | .ret _ none | .empty _ => []
  | .importNames _ names _ => names
  | .function _ head b => head.identifiers ++ b.names
  | .classDecl _ head ms => head.name :: (head.derives ++ Member.namesAll ms)
  | .binding _ _ name none _ => [name]
  | .binding _ _ name (some e) _ => name :: e.names
  | .expr _ e | .ret _ (some e) | .throwExpr _ e => e.names
  | .ifElse _ c t none => c.names ++ t.names
  | .ifElse _ c t (some e) => c.names ++ (t.names ++ e.names)
  | .whileLoop _ c b => c.names ++ b.names
  | .forOf _ _ name i b => name :: (i.names ++ b.names)
  | .block _ b | .defer _ b => b.names
  | .tryFinally _ b f => b.names ++ f.names

def Stmt.namesAll : List Stmt → List String
  | [] => []
  | s :: ss => s.names ++ Stmt.namesAll ss

def Member.names : Member → List String
  | .field _ name none => [name]
  | .field _ name (some e) => name :: e.names
  | .method _ head b => head.name :: (head.params ++ b.names)

def Member.namesAll : List Member → List String
  | [] => []
  | m :: ms => m.names ++ Member.namesAll ms

def Block.names : Block → List String
  | ⟨_, ss⟩ => Stmt.namesAll ss

end

def SourceFile.names (file : SourceFile) : List String := Stmt.namesAll file.statements

section Lists

theorem Expr.namesAll_eq_flatMap (es : List Expr) : Expr.namesAll es = es.flatMap Expr.names := by
  induction es with
  | nil => rfl
  | cons e es ih => rw [namesAll, ih, List.flatMap_cons]

theorem Expr.namesProperties_eq_flatMap (ps : List (String × Expr)) :
    Expr.namesProperties ps = ps.flatMap fun p => p.1 :: p.2.names := by
  induction ps with
  | nil => rfl
  | cons p ps ih => rw [namesProperties, ih, List.flatMap_cons, List.cons_append]

theorem Stmt.namesAll_eq_flatMap (ss : List Stmt) : Stmt.namesAll ss = ss.flatMap Stmt.names := by
  induction ss with
  | nil => rfl
  | cons s ss ih => rw [namesAll, ih, List.flatMap_cons]

theorem Stmt.mem_namesAll {ss : List Stmt} {name : String} :
    name ∈ Stmt.namesAll ss ↔ ∃ s ∈ ss, name ∈ s.names := by
  rw [namesAll_eq_flatMap, List.mem_flatMap]

theorem Stmt.namesAll_append (ss more : List Stmt) :
    Stmt.namesAll (ss ++ more) = Stmt.namesAll ss ++ Stmt.namesAll more := by
  simp only [Stmt.namesAll_eq_flatMap, List.flatMap_append]

theorem Stmt.namesAll_flatten (sss : List (List Stmt)) :
    Stmt.namesAll sss.flatten = sss.flatMap Stmt.namesAll := by
  induction sss with
  | nil => rfl
  | cons ss sss ih => rw [List.flatten_cons, namesAll_append, ih, List.flatMap_cons]

theorem Member.namesAll_eq_flatMap (ms : List Member) :
    Member.namesAll ms = ms.flatMap Member.names := by
  induction ms with
  | nil => rfl
  | cons m ms ih => rw [namesAll, ih, List.flatMap_cons]

theorem Block.names_eq (b : Block) : b.names = Stmt.namesAll b.stmts := by
  cases b
  rfl

end Lists

section Dotted

theorem Expr.names_memberOf (properties : List String) (object : Expr) (next : NodeId) :
    (object.memberOf next properties).names ⊆ object.names ++ properties := by
  induction properties generalizing object next with
  | nil => simp [memberOf]
  | cons property more ih =>
    refine List.Subset.trans (ih _ _) ?_
    simp [names]

/-- The names in the expression for a dotted name are those between the dots. -/
theorem Expr.names_dotted (next : NodeId) (name : String) :
    (dotted next name).names ⊆ segments name := by
  refine List.Subset.trans (names_memberOf _ _ _) ?_
  cases h : segments name with
  | nil => exact absurd (List.map_eq_nil_iff.mp h) (Text.splitAt_ne_nil '.' name.toList)
  | cons head more => simp [names]

end Dotted

def Stmt.constant? : Stmt → Option String
  | .binding _ .constant name _ _ => some name
  | _ => none

/-- A statement has become another one that stands in its place. Imports stay as they are. -/
structure Stmt.SameHead (s s' : Stmt) : Prop where
  id : s'.id = s.id
  isImport : s'.isImport = s.isImport
  constant : s'.constant? = s.constant?
  imports : s.isImport = true → s' = s

theorem Stmt.SameHead.refl (s : Stmt) : s.SameHead s := ⟨rfl, rfl, rfl, fun _ => rfl⟩

theorem Stmt.SameHead.trans {s s₁ s' : Stmt} (h : s.SameHead s₁) (h' : s₁.SameHead s') :
    s.SameHead s' :=
  ⟨h'.id.trans h.id, h'.isImport.trans h.isImport, h'.constant.trans h.constant,
    fun hs => (h'.imports (h.isImport.trans hs)).trans (h.imports hs)⟩

theorem Stmt.SameHead.of_not_import {s s' : Stmt} (hid : s'.id = s.id) (hs : s.isImport = false)
    (hs' : s'.isImport = false) (hconstant : s'.constant? = s.constant?) : s.SameHead s' :=
  ⟨hid, hs'.trans hs.symm, hconstant, fun h => absurd (hs.symm.trans h) Bool.false_ne_true⟩

/-- The name of a constant is a name in its declaration. -/
theorem Stmt.mem_names_of_constant? {s : Stmt} {name : String} (h : s.constant? = some name) :
    name ∈ s.names := by
  cases s with
  | binding stamp kind own init visibility =>
    cases kind with
    | constant =>
      obtain rfl : own = name := Option.some.inj h
      cases init <;> simp [names]
    | mutable => cases h
  | _ => cases h

namespace Standard

theorem toList_hoistedName (n : ℕ) :
    (hoistedName n).toList = "__hoisted_".toList ++ Nat.toDigits 10 n := by
  rw [← Nat.toList_repr, ← String.toList_append]
  rfl

theorem hoistedName_injective : Function.Injective hoistedName := by
  intro m n h
  have hlists := congrArg String.toList h
  rw [toList_hoistedName, toList_hoistedName, List.append_right_inj] at hlists
  rw [← Nat.ofDigitChars_ten_toDigits (n := m), hlists, Nat.ofDigitChars_ten_toDigits]

/-- A name is none of the hoisted ones with some numbers, unless its number is from `first` on and
below `next`. -/
def Fits (spared : Set ℕ) (first next : ℕ) (name : String) : Prop :=
  ∀ n ∈ spared, name = hoistedName n → first ≤ n ∧ n < next

/-- A name is none of the hoisted ones with some numbers. -/
def Spares (spared : Set ℕ) (name : String) : Prop := ∀ n ∈ spared, name ≠ hoistedName n

variable {spared : Set ℕ} {first next more n : ℕ} {name : String}

theorem Fits.mono (h : Fits spared first next name) (hle : next ≤ more) :
    Fits spared first more name :=
  fun n hn heq => ⟨(h n hn heq).1, Nat.lt_of_lt_of_le (h n hn heq).2 hle⟩

theorem Spares.fits (h : Spares spared name) (first next : ℕ) : Fits spared first next name :=
  fun n hn heq => absurd heq (h n hn)

theorem fits_hoistedName (hfirst : first ≤ n) (hnext : n < next) :
    Fits spared first next (hoistedName n) := by
  intro m _ heq
  rw [← hoistedName_injective heq]
  exact ⟨hfirst, hnext⟩

/-- A name that begins otherwise is not hoisted. -/
theorem spares_of_take (h : name.toList.take 10 ≠ "__hoisted_".toList) : Spares spared name := by
  rintro n - rfl
  rw [toList_hoistedName] at h
  exact h rfl

theorem hoistedName_not_mem {names : List String}
    (h : ∀ name ∈ names, name.toList.take 10 ≠ "__hoisted_".toList) (n : ℕ) :
    hoistedName n ∉ names := fun hname =>
  have hspared : Spares Set.univ (hoistedName n) := spares_of_take (h _ hname)
  hspared n trivial rfl

end Standard

end MacroEngine
