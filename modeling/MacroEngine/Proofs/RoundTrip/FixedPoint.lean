import MacroEngine.Proofs.Parsed.Nodes
import MacroEngine.Proofs.RoundTrip.ParsePrint

/-!
# Printing what was parsed

The tree of a text is regular, so it is well formed once no statement and no body of an arrow begins
with an empty object that something else follows. Then the printed text is parsed again, and the
tree that this gives is printed in the same way. An empty object at the start of a statement can be
told from a block by a comma, which the printed text does not have: there the printed text has no
tree.
-/

namespace MacroEngine

def Expr.isEmptyObject : Expr → Bool
  | .object _ [] => true
  | _ => false

theorem Expr.isEmptyObject_iff (e : Expr) : e.isEmptyObject = true ↔ ∃ s, e = .object s [] := by
  unfold isEmptyObject
  split
  · simp
  · rename_i hnot
    exact ⟨nofun, fun ⟨s, heq⟩ => absurd heq (hnot s)⟩

def Item.isClear : Item → Bool
  | .stmt (.expr _ e) => Printer.needsParens e || !e.opening.isEmptyObject
  | .expr (.arrowExpr _ _ _ body) => Printer.isObject body || !body.opening.isEmptyObject
  | _ => true

theorem Item.isClear_iff (item : Item) : item.isClear = true ↔ item.Clear := by
  unfold isClear Clear
  split
  · simp [Expr.opensWithEmptyObject, ← Expr.isEmptyObject_iff]
  · simp [Expr.opensWithEmptyObject, ← Expr.isEmptyObject_iff]
  · simp

instance : DecidablePred Item.Clear := fun item => decidable_of_iff _ item.isClear_iff

variable {path : SourcePath} {text : String} {file file' : SourceFile} {n k : NodeId}

/-- The tree of a text is well formed once it is clear. -/
theorem SourceFile.wellFormed_of_parse (h : (SourceFile.parse path text).run n = (.ok file, k))
    (hclear : ∀ item ∈ file.items, item.Clear) : file.WellFormed :=
  fun item hitem => ⟨(SourceFile.parse_numbered h).1.regular item hitem, hclear item hitem⟩

/-- A tree prints like one with nodes for the parentheses that printing adds. -/
theorem SourceFile.print_eq_of_recast
    (h : Stmt.recastAll .bare file'.statements = Stmt.recastAll .explicit file.statements) :
    file'.print = file.print :=
  calc file'.print
      = Stmt.linesAt 0 (Stmt.recastAll .bare file'.statements) :=
        (Stmt.linesAt_recastAll false 0 file'.statements).symm
    _ = Stmt.linesAt 0 (Stmt.recastAll .explicit file.statements) := by rw [h]
    _ = file.print := Stmt.linesAt_recastAll true 0 file.statements

/-- Printing is a fixed point of reparsing: whatever text the tree comes from, if it is clear, then
its printed text is parsed, and the tree of the printed text is printed to the very same text. -/
theorem SourceFile.print_parse_print (h : (SourceFile.parse path text).run n = (.ok file, k))
    (hclear : ∀ item ∈ file.items, item.Clear) (path' : SourcePath) (n' : NodeId) :
    ∃ file' k', (SourceFile.parse path' file.print).run n' = (.ok file', k') ∧
      file'.print = file.print := by
  obtain ⟨file', k', hparse, hrecast⟩ :=
    file.parse_print_explicit (SourceFile.wellFormed_of_parse h hclear) path' n'
  refine ⟨file', k', ?_, SourceFile.print_eq_of_recast hrecast⟩
  unfold StateT.run
  exact hparse

/-- Empty objects in parentheses, after a block and behind an arrow. -/
def braced : String := "\x7b\x7d (\x7b,\x7d).a; f = () => (\x7b,\x7d);"

theorem print_parse_print_braced : ∃ file k,
    (SourceFile.parse ⟨"main.kn"⟩ braced).run 0 = (.ok file, k) ∧
      (∀ item ∈ file.items, item.Clear) ∧ ∃ file' k',
        (SourceFile.parse ⟨"main.kn"⟩ file.print).run k = (.ok file', k') ∧
          file'.print = file.print := by
  have hclear : (match (SourceFile.parse ⟨"main.kn"⟩ braced).run 0 with
    | (.ok file, _) => decide (∀ item ∈ file.items, item.Clear)
    | (.error _, _) => false) = true := by decide +kernel
  generalize hparse : (SourceFile.parse ⟨"main.kn"⟩ braced).run 0 = out at hclear
  obtain ⟨_ | file, k⟩ := out
  · cases hclear
  · have hclear := of_decide_eq_true hclear
    exact ⟨file, k, rfl, hclear, SourceFile.print_parse_print hparse hclear _ _⟩

/-- A comma makes an object of what would be a block. -/
def openedByObject : String := "\x7b,\x7d.a;"

/-- The printed text of a tree that is not clear need not be a text of any tree. -/
theorem not_parse_print_openedByObject : ∃ file k,
    (SourceFile.parse ⟨"main.kn"⟩ openedByObject).run 0 = (.ok file, k) ∧
      file.print = "\x7b\x7d.a;\n" ∧ ∀ file' k',
        (SourceFile.parse ⟨"main.kn"⟩ file.print).run k ≠ (.ok file', k') := by
  have hprint : (match (SourceFile.parse ⟨"main.kn"⟩ openedByObject).run 0 with
    | (.ok file, _) => file.print == "\x7b\x7d.a;\n"
    | (.error _, _) => false) = true := by decide +kernel
  have hrefused : (match Grammar.recognize "\x7b\x7d.a;\n".toList with
    | .ok _ => false
    | .error _ => true) = true := by decide +kernel
  generalize (SourceFile.parse ⟨"main.kn"⟩ openedByObject).run 0 = out at hprint
  obtain ⟨_ | file, k⟩ := out
  · cases hprint
  · refine ⟨file, k, rfl, beq_iff_eq.mp hprint, fun file' k' hrun => ?_⟩
    rw [beq_iff_eq.mp hprint] at hrun
    unfold SourceFile.parse at hrun
    generalize Grammar.recognize "\x7b\x7d.a;\n".toList = out at hrefused hrun
    cases out with
    | ok => cases hrefused
    | error => cases hrun

end MacroEngine
