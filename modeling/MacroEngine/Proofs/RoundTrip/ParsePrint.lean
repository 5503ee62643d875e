import MacroEngine.Parse
import MacroEngine.Proofs.RoundTrip.Spelling
import MacroEngine.Proofs.RoundTrip.Trees

/-!
# Parsing what was printed

The printed text of a well-formed file is parsed, and gives the file again, with a node for each
pair of parentheses that printing added. Without parentheses and stamps the two files are equal.
-/

namespace MacroEngine

open Grammar

/-- The text of a file consists of the tokens of its statements. -/
theorem SourceFile.lexes_print (file : SourceFile) (h : ∀ i ∈ file.items, i.Regular) :
    Lexes file.print.toList (Stmt.toksAll file.statements) := by
  have hlines := Stmt.closesAll 0 file.statements h [] [] (.nil rfl)
  simpa [SourceFile.print] using hlines

theorem AreStmts.only {ss : List Stmt} {ps : List Pair} (h : AreStmts ss ps) :
    ps.filter (·.rule ≠ .endOfInput) = ps := by
  induction h with
  | nil => rfl
  | cons hp _ ih => simpa [hp.1] using ih

/-- A text of the tokens of some statements is matched, and its pairs are read to these. -/
theorem recognize_of_lexes {ss : List Stmt} {cs : List Char}
    (hss : ∀ s ∈ ss, ReadsStatement s.toks (s.recast .explicit)) (h : Lexes cs (Stmt.toksAll ss)) :
    ∃ p, recognize cs = .ok p ∧ ∃ ps q, p.inner = ps ++ [q] ∧ q.rule = .endOfInput ∧ AreStmts ss ps := by
  have hlooks : look 60 Host.statement [.done] = .fails ∧
      look 60 (.rule (.word "else")) [.done] = .fails := by decide
  have hstmts : TakesAgain Host.statement (Stmt.toksAll ss ++ []) (AreStmts ss) [] :=
    takes_statements hss (fails_of_look hlooks.1 rfl) (fails_of_look hlooks.2 rfl)
  have hend : Takes (.rule .endOfInput) [] (One fun p => p.rule = .endOfInput) [] := by
    refine (Takes.rule (r := .endOfInput) (P := Nil) rfl ?_).mono ?_
    · intro i cs hcs
      cases hcs with
      | nil htrim =>
        rw [htrim]
        exact ⟨_, _, .atEnd, .nil rfl, rfl⟩
    · rintro _ ⟨p, rfl, hr, -⟩
      exact ⟨p, rfl, hr⟩
  rw [List.append_nil] at hstmts
  have hempty : Matches .loose (text "") ⟨0, cs⟩ (some (⟨0, cs⟩, [])) := .lit
  obtain ⟨i, hi⟩ := gap_loose ⟨0, cs⟩
  obtain ⟨d, ps, hps, hd, hare⟩ := hstmts.star i cs h
  obtain ⟨j, hj⟩ := gap_loose d
  obtain ⟨d', qs, hqs, -, q, rfl, hq⟩ := hend j d.rest hd
  rw [← hi] at hps
  rw [← hj] at hqs
  have hbody : Matches (Style.loose.within (host .program).1) (host .program).2 ⟨0, cs⟩ _ :=
    .seq (.seq hempty hps) hqs
  exact ⟨_, (recognize_eq_ok_iff _ _).mpr ⟨_, .rule hbody⟩, ps, q, rfl, hq, hare⟩

/-- A printed file is parsed, and gives the file again, with the parentheses that printing added. -/
theorem SourceFile.parse_print_explicit (file : SourceFile) (h : file.WellFormed) (path : SourcePath)
    (next : NodeId) : ∃ file' next', SourceFile.parse path file.print next = (.ok file', next') ∧
      Stmt.recastAll .bare file'.statements = Stmt.recastAll .explicit file.statements := by
  obtain ⟨p, hp, ps, q, hinner, hq, hare⟩ := recognize_of_lexes
    (Stmt.readsAll file.statements h) (file.lexes_print fun i hi => (h i hi).1)
  have hfilter : p.inner.filter (·.rule ≠ .endOfInput) = ps := by
    rw [hinner, List.filter_append, AreStmts.only hare]
    simp [hq]
  have hfile : Gives (fileOf path p)
      (Stmt.recastAll .bare ·.statements = Stmt.recastAll .explicit file.statements) := by
    unfold fileOf
    rw [hfilter]
    exact hare.gives.bind fun ss hss => (gives_stamp _ _).bind fun stamp _ => gives_pure hss
  obtain ⟨file', next', hrun, hrecast⟩ := hfile next
  refine ⟨file', next', ?_, hrecast⟩
  unfold SourceFile.parse
  rw [hp]
  simp only [hrun]

/-- A printed file is parsed and gives the same file up to parentheses and stamps. -/
theorem SourceFile.parse_print (file : SourceFile) (h : file.WellFormed) (path : SourcePath)
    (next : NodeId) : ∃ file' next', SourceFile.parse path file.print next = (.ok file', next') ∧
      Stmt.recastAll .core file'.statements = Stmt.recastAll .core file.statements := by
  obtain ⟨file', next', hparse, hrecast⟩ := file.parse_print_explicit h path next
  refine ⟨file', next', hparse, ?_⟩
  rw [← Stmt.recastAll_core_recastAll .bare, hrecast, Stmt.recastAll_core_recastAll]

/-- The tree of `(a + b) * -(c ** {});` without a node for the parentheses. -/
def regrouped : SourceFile where
  id := 0
  path := ⟨"main.kn"⟩
  statements := [.expr default (.binary default .mul
    (.binary default .add (.ident default "a") (.ident default "b"))
    (.unary default .neg (.binary default .pow (.ident default "c") (.object default []))))]
  span := default

theorem parse_print_regrouped : regrouped.WellFormed ∧ ∃ file' next',
    SourceFile.parse regrouped.path regrouped.print 1 = (.ok file', next') ∧
      Stmt.recastAll .core file'.statements = Stmt.recastAll .core regrouped.statements := by
  have h : regrouped.WellFormed := by
    intro i hi
    simp only [regrouped, SourceFile.items, Stmt.itemsAll, Stmt.items, Expr.items, Expr.itemsProperties,
      List.append_nil, List.cons_append, List.nil_append, List.mem_cons, List.not_mem_nil,
      or_false] at hi
    rcases hi with rfl | rfl | rfl | rfl | rfl | rfl | rfl | rfl | rfl
    · refine ⟨.inr ?_, .inr ?_⟩
      · rintro ⟨_, _, _, ⟨⟩, _⟩
      · rintro ⟨_, ⟨⟩⟩
    · exact ⟨trivial, trivial⟩
    · exact ⟨trivial, trivial⟩
    · exact ⟨whole_identifier_iff.mpr (by decide), trivial⟩
    · exact ⟨whole_identifier_iff.mpr (by decide), trivial⟩
    · exact ⟨trivial, trivial⟩
    · exact ⟨trivial, trivial⟩
    · exact ⟨whole_identifier_iff.mpr (by decide), trivial⟩
    · exact ⟨trivial, trivial⟩
  exact ⟨h, regrouped.parse_print h _ _⟩

end MacroEngine
