import MacroEngine.Proofs.Trivia.Junctions
import MacroEngine.Proofs.Trivia.Reading

/-!
# Blanks and comments do not count

A text in which one gap has given way to another one is parsed like the first text, to the same tree
but for the places of its nodes. Behind `export` and in front of `default`, that is so exactly if the
other gap holds no comment.
-/

namespace MacroEngine

open Grammar

section Parsing

variable {u g g' v : List Char} {path : SourcePath} {n k : NodeId} {file : SourceFile}

theorem SourceFile.run_parse_ofList_eq_ok {cs : List Char} :
    (SourceFile.parse path (String.ofList cs)).run n = (.ok file, k) ↔
      ∃ p, recognize cs = .ok p ∧ (fileOf path p).run n = some (file, k) := by
  rw [SourceFile.run_parse_eq_ok, String.toList_ofList]

theorem SourceFile.exists_run_parse {cs : List Char} (h : (recognize cs).isOk = true)
    (path : SourcePath) (n : NodeId) :
    ∃ file k, (SourceFile.parse path (String.ofList cs)).run n = (.ok file, k) := by
  cases hp : recognize cs with
  | error m =>
    rw [hp] at h
    cases h
  | ok p =>
    obtain ⟨⟨file, k⟩, hfile⟩ := fileOf_succeeds hp path n
    exact ⟨file, k, SourceFile.run_parse_ofList_eq_ok.mpr ⟨p, hp, hfile⟩⟩

/-- One gap in place of another makes a text that is parsed exactly if no comment comes between
`export` and `default`, and to the same tree if it is. -/
theorem SourceFile.parse_exchange (h : Exchange u g g' v)
    (hparse : (SourceFile.parse path (String.ofList (u ++ (g ++ v)))).run n = (.ok file, k)) :
    ((∃ file' k', (SourceFile.parse path (String.ofList (u ++ (g' ++ v)))).run n = (.ok file', k')) ↔
        (Junction u v → ∀ c ∈ g', isSpace c = true)) ∧
      ∀ file' k', (SourceFile.parse path (String.ofList (u ++ (g' ++ v)))).run n = (.ok file', k') →
        file'.unplaced = file.unplaced ∧ k' = k := by
  obtain ⟨p, hp, hfile⟩ := SourceFile.run_parse_ofList_eq_ok.mp hparse
  -- A text that is parsed has no comment in that place, so that both directions are at hand there.
  have hblanks (hj : Junction u v) : ∀ c ∈ g, isSpace c = true :=
    hj.blanks h.scanned h.gap hp
  have hsame (hjoin : Junction u v → ∀ c ∈ g', isSpace c = true) : ∃ file',
      (SourceFile.parse path (String.ofList (u ++ (g' ++ v)))).run n = (.ok file', k) ∧
        file.unplaced = file'.unplaced := by
    obtain ⟨p', hp', halike⟩ := h.recognize (fun hj => iff_of_true (hblanks hj) (hjoin hj)) hp
    obtain ⟨file', hfile', heq⟩ := fileOf_follows hp halike path n file k hfile
    exact ⟨file', SourceFile.run_parse_ofList_eq_ok.mpr ⟨p', hp', hfile'⟩, heq⟩
  have hjoin {file' : SourceFile} {k' : NodeId}
      (hparse' : (SourceFile.parse path (String.ofList (u ++ (g' ++ v)))).run n = (.ok file', k'))
      (hj : Junction u v) : ∀ c ∈ g', isSpace c = true := by
    obtain ⟨p', hp', -⟩ := SourceFile.run_parse_ofList_eq_ok.mp hparse'
    exact hj.blanks (h.scanned.change h.head') h.gap' hp'
  refine ⟨⟨fun ⟨file', k', hparse'⟩ => hjoin hparse', fun hjoin => ?_⟩, fun file' k' hparse' => ?_⟩
  · obtain ⟨file', hparse', -⟩ := hsame hjoin
    exact ⟨file', k, hparse'⟩
  · obtain ⟨_, hparse'', heq⟩ := hsame (hjoin hparse')
    rw [hparse'] at hparse''
    obtain ⟨hfile', rfl⟩ := Prod.mk.inj hparse''
    obtain rfl := Except.ok.inj hfile'
    exact ⟨heq.symm, rfl⟩

/-- A comment behind a string that looks like the start of one. -/
theorem SourceFile.parse_exchange_string :
    Exchange "f('//'".toList [' '] "\n/* c */".toList ");".toList ∧ ∃ file k file',
      (SourceFile.parse ⟨"main.kn"⟩
        (String.ofList ("f('//'".toList ++ ([' '] ++ ");".toList)))).run 0 = (.ok file, k) ∧
      (SourceFile.parse ⟨"main.kn"⟩
        (String.ofList ("f('//'".toList ++ ("\n/* c */".toList ++ ");".toList)))).run 0 =
          (.ok file', k) ∧
      file'.unplaced = file.unplaced := by
  have hliteral : Literal "'//'".toList :=
    .string (.inr rfl) (.char (by decide) (by decide) (.char (by decide) (by decide) .nil))
  have hscanned : Scanned ([' '] ++ ");".toList) "f('//'".toList :=
    .chars_append (v := "f(".toList) (fun c hc => .inl (List.all_eq_true.mp (by decide) c hc))
      (.literal hliteral .nil)
  have hlast : ∀ c ∈ "f('//'".toList.getLast?, isSpace c = false := by
    intro c hc
    obtain rfl := Option.some.inj hc
    rfl
  have hgap : IsGap [' '] ");".toList := ⟨.space rfl .nil, by decide, by decide⟩
  have hcomment : Comment "/* c */".toList := .block (by decide : ¬ ['*', '/'] <:+: " c ".toList)
  have hother : Trivia "\n/* c */".toList := .space rfl (.comment hcomment .nil)
  have hexchange : Exchange "f('//'".toList [' '] "\n/* c */".toList ");".toList :=
    ⟨hscanned, hlast, hgap, hother, '\n', rfl, rfl⟩
  have hno : ¬ Junction "f('//'".toList ");".toList := fun hj => absurd hj.left (by decide)
  obtain ⟨file, k, hparse⟩ := SourceFile.exists_run_parse
    (by decide +kernel : (recognize ("f('//'".toList ++ ([' '] ++ ");".toList))).isOk = true)
    ⟨"main.kn"⟩ 0
  obtain ⟨haccepts, hsame⟩ := SourceFile.parse_exchange hexchange hparse
  obtain ⟨file', k', hparse'⟩ := haccepts.mpr fun hj => absurd hj hno
  obtain ⟨heq, rfl⟩ := hsame file' k' hparse'
  exact ⟨hexchange, file, k', file', hparse, hparse', heq⟩

/-- A function that is exported under no name, from the second word on. -/
def defaultFunction : List Char := "default function f() \x7b\x7d".toList

/-- With a comment between `export` and `default`, a text is refused that is accepted with a blank
there. -/
theorem SourceFile.not_parse_exchange_exportDefault :
    Exchange "export".toList [' '] " /* c */ ".toList defaultFunction ∧
      (∃ file k, (SourceFile.parse ⟨"main.kn"⟩
        (String.ofList ("export".toList ++ ([' '] ++ defaultFunction)))).run 0 = (.ok file, k)) ∧
      ¬ ∃ file k, (SourceFile.parse ⟨"main.kn"⟩
        (String.ofList ("export".toList ++ (" /* c */ ".toList ++ defaultFunction)))).run 0 =
          (.ok file, k) := by
  have hscanned : Scanned ([' '] ++ defaultFunction) "export".toList :=
    .chars_append (v := "export".toList)
      (fun c hc => .inl (List.all_eq_true.mp (by decide) c hc)) .nil
  have hcomment : Comment "/* c */".toList := .block (by decide : ¬ ['*', '/'] <:+: " c ".toList)
  have hother : Trivia " /* c */ ".toList := .space rfl (.comment hcomment (.space rfl .nil))
  have hgap : IsGap [' '] defaultFunction := ⟨.space rfl .nil, by decide, by decide⟩
  have hlast : ∀ c ∈ "export".toList.getLast?, isSpace c = false := by
    intro c hc
    obtain rfl := Option.some.inj hc
    rfl
  refine ⟨⟨hscanned, hlast, hgap, hother, ' ', rfl, rfl⟩, ?_, ?_⟩
  · exact SourceFile.exists_run_parse (by decide +kernel) _ _
  · have hrefused : (recognize
        ("export".toList ++ (" /* c */ ".toList ++ defaultFunction))).isOk = false := by
      decide +kernel
    rintro ⟨file, k, hparse⟩
    obtain ⟨p, hp, -⟩ := SourceFile.run_parse_ofList_eq_ok.mp hparse
    rw [hp] at hrefused
    cases hrefused

end Parsing

end MacroEngine
