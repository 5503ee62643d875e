import MacroEngine.Text.Dedent
import Mathlib.Data.List.Forall2
import Mathlib.Data.List.TakeWhile

/-!
# What dedenting takes away

`dedent` drops a blank first and a blank last line and cuts leading blanks off the lines it keeps.
The lines of its result are the kept lines one by one, each without a blank start. Where the
leading blanks are one byte wide, every line that is not blank loses the same number of bytes, the
least indentation there is.
-/

namespace MacroEngine.Text

/-- The lines `all` without a blank first line `first` and a blank last line `last`, each of which
goes unless it is the only line left. -/
structure Framed (all first kept last : List (List Char)) : Prop where
  all_eq : all = first ++ kept ++ last
  kept_ne_nil : kept ≠ []
  first_blank : first = [] ∨ ∃ line, first = [line] ∧ allBlank line
  last_blank : last = [] ∨ ∃ line, last = [line] ∧ allBlank line
  first_stays : first = [] → ∀ line more, all = line :: more → allBlank line → more = []
  last_stays : last = [] → ∀ front line, kept = front ++ [line] → allBlank line → front = []

/-- A line and what is left of it without a blank start. -/
def CutFrom (line out : List Char) : Prop := ∃ pre, line = pre ++ out ∧ allBlank pre

/-! ## Lines -/

theorem splitAt_eq_splitOn (sep : Char) (text : List Char) : splitAt sep text = text.splitOn sep := by
  induction text with
  | nil => rfl
  | cons c rest ih =>
    rw [splitAt, List.splitOn_cons_eq_if_modifyHead, ih]
    by_cases hc : c = sep
    · simp [hc]
    · rw [if_neg hc, if_neg (by simpa using hc)]
      cases h : rest.splitOn sep with
      | nil => exact absurd h (List.splitOn_ne_nil sep rest)
      | cons piece pieces => rfl

theorem not_mem_of_mem_splitAt {sep : Char} {text piece : List Char}
    (h : piece ∈ splitAt sep text) : sep ∉ piece := by
  induction text generalizing piece with
  | nil => simp_all [splitAt]
  | cons c rest ih =>
    rw [splitAt] at h
    split at h
    · obtain rfl | h := List.mem_cons.mp h
      · simp
      · exact ih h
    · next hc =>
      obtain ⟨head, pieces, heq⟩ := List.exists_cons_of_ne_nil (splitAt_ne_nil sep rest)
      rw [heq] at h ih
      obtain rfl | h := List.mem_cons.mp h
      · simp [Ne.symm hc, ih (List.mem_cons_self)]
      · exact ih (List.mem_cons_of_mem head h)

/-- Lines written one under the other are read as these lines again. -/
theorem lines_joinLines {ls : List (List Char)} (h : ∀ line ∈ ls, '\n' ∉ line) (hne : ls ≠ []) :
    lines (joinLines ls) = ls := by
  rw [lines, splitAt_eq_splitOn, joinLines, List.splitOn_intercalate '\n' h hne]

/-! ## The first and the last line -/

theorem dropBlankFirst_cases (ls : List (List Char)) :
    (dropBlankFirst ls = ls ∧ ∀ line more, ls = line :: more → allBlank line → more = []) ∨
    ∃ line, ls = line :: dropBlankFirst ls ∧ allBlank line ∧ dropBlankFirst ls ≠ [] := by
  match ls with
  | [] => exact .inl ⟨rfl, by simp⟩
  | [_] => exact .inl ⟨rfl, by simp⟩
  | first :: next :: more =>
    by_cases hblank : allBlank first
    · exact .inr ⟨first, by simp [dropBlankFirst, hblank]⟩
    · refine .inl ⟨by simp [dropBlankFirst, hblank], fun line more' heq hline => ?_⟩
      cases heq
      exact absurd hline hblank

theorem dropBlankLast_cases (ls : List (List Char)) :
    (dropBlankLast ls = ls ∧ ∀ front line, ls = front ++ [line] → allBlank line → front = []) ∨
    ∃ line, ls = dropBlankLast ls ++ [line] ∧ allBlank line ∧ dropBlankLast ls ≠ [] := by
  obtain ⟨heq, hstay⟩ | ⟨line, heq, hblank, hne⟩ := dropBlankFirst_cases ls.reverse
  · refine .inl ⟨by rw [dropBlankLast, heq, List.reverse_reverse], fun front line hls hblank => ?_⟩
    simpa using hstay line front.reverse (by simp [hls]) hblank
  · refine .inr ⟨line, ?_, hblank, by simpa [dropBlankLast] using hne⟩
    rw [← List.reverse_inj, heq]
    simp [dropBlankLast]

theorem framed_drop {ls : List (List Char)} (hls : ls ≠ []) :
    ∃ first last, Framed ls first (dropBlankLast (dropBlankFirst ls)) last := by
  have hmid : dropBlankFirst ls ≠ [] := by
    obtain ⟨heq, -⟩ | ⟨-, -, -, hne⟩ := dropBlankFirst_cases ls
    · rwa [heq]
    · exact hne
  obtain ⟨first, hfirst, hfirstBlank, hfirstStays⟩ :
      ∃ first, ls = first ++ dropBlankFirst ls ∧
        (first = [] ∨ ∃ line, first = [line] ∧ allBlank line) ∧
        (first = [] → ∀ line more, ls = line :: more → allBlank line → more = []) := by
    obtain ⟨heq, hstay⟩ | ⟨line, heq, hblank, -⟩ := dropBlankFirst_cases ls
    · exact ⟨[], by simp [heq], .inl rfl, fun _ => hstay⟩
    · exact ⟨[line], heq, .inr ⟨line, rfl, hblank⟩, nofun⟩
  obtain ⟨heq, hstay⟩ | ⟨line, heq, hblank, hne⟩ := dropBlankLast_cases (dropBlankFirst ls)
  · refine ⟨first, [], ?_, ?_, hfirstBlank, .inl rfl, hfirstStays, fun _ => ?_⟩
    · rw [List.append_nil, heq]
      exact hfirst
    · rwa [heq]
    · rwa [heq]
  · refine ⟨first, [line], ?_, hne, hfirstBlank, .inr ⟨line, rfl, hblank⟩, hfirstStays, nofun⟩
    rw [List.append_assoc, ← heq]
    exact hfirst

/-! ## Cutting a line -/

theorem byteLength_eq_zero {text : List Char} : byteLength text = 0 ↔ text = [] := by
  cases text with
  | nil => simp [byteLength]
  | cons c rest =>
    have hpos := Char.utf8Size_pos c
    simp only [byteLength, reduceCtorEq, iff_false]
    omega

theorem byteLength_eq_length {text : List Char} (h : ∀ c ∈ text, c.utf8Size = 1) :
    byteLength text = text.length := by
  induction text with
  | nil => rfl
  | cons c rest ih =>
    rw [byteLength, ih fun c' hc' => h c' (List.mem_cons_of_mem c hc'), h c (by simp),
      List.length_cons, Nat.add_comm]

/-- Cutting at a byte cuts between two characters. -/
theorem of_fromByte?_eq_some {n : Nat} {text out : List Char} (h : fromByte? n text = some out) :
    ∃ pre, text = pre ++ out ∧ byteLength pre = n := by
  induction n, text using fromByte?.induct with
  | case1 text =>
    refine ⟨[], ?_, rfl⟩
    simpa [fromByte?] using h
  | case2 n => simp [fromByte?] at h
  | case3 n c rest hc ih =>
    rw [fromByte?, if_pos hc] at h
    obtain ⟨pre, rfl, hpre⟩ := ih h
    exact ⟨c :: pre, rfl, by rw [byteLength, hpre]; omega⟩
  | case4 n c rest hc => simp [fromByte?, hc] at h

theorem fromByte?_append (pre out : List Char) :
    fromByte? (byteLength pre) (pre ++ out) = some out := by
  induction pre with
  | nil => simp [byteLength, fromByte?]
  | cons c pre ih =>
    obtain ⟨n, hn⟩ : ∃ n, c.utf8Size + byteLength pre = n + 1 :=
      Nat.exists_eq_add_one.mpr (Nat.add_pos_left (Char.utf8Size_pos c) _)
    rw [byteLength, hn, List.cons_append, fromByte?, if_pos (by omega),
      show n + 1 - c.utf8Size = byteLength pre by omega, ih]

/-! ## Blanks at the start of a line -/

theorem allBlank_append (a b : List Char) : allBlank (a ++ b) = (allBlank a && allBlank b) := by
  simp [allBlank]

theorem allBlank_takeWhile (line : List Char) : allBlank (line.takeWhile isBlank) :=
  List.all_takeWhile

theorem trimStart_append {pre : List Char} (h : allBlank pre) (out : List Char) :
    trimStart (pre ++ out) = trimStart out :=
  List.dropWhile_append_of_pos (by simpa [allBlank] using h)

theorem indentation_append {pre : List Char} (h : allBlank pre) (out : List Char) :
    indentation (pre ++ out) = byteLength pre + indentation out := by
  rw [indentation, List.takeWhile_append_of_pos (by simpa [allBlank] using h), byteLength_append,
    indentation]

theorem CutFrom.trimStart_eq {line out : List Char} (h : CutFrom line out) :
    trimStart out = trimStart line := by
  obtain ⟨pre, rfl, hblank⟩ := h
  rw [trimStart_append hblank]

/-- A start of a line that has no more bytes than its leading blanks lies within them. -/
theorem allBlank_of_byteLength_le {pre out : List Char}
    (h : byteLength pre ≤ indentation (pre ++ out)) : allBlank pre := by
  have hsplit := takeWhile_append_trimStart (pre ++ out)
  obtain ⟨more, hpre, -⟩ | ⟨more, hmore, -⟩ := List.append_eq_append_iff.mp hsplit
  · -- the blanks end inside `pre`, so `pre` has nothing after them
    have hzero : byteLength more = 0 := by
      rw [indentation] at h
      generalize (pre ++ out).takeWhile isBlank = blanks at hpre h
      rw [hpre, byteLength_append] at h
      omega
    rw [hpre, byteLength_eq_zero.mp hzero, List.append_nil]
    exact allBlank_takeWhile _
  · have hall := allBlank_takeWhile (pre ++ out)
    rw [hmore, allBlank_append, Bool.and_eq_true] at hall
    exact hall.1

/-! ## Taking the shared indentation -/

theorem cutFrom_outdent {n : Nat} {line : List Char}
    (h : allBlank line = false → n ≤ indentation line) : CutFrom line (outdent n line) := by
  rw [outdent]
  cases hcut : fromByte? n line with
  | none =>
    exact ⟨line.takeWhile isBlank, (takeWhile_append_trimStart line).symm, allBlank_takeWhile line⟩
  | some out =>
    obtain ⟨pre, rfl, rfl⟩ := of_fromByte?_eq_some hcut
    refine ⟨pre, rfl, ?_⟩
    cases hblank : allBlank (pre ++ out) with
    | true =>
      rw [allBlank_append, Bool.and_eq_true] at hblank
      exact hblank.1
    | false => exact allBlank_of_byteLength_le (h hblank)

/-- Among one-byte blanks any number of bytes up to the indentation can be cut. -/
theorem outdent_of_narrow {n : Nat} {line : List Char} (hn : n ≤ indentation line)
    (hnarrow : ∀ c ∈ line.takeWhile isBlank, c.utf8Size = 1) :
    ∃ pre, line = pre ++ outdent n line ∧ allBlank pre ∧ byteLength pre = n := by
  set blanks := line.takeWhile isBlank with hblanks
  have hline : blanks.take n ++ (blanks.drop n ++ trimStart line) = line := by
    rw [← List.append_assoc, List.take_append_drop, takeWhile_append_trimStart]
  have hlen : byteLength (blanks.take n) = n := by
    rw [indentation, byteLength_eq_length hnarrow] at hn
    rw [byteLength_eq_length fun c hc => hnarrow c (List.mem_of_mem_take hc), List.length_take,
      Nat.min_eq_left hn]
  have hcut : outdent n line = blanks.drop n ++ trimStart line := by
    have hfrom := fromByte?_append (blanks.take n) (blanks.drop n ++ trimStart line)
    rw [hlen, hline] at hfrom
    rw [outdent, hfrom, Option.getD_some]
  refine ⟨blanks.take n, by rw [hcut, hline], ?_, hlen⟩
  rw [allBlank, List.all_eq_true]
  exact fun c hc => List.mem_takeWhile_imp (List.mem_of_mem_take hc)

theorem sharedIndentation_le {ls : List (List Char)} {line : List Char} (hmem : line ∈ ls)
    (hline : allBlank line = false) : sharedIndentation ls ≤ indentation line := by
  have hmem' : indentation line ∈ (ls.filter fun line => !allBlank line).map indentation :=
    List.mem_map_of_mem (List.mem_filter.mpr ⟨hmem, by simp [hline]⟩)
  rw [sharedIndentation]
  exact List.min?_getD_le_of_mem hmem'

theorem exists_indentation_eq {ls : List (List Char)} (h : ∃ line ∈ ls, allBlank line = false) :
    ∃ line ∈ ls, allBlank line = false ∧ indentation line = sharedIndentation ls := by
  obtain ⟨line, hmem, hline⟩ := h
  cases hmin : ((ls.filter fun line => !allBlank line).map indentation).min? with
  | none =>
    have hempty := List.min?_eq_none_iff.mp hmin
    simp only [List.map_eq_nil_iff, List.filter_eq_nil_iff, Bool.not_eq_true'] at hempty
    exact absurd hline (hempty line hmem)
  | some n =>
    obtain ⟨least, hleast, rfl⟩ := List.mem_map.mp (List.min?_mem hmin)
    rw [List.mem_filter, Bool.not_eq_true'] at hleast
    exact ⟨least, hleast.1, hleast.2, by rw [sharedIndentation, hmin, Option.getD_some]⟩

theorem lines_dedent (raw : String) :
    lines (dedent raw).toList =
      (dropBlankLast (dropBlankFirst (lines raw.toList))).map
        (outdent (sharedIndentation (dropBlankLast (dropBlankFirst (lines raw.toList))))) := by
  obtain ⟨first, last, hframed⟩ := framed_drop (splitAt_ne_nil '\n' raw.toList)
  rw [← lines] at hframed
  generalize hkept : dropBlankLast (dropBlankFirst (lines raw.toList)) = kept at hframed
  simp only [dedent, hkept, String.toList_ofList]
  refine lines_joinLines (fun out hout => ?_) (by simpa using hframed.kept_ne_nil)
  obtain ⟨line, hmem, rfl⟩ := List.mem_map.mp hout
  obtain ⟨pre, hline, -⟩ := cutFrom_outdent fun hblank => sharedIndentation_le hmem hblank
  have hlines : line ∈ lines raw.toList := by
    rw [hframed.all_eq]
    simp [hmem]
  have hnot : '\n' ∉ line := not_mem_of_mem_splitAt hlines
  exact fun hbreak => hnot (by rw [hline]; exact List.mem_append_right _ hbreak)

/-- Dedenting drops at most a blank first and a blank last line and takes from every line a blank
start. Among one-byte blanks the lines that are not blank lose as many bytes as the least indented
of them has, so that line comes to start in the first column. -/
theorem dedent_takes_indentation (raw : String) :
    ∃ first kept last, Framed (lines raw.toList) first kept last ∧
      List.Forall₂ (fun line out => CutFrom line out ∧ trimStart out = trimStart line)
        kept (lines (dedent raw).toList) ∧
      ((∀ line ∈ kept, ∀ c ∈ line.takeWhile isBlank, c.utf8Size = 1) →
        ∃ n,
          List.Forall₂ (fun line out => allBlank line = false →
            ∃ pre, line = pre ++ out ∧ allBlank pre ∧ byteLength pre = n ∧
              indentation line = n + indentation out) kept (lines (dedent raw).toList) ∧
          ((∃ line ∈ kept, allBlank line = false) →
            (∃ line ∈ kept, allBlank line = false ∧ indentation line = n) ∧
            ∃ out ∈ lines (dedent raw).toList, allBlank out = false ∧ indentation out = 0)) := by
  obtain ⟨first, last, hframed⟩ := framed_drop (splitAt_ne_nil '\n' raw.toList)
  refine ⟨first, _, last, hframed, ?_, fun hnarrow => ?_⟩
  all_goals rw [lines_dedent]
  all_goals rw [← lines] at *
  all_goals generalize dropBlankLast (dropBlankFirst (lines raw.toList)) = kept at *
  · rw [List.forall₂_map_right_iff, List.forall₂_same]
    intro line hmem
    have hcut : CutFrom line (outdent (sharedIndentation kept) line) :=
      cutFrom_outdent fun hblank => sharedIndentation_le hmem hblank
    exact ⟨hcut, hcut.trimStart_eq⟩
  · have hloses : ∀ line ∈ kept, allBlank line = false →
        ∃ pre, line = pre ++ outdent (sharedIndentation kept) line ∧ allBlank pre ∧
          byteLength pre = sharedIndentation kept ∧
          indentation line =
            sharedIndentation kept + indentation (outdent (sharedIndentation kept) line) := by
      intro line hmem hline
      obtain ⟨pre, heq, hpre, hlen⟩ :=
        outdent_of_narrow (sharedIndentation_le hmem hline) (hnarrow line hmem)
      refine ⟨pre, heq, hpre, hlen, ?_⟩
      conv_lhs => rw [heq, indentation_append hpre, hlen]
    refine ⟨sharedIndentation kept, ?_, fun hexists => ?_⟩
    · rw [List.forall₂_map_right_iff, List.forall₂_same]
      exact hloses
    · obtain ⟨line, hmem, hline, hleast⟩ := exists_indentation_eq hexists
      refine ⟨⟨line, hmem, hline, hleast⟩, _, List.mem_map_of_mem hmem, ?_, ?_⟩
      all_goals obtain ⟨pre, heq, hpre, -, hindent⟩ := hloses line hmem hline
      · rw [heq, allBlank_append, hpre, Bool.true_and] at hline
        exact hline
      · omega

example : dedent "\n    a\n      b\n  " = "a\n  b" := by rfl

-- byte 2 lies inside the wide blank of the first line, which loses all its blanks instead
example : dedent "\u2003a\n  b" = "a\nb" := by rfl

end MacroEngine.Text
