import MacroEngine.Proofs.Grammar.Lookahead

/-!
# What a name is

A rule for a name or a number reads the longest run of its characters. So the texts that such a rule
matches as a whole are known: identifiers are plain keys that are not reserved, names of properties
are plain keys, and numbers are digits with at most one point between them.
-/

namespace MacroEngine.Grammar

open Printer (isNameChar isNameStart isPlainKey)

def Whole (r : Rule) (w : String) : Prop :=
  ∃ d ps, Matches .loose (.rule r) ⟨0, w.toList⟩ (some (d, ps)) ∧ d.rest = []

section Runs

variable {accepts : Char → Bool} {cs rest : List Char} {i : Nat} {c d : Cursor} {ps : List Pair}

theorem exists_run_rest (accepts : Char → Bool) (cs : List Char) :
    ∃ run rest, cs = run ++ rest ∧ (∀ c ∈ run, accepts c = true) ∧
      ∀ c ∈ rest.head?, accepts c = false := by
  refine ⟨cs.takeWhile accepts, cs.dropWhile accepts, List.takeWhile_append_dropWhile.symm,
    List.all_eq_true.mp List.all_takeWhile, ?_⟩
  intro c hc
  cases h : cs.dropWhile accepts with
  | nil => simp [h] at hc
  | cons x xs =>
    obtain rfl : x = c := by simpa [h] using hc
    have hne : cs.dropWhile accepts ≠ [] := by simp [h]
    have hnot := List.head_dropWhile_not accepts hne
    simpa [h] using hnot

/-- In front of a name there is the whole name. -/
theorem exists_name (hcs : ∃ c ∈ cs.head?, isNameStart c = true) :
    ∃ w rest, cs = String.toList w ++ rest ∧ isPlainKey w = true ∧
      ∀ c ∈ rest.head?, isNameChar c = false := by
  obtain ⟨c, hc, hstart⟩ := hcs
  obtain ⟨xs, rfl⟩ : ∃ xs, cs = c :: xs := by
    cases cs with
    | nil => simp at hc
    | cons x xs => exact ⟨xs, by simpa using hc⟩
  obtain ⟨run, rest, rfl, hrun, hrest⟩ := exists_run_rest isNameChar xs
  refine ⟨String.ofList (c :: run), rest, by simp, ?_, hrest⟩
  exact isPlainKey_iff.mpr ⟨c, run, String.toList_ofList, hstart, hrun⟩

theorem head_of_matches {r : Rule} (hr : initial r = some accepts)
    (h : Matches .loose (.rule r) c (some (d, ps))) : ∃ x ∈ c.rest.head?, accepts x = true := by
  by_cases hnone : ∀ x ∈ c.rest.head?, accepts x = false
  · have hnot : Matches .loose (.rule r) ⟨c.offset, c.rest⟩ none := Matches.initial_none hr hnone
    exact absurd (h.unique hnot) (by simp)
  · simpa using hnone

theorem keyword_of_identifier {w : String}
    (hrest : ∀ c ∈ rest.head?, isNameChar c = false) (hmem : w ∈ Host.reserved) :
    Matches .loose (.rule .identifier) ⟨i, w.toList ++ rest⟩ none := by
  obtain ⟨r, hkey⟩ := Matches.keyword (i := i) hrest hmem
  exact .rule_none host_identifier (.seqFirst (.seqFirst (.notNot hkey)))

theorem Matches.identifier_inv (h : Matches .loose (.rule .identifier) c (some (d, ps))) :
    ∃ w, isPlainKey w = true ∧ w ∉ Host.reserved ∧ c.rest = w.toList ++ d.rest ∧
      One (IsToken .identifier w) ps := by
  obtain ⟨w, rest, heq, hw, hrest⟩ := exists_name (head_of_matches rfl h)
  obtain ⟨i, cs⟩ := c
  obtain rfl : cs = w.toList ++ rest := heq
  by_cases hmem : w ∈ Host.reserved
  · exact absurd (h.unique (keyword_of_identifier hrest hmem)) (by simp)
  · obtain ⟨ps', hps', hone⟩ := spots_identifier hmem i rest hw hrest
    obtain ⟨rfl, rfl⟩ := Prod.mk.inj (Option.some.inj (h.unique hps'))
    exact ⟨w, hw, hmem, rfl, hone⟩

theorem Matches.propertyName_inv (h : Matches .loose (.rule .propertyName) c (some (d, ps))) :
    ∃ w, isPlainKey w = true ∧ c.rest = w.toList ++ d.rest ∧
      (∀ c ∈ d.rest.head?, isNameChar c = false) ∧ One (IsToken .propertyName w) ps := by
  obtain ⟨w, rest, heq, hw, hrest⟩ := exists_name (head_of_matches rfl h)
  obtain ⟨i, cs⟩ := c
  obtain rfl : cs = w.toList ++ rest := heq
  obtain ⟨ps', hps', hone⟩ := spots_propertyName w i rest hw hrest
  obtain ⟨rfl, rfl⟩ := Prod.mk.inj (Option.some.inj (h.unique hps'))
  exact ⟨w, hw, rfl, hrest, hone⟩

/-- In front of a digit there is the whole number. -/
theorem exists_number (hcs : ∃ c ∈ cs.head?, c.isDigit = true) :
    ∃ w rest, cs = String.toList w ++ rest ∧ IsNumber w.toList ∧ (Tok.num w).Fits rest := by
  obtain ⟨c, hc, hdigit⟩ := hcs
  obtain ⟨whole, rest, rfl, hwhole, hrest⟩ := exists_run_rest Char.isDigit cs
  have hne : whole ≠ [] := by
    rintro rfl
    simp [hrest c (by simpa using hc)] at hdigit
  by_cases hpoint : ∃ x more, rest = '.' :: x :: more ∧ x.isDigit = true
  · obtain ⟨x, more, rfl, hx⟩ := hpoint
    obtain ⟨part, rest', hpart, hall, hrest'⟩ := exists_run_rest Char.isDigit (x :: more)
    have hpne : part ≠ [] := by
      rintro rfl
      obtain rfl : x :: more = rest' := hpart
      simp [hrest' x rfl] at hx
    rw [hpart]
    refine ⟨String.ofList (whole ++ '.' :: part), rest', by simp, ?_, hrest', ?_⟩
    · exact ⟨whole, part, hne, hwhole, hall, .inr ⟨by simp, hpne⟩⟩
    · intro hnot
      simp at hnot
  · refine ⟨String.ofList whole, rest, by simp, ?_, hrest, fun _ x more heq => ?_⟩
    · exact ⟨whole, [], hne, hwhole, by simp, .inl (by simp)⟩
    · cases hx : x.isDigit with
      | false => rfl
      | true => exact absurd ⟨x, more, heq, hx⟩ hpoint

theorem Matches.number_inv (h : Matches .loose (.rule .number) c (some (d, ps))) :
    ∃ w, IsNumber w.toList ∧ c.rest = w.toList ++ d.rest ∧ One (IsToken .number w) ps := by
  obtain ⟨w, rest, heq, hw, hrest⟩ := exists_number (head_of_matches rfl h)
  obtain ⟨i, cs⟩ := c
  obtain rfl : cs = w.toList ++ rest := heq
  obtain ⟨ps', hps', hone⟩ := spots_number w i rest hw hrest
  obtain ⟨rfl, rfl⟩ := Prod.mk.inj (Option.some.inj (h.unique hps'))
  exact ⟨w, hw, rfl, hone⟩

end Runs

section Whole

variable {w : String}

theorem Spots.whole {r : Rule} {t : Tok} {P : List Pair → Prop} (h : Spots (.rule r) t P)
    (valid : t.Valid) (fits : t.Fits []) (hw : t.spell = w.toList) : Whole r w := by
  obtain ⟨ps, hps, -⟩ := h 0 [] valid fits
  rw [List.append_nil, hw] at hps
  exact ⟨_, ps, hps, rfl⟩

theorem whole_identifier_iff :
    Whole .identifier w ↔ isPlainKey w = true ∧ w ∉ Host.reserved := by
  constructor
  · rintro ⟨d, ps, h, hd⟩
    obtain ⟨v, hv, hfree, heq, -⟩ := h.identifier_inv
    rw [hd, List.append_nil] at heq
    obtain rfl := String.toList_inj.mp heq
    exact ⟨hv, hfree⟩
  · rintro ⟨hw, hfree⟩
    exact (spots_identifier hfree).whole hw (by simp [Tok.Fits]) rfl

theorem whole_propertyName_iff : Whole .propertyName w ↔ isPlainKey w = true := by
  constructor
  · rintro ⟨d, ps, h, hd⟩
    obtain ⟨v, hv, heq, -⟩ := h.propertyName_inv
    rw [hd, List.append_nil] at heq
    obtain rfl := String.toList_inj.mp heq
    exact hv
  · intro hw
    exact (spots_propertyName w).whole hw (by simp [Tok.Fits]) rfl

theorem whole_number_iff : Whole .number w ↔ IsNumber w.toList := by
  constructor
  · rintro ⟨d, ps, h, hd⟩
    obtain ⟨v, hv, heq, -⟩ := h.number_inv
    rw [hd, List.append_nil] at heq
    obtain rfl := String.toList_inj.mp heq
    exact hv
  · intro hw
    exact (spots_number w).whole hw (by simp [Tok.Fits]) rfl

end Whole

end MacroEngine.Grammar
