import MacroEngine.Proofs.Trivia.Crossing

/-!
# Literals in a text

The rules for literals read a literal from its first delimiter to its last one, whatever comes behind
it, and nothing else.
-/

namespace MacroEngine.Grammar

open Text (byteLength)

section Literals

variable {l : List Char} {r : Rule}

/-- One rule reads a literal, and its pair holds one for the inside. The other rule for literals does
not. -/
theorem Literal.exists_rule (hl : Literal l) : ∃ r inner q body,
    (∀ i rest, ∃ j k, Matches .loose (.rule r) ⟨i, l ++ rest⟩ (some (⟨j, rest⟩,
      [.mk r i j (l ++ rest) [.mk inner k (k + byteLength body) (body ++ q :: rest) []]]))) ∧
    ∀ r', r' = .string ∨ r' = .template → r' ≠ r →
      ∀ i rest, Matches .loose (.rule r') ⟨i, l ++ rest⟩ none := by
  cases hl with
  | @string q body hq h =>
    have htemplate (i : Nat) (rest : List Char) :
        Matches .loose (.rule .template) ⟨i, q :: (body ++ [q]) ++ rest⟩ none := by
      refine .initial_none rfl fun c hc => ?_
      obtain rfl := Option.some.inj hc
      rcases hq with rfl | rfl <;> rfl
    have hother (r : Rule) (hr : r = .string ∨ r = .template) (hne : r ≠ .string) (i : Nat)
        (rest : List Char) : Matches .loose (.rule r) ⟨i, q :: (body ++ [q]) ++ rest⟩ none := by
      obtain rfl := hr.resolve_left hne
      exact htemplate i rest
    exact ⟨.string, insideRule q, q, body, fun i rest => ⟨_, _, .string hq h i rest⟩, hother⟩
  | @template body h =>
    refine ⟨.template, .templateRaw, '`', body, fun i rest => ?_, fun r hr hne i rest => ?_⟩
    · exact ⟨_, _, .template h i rest⟩
    · obtain rfl := hr.resolve_right hne
      refine .initial_none rfl fun c hc => ?_
      obtain rfl := Option.some.inj hc
      rfl

/-- Two matches of one literal, with whatever text behind it. -/
theorem Literal.agree (hl : Literal l) (hr : r = .string ∨ r = .template) (i i' : Nat)
    (rest rest' : List Char) : ∃ o o', Matches .loose (.rule r) ⟨i, l ++ rest⟩ o ∧
      Matches .loose (.rule r) ⟨i', l ++ rest'⟩ o' ∧
      o.Agree (fun cs cs' => cs = rest ∧ cs' = rest') o' := by
  obtain ⟨q, inner, close, body, hreads, hother⟩ := hl.exists_rule
  by_cases hq : r = q
  · subst hq
    obtain ⟨j, k, h⟩ := hreads i rest
    obtain ⟨j', k', h'⟩ := hreads i' rest'
    refine ⟨_, _, h, h', .some ⟨rfl, rfl⟩ (.cons (.mk (fun hspelled => ?_) ?_) .nil)⟩
    · rcases hr with rfl | rfl <;> cases hspelled
    · refine .cons (.mk (fun _ => ?_) .nil) .nil
      rw [Pair.text_mk, Pair.text_mk]
  · exact ⟨none, none, hother r hr hq i rest, hother r hr hq i' rest', .none⟩

end Literals

end MacroEngine.Grammar
