import MacroEngine.Grammar.Reading

/-!
# Runs of readings

What a reading yields is known step by step: a reading that goes on after another one yields
something just if both do.
-/

namespace MacroEngine.Grammar

open Reading

variable {α β : Type}

theorem run_bind_eq_some {x : Reading α} {f : α → Reading β} {n k : NodeId} {b : β} :
    (x >>= f).run n = some (b, k) ↔ ∃ a m, x.run n = some (a, m) ∧ (f a).run m = some (b, k) := by
  rw [StateT.run_bind]
  constructor
  · intro h
    obtain ⟨⟨a, m⟩, hx, hf⟩ := Option.bind_eq_some_iff.mp h
    exact ⟨a, m, hx, hf⟩
  · rintro ⟨a, m, hx, hf⟩
    exact Option.bind_eq_some_iff.mpr ⟨(a, m), hx, hf⟩

theorem run_pure_eq_some {a b : α} {n k : NodeId} :
    (pure a : Reading α).run n = some (b, k) ↔ a = b ∧ n = k := by
  change some (a, n) = some (b, k) ↔ _
  simp

theorem run_stampFrom_eq_some {i j : Nat} {s : Stamp} {n k : NodeId} :
    (stampFrom i j).run n = some (s, k) ↔ s = ⟨n, ⟨i, j⟩⟩ ∧ k = n + 1 := by
  change some (_, _) = some _ ↔ _
  simp [eq_comm]

theorem run_skipId_eq_some {n k : NodeId} {u : Unit} :
    skipId.run n = some (u, k) ↔ k = n + 1 := by
  change some (_, _) = some _ ↔ _
  simp [eq_comm]

theorem run_failure_eq_some {n : NodeId} {r : α × NodeId} :
    (failure : Reading α).run n = some r ↔ False := by
  change none = some _ ↔ _
  simp

end MacroEngine.Grammar
