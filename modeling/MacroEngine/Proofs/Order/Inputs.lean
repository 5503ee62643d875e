import Mathlib.Logic.Function.Basic
import MacroEngine.Proofs.Order.Reading
import MacroEngine.Proofs.Unchanged.Sessions

/-!
# Parsing files in another order

When the inputs of a program change places, so do the intervals of numbers that their files get. A
permutation of the numbers takes the files of one order to those of the other. It moves no number
that was given before or is given later.
-/

namespace MacroEngine

open Grammar

inductive Parses : Nat → List (SourcePath × String) → List SourceFile → Nat → Prop
  | nil (n : Nat) : Parses n [] [] n
  | cons {n m k : Nat} {path : SourcePath} {text : String} {file : SourceFile}
    {inputs : List (SourcePath × String)} {files : List SourceFile}
    (head : (SourceFile.parse path text).run n = (.ok file, m)) (tail : Parses m inputs files k) :
    Parses n ((path, text) :: inputs) (file :: files) k

/-- A renumbering that moves numbers between `n` and `k` only. -/
structure Shuffles (π : Nat → Nat) (n k : Nat) : Prop where
  injective : Function.Injective π
  fixes : ∀ i, i < n ∨ k ≤ i → π i = i

namespace Shuffles

variable {π σ : Nat → Nat} {n m k : Nat}

theorem refl (n k : Nat) : Shuffles id n k := ⟨Function.injective_id, fun _ _ => rfl⟩

theorem trans (h : Shuffles π n k) (h' : Shuffles σ n k) : Shuffles (fun i => σ (π i)) n k where
  injective := h'.injective.comp h.injective
  fixes i hi := (congrArg σ (h.fixes i hi)).trans (h'.fixes i hi)

theorem mono (h : Shuffles π m k) (hle : n ≤ m) : Shuffles π n k :=
  ⟨h.injective, fun i hi => h.fixes i (by omega)⟩

theorem lt_iff (h : Shuffles π n k) (i : Nat) : π i < k ↔ i < k := by
  constructor <;> intro hi <;> by_contra hge
  · exact hge (h.fixes i (.inr (Nat.not_lt.mp hge)) ▸ hi)
  · have hfixed := h.fixes (π i) (.inr (Nat.not_lt.mp hge))
    rw [h.injective hfixed] at hge
    exact hge hi

/-- Two intervals that stand next to each other change places. -/
def swap (n a b : Nat) (i : Nat) : Nat :=
  if i < n then i else if i < n + a then i + b else if i < n + a + b then i - a else i

theorem of_swap (n a b : Nat) : Shuffles (swap n a b) n (n + a + b) where
  injective i j hij := by
    unfold swap at hij
    split_ifs at hij <;> omega
  fixes i hi := by
    unfold swap
    split_ifs <;> omega

theorem swap_carries_left (n a b : Nat) : Carries (swap n a b) n (n + a) (n + b) := by
  intro i hi
  unfold swap
  split_ifs <;> omega

theorem swap_carries_right (n a b : Nat) : Carries (swap n a b) (n + a) (n + a + b) n := by
  intro i hi
  unfold swap
  split_ifs <;> omega

end Shuffles

/-- A file keeps its numbers if the renumbering does not move them. -/
theorem SourceFile.renumber_eq_self {path : SourcePath} {text : String} {n k : Nat}
    {file : SourceFile} (h : (SourceFile.parse path text).run n = (.ok file, k)) {π : Nat → Nat}
    (hπ : ∀ i, n ≤ i → i < k → π i = i) : file.renumber π = file := by
  have hcarries : Carries π n k n := fun i hi => hπ _ (Nat.le_add_right n i) hi
  have hagain := SourceFile.parse_renumber h hcarries
  rw [h] at hagain
  exact (Except.ok.inj (Prod.mk.inj hagain).1).symm

/-- The numbers from `n` up to `k`, and `n` in place of all others. -/
def within (n k i : Nat) : Nat := if n ≤ i ∧ i < k then i else n

/-- Only the renumbering of its own numbers matters to a file. -/
theorem SourceFile.renumber_congr {path : SourcePath} {text : String} {n k : Nat} {file : SourceFile}
    (h : (SourceFile.parse path text).run n = (.ok file, k)) {ρ σ : Nat → Nat}
    (hsame : ∀ i, n ≤ i → i < k → ρ i = σ i) : file.renumber ρ = file.renumber σ := by
  by_cases hlt : n < k
  · have hself : file.renumber (within n k) = file :=
      SourceFile.renumber_eq_self h fun i hn hk => if_pos ⟨hn, hk⟩
    have hagree : (fun i => ρ (within n k i)) = fun i => σ (within n k i) := by
      funext i
      unfold within
      split
      · rename_i hi
        exact hsame i hi.1 hi.2
      · exact hsame n (Nat.le_refl n) hlt
    -- Other numbers are sent to `n` first, where both renumberings agree.
    calc file.renumber ρ = (file.renumber (within n k)).renumber ρ := by rw [hself]
      _ = (file.renumber (within n k)).renumber σ := by
        rw [SourceFile.renumber_renumber, SourceFile.renumber_renumber, hagree]
      _ = file.renumber σ := by rw [hself]
  · rw [SourceFile.renumber_eq_self h fun i hn hk => absurd (Nat.lt_of_le_of_lt hn hk) hlt,
      SourceFile.renumber_eq_self h fun i hn hk => absurd (Nat.lt_of_le_of_lt hn hk) hlt]

namespace Parses

variable {n k : Nat} {inputs inputs' : List (SourcePath × String)} {files : List SourceFile}

theorem le (h : Parses n inputs files k) : n ≤ k := by
  induction h with
  | nil => exact Nat.le_refl _
  | @cons n _ _ path text _ _ _ head _ ih =>
    have hle := SourceFile.parse_le path text n
    rw [head] at hle
    exact Nat.le_trans hle ih

theorem renumber_eq_self (h : Parses n inputs files k) {π : Nat → Nat}
    (hπ : ∀ i, n ≤ i → i < k → π i = i) : files.map (SourceFile.renumber π) = files := by
  induction h with
  | nil => rfl
  | @cons n m k path text file _ _ head tail ih =>
    have hle := SourceFile.parse_le path text n
    rw [head] at hle
    have hfile := SourceFile.renumber_eq_self head fun i hn hm =>
      hπ i hn (Nat.lt_of_lt_of_le hm tail.le)
    rw [List.map_cons, hfile, ih fun i hm hk => hπ i (Nat.le_trans hle hm) hk]

/-- Inputs in another order are parsed too. Their files are the same with other numbers. -/
theorem perm (hperm : inputs.Perm inputs') (h : Parses n inputs files k) : ∃ π files',
    Shuffles π n k ∧ Parses n inputs' files' k ∧ files'.Perm (files.map (SourceFile.renumber π)) := by
  induction hperm generalizing n k files with
  | nil =>
    cases h
    exact ⟨id, [], .refl n n, .nil n, .refl _⟩
  | cons input hperm ih =>
    cases h with
    | @cons _ m _ path text file _ files head tail =>
      obtain ⟨π, files', hπ, hfiles', hsame⟩ := ih tail
      have hle := SourceFile.parse_le path text n
      rw [head] at hle
      have hfile := SourceFile.renumber_eq_self head fun i _ hm => hπ.fixes i (.inl hm)
      refine ⟨π, file :: files', hπ.mono hle, .cons head hfiles', ?_⟩
      rw [List.map_cons, hfile]
      exact hsame.cons file
  | swap first second rest =>
    cases h with
    | @cons _ m _ path text file _ _ head tail =>
      cases tail with
      | @cons _ m' _ path' text' file' _ files head' tail =>
        have hle := SourceFile.parse_le path text n
        have hle' := SourceFile.parse_le path' text' m
        rw [head] at hle
        rw [head'] at hle'
        obtain ⟨a, rfl⟩ := Nat.exists_eq_add_of_le hle
        obtain ⟨b, rfl⟩ := Nat.exists_eq_add_of_le hle'
        have hfront : (SourceFile.parse path' text').run n =
            (.ok (file'.renumber (Shuffles.swap n a b)), n + b) := by
          have hmoved := SourceFile.parse_renumber head' (Shuffles.swap_carries_right n a b)
          rwa [Nat.add_sub_cancel_left] at hmoved
        have hback : (SourceFile.parse path text).run (n + b) =
            (.ok (file.renumber (Shuffles.swap n a b)), n + a + b) := by
          have hmoved := SourceFile.parse_renumber head (Shuffles.swap_carries_left n a b)
          rwa [Nat.add_sub_cancel_left, Nat.add_right_comm] at hmoved
        have hswap := Shuffles.of_swap n a b
        have hrest : files.map (SourceFile.renumber (Shuffles.swap n a b)) = files :=
          tail.renumber_eq_self fun i hi _ => hswap.fixes i (.inr hi)
        refine ⟨Shuffles.swap n a b, _, ⟨hswap.injective, fun i hi => ?_⟩,
          .cons hfront (.cons hback tail), ?_⟩
        · exact hswap.fixes i (hi.imp id (Nat.le_trans tail.le))
        · rw [List.map_cons, List.map_cons, hrest]
          exact .swap _ _ _
  | trans _ _ ih ih' =>
    obtain ⟨π, files', hπ, hfiles', hsame⟩ := ih h
    obtain ⟨σ, files'', hσ, hfiles'', hsame'⟩ := ih' hfiles'
    refine ⟨fun i => σ (π i), files'', hπ.trans hσ, hfiles'', hsame'.trans ?_⟩
    have hcomp := hsame.map (SourceFile.renumber σ)
    rwa [List.map_map, show SourceFile.renumber σ ∘ SourceFile.renumber π = _ from
      funext (SourceFile.renumber_renumber π σ)] at hcomp

end Parses

end MacroEngine
