import MacroEngine.Proofs.Order.Compiled
import MacroEngine.Proofs.Policies.Misses

/-!
# Compiling under different policies

What a program meets does not depend on the policies: each expansion adds the derive names that mean
nothing and the patches that found no anchor, and parsing, registering and lowering know no policy.
So the misses of a program are the same under all policies, up to the first one that is fatal.
-/

namespace MacroEngine

namespace Policies

/-- What policies make of misses: the warnings, or the first one that is fatal. -/
def verdict (P : Policies) (misses : List Error) : Except Error (List String) :=
  match P.fatal? misses with
  | some e => .error e
  | none => .ok (P.warned misses)

variable {P : Policies} {misses more : List Error}

end Policies

def Config.under (config : Config) (P : Policies) : Config :=
  { config with unresolvedDerive := P.derives, unmatchedAnchor := P.anchors }

section Files

variable {r : Registry}

def Expanded.saying (out : Expanded) (warnings : List String) : Expanded :=
  { out with final := out.final.saying warnings }

end Files

namespace Session

def under (s : Session) (P : Policies) : Session := { s with config := s.config.under P }

def saying (s : Session) (warnings : List String) : Session := { s with warnings }

section Steps

variable {α β : Type}

/-- The misses that a step meets when it starts from a session. Where none of them is fatal the step
does what it does if it ignores them, and warns; otherwise it fails with the first fatal one. -/
structure Meets (x : Step α) (s : Session) (misses : List Error) : Prop where
  missed : ∀ e ∈ misses, e.IsMiss (x.run.run (s.under .lenient)).2.registry
  tolerated : ∀ P ws, P.fatal? misses = none → x.run.run ((s.under P).saying ws) =
    ((x.run.run (s.under .lenient)).1,
      ((x.run.run (s.under .lenient)).2.under P).saying (ws ++ P.warned misses))
  refused : ∀ P ws e, P.fatal? misses = some e →
    (x.run.run ((s.under P).saying ws)).1 = .error e

def Tracks (x : Step α) : Prop := ∀ s, ∃ misses, Meets x s misses

/-- A step that knows neither policies nor warnings. -/
def Indifferent (x : Step α) : Prop := ∀ s P ws, x.run.run ((s.under P).saying ws) =
  ((x.run.run s).1, ((x.run.run s).2.under P).saying ws)

theorem Indifferent.pure (a : α) : Indifferent (Pure.pure a) := fun _ _ _ => rfl

theorem Indifferent.bind {x : Step α} {f : α → Step β} (hx : Indifferent x)
    (hf : ∀ a, Indifferent (f a)) : Indifferent (x >>= f) := by
  intro s P ws
  rw [run_bind, hx s P ws, run_bind]
  generalize x.run.run s = out
  obtain ⟨e | a, s'⟩ := out
  · rfl
  · exact hf a s' P ws

theorem Indifferent.mapM {f : α → Step β} (hf : ∀ a, Indifferent (f a)) (as : List α) :
    Indifferent (as.mapM f) := by
  induction as with
  | nil => exact .pure []
  | cons a as ih =>
    rw [List.mapM_cons]
    exact (hf a).bind fun b => ih.bind fun bs => .pure (b :: bs)

theorem Indifferent.tracks {x : Step α} (hx : Indifferent x) : Tracks x := by
  refine fun s => ⟨[], fun _ h => absurd h List.not_mem_nil, fun P ws _ => ?_, fun _ _ _ h => nomatch h⟩
  have hlenient : x.run.run (s.under .lenient) = _ := hx s .lenient s.warnings
  rw [hx s P ws, hlenient, Policies.warned_nil, List.append_nil]
  rfl

theorem run_bind_of_error {x : Step α} {f : α → Step β} {s : Session} {e : Error}
    (h : (x.run.run s).1 = .error e) : ((x >>= f).run.run s).1 = .error e := by
  rw [run_bind]
  generalize x.run.run s = out at h
  obtain ⟨_, s'⟩ := out
  obtain rfl := h
  rfl

/-- Misses of one step after the other, if the second one does not change what derive names mean. -/
theorem Tracks.bind {x : Step α} {f : α → Step β} (hx : Tracks x) (hf : ∀ a, Tracks (f a))
    (hkeeps : ∀ a, OnlyRuns (f a)) : Tracks (x >>= f) := by
  intro s
  obtain ⟨misses, hmisses⟩ := hx s
  obtain ⟨hmissed, htolerated, hrefused⟩ := hmisses
  have hlenient : x.run.run (s.under .lenient) = _ :=
    htolerated .lenient s.warnings (Policies.lenient_fatal? _)
  cases hout : x.run.run (s.under .lenient) with | mk outcome s₁ => ?_
  rw [hout] at hmissed hlenient
  simp only [hout] at htolerated
  cases outcome with
  | error e =>
    have hrun : (x >>= f).run.run (s.under .lenient) = (.error e, s₁) := by rw [run_bind, hout]
    refine ⟨misses, fun e he => ?_, fun P ws hnone => ?_, fun P ws e hsome => ?_⟩
    · rw [hrun]
      exact hmissed e he
    · rw [run_bind, htolerated P ws hnone, hrun]
    · exact run_bind_of_error (hrefused P ws e hsome)
  | ok a =>
    obtain ⟨more, hmore⟩ := hf a s₁
    have hconfig : s₁.config = s₁.config.under .lenient := congrArg (·.2.config) hlenient
    have hs₁ : s₁.under .lenient = s₁ := by rw [under, ← hconfig]
    have hrun : (x >>= f).run.run (s.under .lenient) = (f a).run.run (s₁.under .lenient) := by
      rw [run_bind, hout, hs₁]
    refine ⟨misses ++ more, fun e he => ?_, fun P ws hnone => ?_, fun P ws e hsome => ?_⟩
    · rw [hrun]
      rcases List.mem_append.mp he with he | he
      · rw [(hkeeps a _).registry]
        exact hmissed e he
      · exact hmore.missed e he
    · rw [Policies.fatal?_append, Option.or_eq_none_iff] at hnone
      rw [run_bind, htolerated P ws hnone.1, hrun, Policies.warned_append, ← List.append_assoc]
      exact hmore.tolerated P _ hnone.2
    · rw [Policies.fatal?_append] at hsome
      cases hfatal : P.fatal? misses with
      | some e' =>
        rw [hfatal, Option.some_or] at hsome
        exact run_bind_of_error (hrefused P ws e (hfatal.trans hsome))
      | none =>
        rw [hfatal, Option.none_or] at hsome
        rw [run_bind, htolerated P ws hfatal]
        exact hmore.refused P _ e hsome

theorem Tracks.mapM {f : α → Step β} (hf : ∀ a, Tracks (f a)) (hkeeps : ∀ a, OnlyRuns (f a))
    (as : List α) : Tracks (as.mapM f) := by
  induction as with
  | nil => exact (Indifferent.pure []).tracks
  | cons a as ih =>
    rw [List.mapM_cons]
    refine (hf a).bind (fun b => ih.bind (fun bs => (Indifferent.pure _).tracks) fun bs => .pure _)
      fun b => OnlyRuns.bind (.mapM hkeeps as) fun bs => .pure _

end Steps

end Session

end MacroEngine
