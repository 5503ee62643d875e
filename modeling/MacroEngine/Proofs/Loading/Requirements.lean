import MacroEngine.Loader
import Mathlib.Data.Finset.Card
import Mathlib.Logic.Relation

/-!
# What a module requires

The modules of a table form a graph, and loading is a walk through it. `Loadable` says of a path
that everything it leads to is there and nothing leads back to itself. `resolve` is the walk without
a memory: it visits a path as often as it comes up. It succeeds on the loadable paths and on no
others, as soon as its bound exceeds the number of paths that are not above the one visited.
-/

namespace MacroEngine

namespace ModuleTable

variable {t : ModuleTable}

def Requires (t : ModuleTable) (p q : SourcePath) : Prop :=
  ∃ m, t.answer? p = some m ∧ q ∈ m.requires

/-- One path leads to another over any number of requirements. -/
abbrev Leads (t : ModuleTable) : SourcePath → SourcePath → Prop :=
  Relation.ReflTransGen t.Requires

/-- Every path that `p` leads to has a module, and none of them leads back to itself. -/
def Loadable (t : ModuleTable) (p : SourcePath) : Prop :=
  ∀ q, t.Leads p q →
    (t.answer? q).isSome ∧ ∀ q', Relation.TransGen t.Requires q q' → ¬ (q == q')

/-- A path whose loading can succeed below the paths `above`. -/
structure Safe (t : ModuleTable) (above : List SourcePath) (p : SourcePath) : Prop where
  loadable : t.Loadable p
  apart : ∀ q, t.Leads p q → above.any (· == q) = false

theorem answer?_congr {p q : SourcePath} (h : p == q) : t.answer? p = t.answer? q := by
  rw [answer?, answer?, Table.get?_congr h]

theorem Loadable.of_leads {p q : SourcePath} (h : t.Loadable p) (hq : t.Leads p q) :
    t.Loadable q := fun r hr => h r (hq.trans hr)

theorem Loadable.congr {p q : SourcePath} (hpq : p == q) (h : t.Loadable p) : t.Loadable q := by
  have hstep : ∀ r, t.Requires q r → t.Requires p r := fun r ⟨m, hm, hr⟩ =>
    ⟨m, (answer?_congr hpq).trans hm, hr⟩
  have hplus : ∀ r, Relation.TransGen t.Requires q r → Relation.TransGen t.Requires p r := by
    intro r hr
    obtain ⟨r', hr', htail⟩ := Relation.TransGen.head'_iff.mp hr
    exact .head' (hstep r' hr') htail
  intro r hr
  rcases Relation.reflTransGen_iff_eq_or_transGen.mp hr with rfl | hr
  · obtain ⟨hsome, hcycle⟩ := h p .refl
    refine ⟨answer?_congr hpq ▸ hsome, fun r' hr' hself => ?_⟩
    exact hcycle r' (hplus r' hr') (BEq.trans hpq hself)
  · exact h r (hplus r hr).to_reflTransGen

theorem Safe.of_requires {above : List SourcePath} {p q : SourcePath} (h : t.Safe above p)
    (hq : t.Requires p q) : t.Safe (above ++ [p]) q where
  loadable := h.loadable.of_leads (.single hq)
  apart r hr := by
    have hself := (h.loadable p .refl).2 r (Relation.TransGen.head' hq hr)
    simp [h.apart r (.head hq hr), hself]

theorem Safe.of_forall {above : List SourcePath} {p : SourcePath} {m : MacroModule}
    (hm : t.answer? p = some m) (hp : above.any (· == p) = false)
    (h : ∀ q ∈ m.requires, t.Safe (above ++ [p]) q) : t.Safe above p := by
  have hnext : ∀ {q}, Relation.TransGen t.Requires p q →
      ∃ r, t.Safe (above ++ [p]) r ∧ t.Leads r q := by
    intro q hq
    obtain ⟨r, ⟨m', hm', hr⟩, htail⟩ := Relation.TransGen.head'_iff.mp hq
    obtain rfl : m = m' := Option.some.inj (hm.symm.trans hm')
    exact ⟨r, h r hr, htail⟩
  have hbelow : ∀ {q}, Relation.TransGen t.Requires p q →
      above.any (· == q) = false ∧ ¬ (p == q) := by
    intro q hq
    obtain ⟨r, hr, hrq⟩ := hnext hq
    simpa using hr.apart q hrq
  refine ⟨fun q hq => ?_, fun q hq => ?_⟩ <;>
    rcases Relation.reflTransGen_iff_eq_or_transGen.mp hq with rfl | hq
  · exact ⟨by simp [hm], fun q' hq' => (hbelow hq').2⟩
  · obtain ⟨r, hr, hrq⟩ := hnext hq
    exact hr.loadable q hrq
  · exact hp
  · exact (hbelow hq).1

section Room

/-- How many paths loading `p` can still go through that are not `above`. -/
def room (t : ModuleTable) (above : List SourcePath) (p : SourcePath) : Nat :=
  (((p :: t.mentioned).map SourcePath.components).toFinset \
    (above.map SourcePath.components).toFinset).card

theorem room_lt (above : List SourcePath) (p : SourcePath) :
    t.room above p < t.mentioned.length + 2 := by
  have hcard := Finset.card_le_card (Finset.sdiff_subset
    (s := ((p :: t.mentioned).map SourcePath.components).toFinset)
    (t := (above.map SourcePath.components).toFinset))
  have hlength := List.toFinset_card_le ((p :: t.mentioned).map SourcePath.components)
  simp only [List.length_map, List.length_cons] at hlength
  unfold room
  omega

theorem requires_mentioned {p q : SourcePath} (h : t.Requires p q) : q ∈ t.mentioned := by
  obtain ⟨m, hm, hq⟩ := h
  rcases Option.or_eq_some_iff.mp hm with hget | ⟨-, hfallback⟩
  · exact List.mem_append_left _
      (List.mem_flatMap.mpr ⟨m, Table.mem_values_of_get? hget, hq⟩)
  · exact List.mem_append_right _ (by simpa [hfallback] using hq)

/-- Below a path there is room for one path less. -/
theorem room_below {above : List SourcePath} {p q : SourcePath}
    (hp : above.any (· == p) = false) (hq : t.Requires p q) :
    t.room (above ++ [p]) q < t.room above p := by
  have hmentioned : q.components ∈ t.mentioned.map SourcePath.components :=
    List.mem_map_of_mem (requires_mentioned hq)
  have hnew : p.components ∉ above.map SourcePath.components := fun hmem => by
    obtain ⟨r, hr, heq⟩ := List.mem_map.mp hmem
    exact absurd (SourcePath.beq_iff.mpr heq) (by simpa using List.any_eq_false.mp hp r hr)
  refine Finset.card_lt_card ((Finset.ssubset_iff_of_subset fun c hc => ?_).mpr
    ⟨p.components, by simpa using hnew, by simp⟩)
  simp only [Finset.mem_sdiff, List.mem_toFinset, List.map_cons, List.mem_cons, List.map_append,
    List.mem_append] at hc ⊢
  obtain ⟨hin | hin, hout⟩ := hc
  · exact ⟨.inr (hin ▸ hmentioned), fun h => hout (.inl h)⟩
  · exact ⟨.inr hin, fun h => hout (.inl h)⟩

end Room

section Resolve

def resolveAll (resolve : SourcePath → Except LoadError MacroModule) :
    List SourcePath → Except LoadError Unit
  | [] => .ok ()
  | p :: ps =>
    match resolve p with
    | .error e => .error e
    | .ok _ => resolveAll resolve ps

/-- Loads a path below the paths `above`, and keeps nothing for later. -/
def resolve (t : ModuleTable) : Nat → List SourcePath → SourcePath → Except LoadError MacroModule
  | 0, _, p => .error (.moduleNotFound p)
  | n + 1, above, p =>
    if above.any (· == p) then
      .error (.cyclic (above.dropWhile (fun q => !(q == p)) ++ [p]))
    else
      match t.answer? p with
      | none => .error (.moduleNotFound p)
      | some m =>
        match resolveAll (resolve t n (above ++ [p])) m.requires with
        | .error e => .error e
        | .ok () => .ok m

theorem resolve_of_any {above : List SourcePath} {p : SourcePath}
    (hp : above.any (· == p) = true) (n : Nat) :
    t.resolve (n + 1) above p =
      .error (.cyclic (above.dropWhile (fun q => !(q == p)) ++ [p])) := by
  rw [resolve, if_pos hp]

theorem resolve_of_none {above : List SourcePath} {p : SourcePath}
    (hp : above.any (· == p) = false) (hm : t.answer? p = none) (n : Nat) :
    t.resolve (n + 1) above p = .error (.moduleNotFound p) := by
  rw [resolve, if_neg (by simpa using hp), hm]

theorem resolve_of_some {above : List SourcePath} {p : SourcePath} {m : MacroModule}
    (hp : above.any (· == p) = false) (hm : t.answer? p = some m) (n : Nat) :
    t.resolve (n + 1) above p =
      match resolveAll (t.resolve n (above ++ [p])) m.requires with
      | .error e => .error e
      | .ok () => .ok m := by
  rw [resolve, if_neg (by simpa using hp), hm]

theorem resolveAll_eq_ok {f : SourcePath → Except LoadError MacroModule} {ps : List SourcePath} :
    resolveAll f ps = .ok () ↔ ∀ p ∈ ps, ∃ m, f p = .ok m := by
  induction ps with
  | nil => simp [resolveAll]
  | cons p ps ih =>
    rw [resolveAll]
    cases hp : f p with
    | error e => simp [hp]
    | ok m => simp [hp, ih]

/-- If not all paths can be loaded, the error is that of one of them. -/
theorem exists_of_resolveAll_eq_error {f : SourcePath → Except LoadError MacroModule}
    {ps : List SourcePath} {e : LoadError} (h : resolveAll f ps = .error e) :
    ∃ p ∈ ps, f p = .error e := by
  induction ps with
  | nil => cases h
  | cons p ps ih =>
    rw [resolveAll] at h
    cases hp : f p with
    | error e' =>
      rw [hp] at h
      obtain rfl := Except.error.inj h
      exact ⟨p, List.mem_cons_self, hp⟩
    | ok m =>
      rw [hp] at h
      obtain ⟨q, hq, hfails⟩ := ih h
      exact ⟨q, List.mem_cons_of_mem p hq, hfails⟩

/-- What has been resolved is safe. -/
theorem Safe.of_resolve {n : Nat} {above : List SourcePath} {p : SourcePath} {m : MacroModule}
    (h : t.resolve n above p = .ok m) : t.answer? p = some m ∧ t.Safe above p := by
  induction n generalizing above p m with
  | zero => cases h
  | succ n ih =>
    rw [resolve] at h
    split at h
    · cases h
    · rename_i hp
      split at h
      · cases h
      · rename_i m' hm'
        split at h
        · cases h
        · rename_i hall
          cases h
          refine ⟨hm', .of_forall hm' (by simpa using hp) fun q hq => ?_⟩
          obtain ⟨mq, hmq⟩ := resolveAll_eq_ok.mp hall q hq
          exact (ih hmq).2

/-- A safe path can be resolved, if the bound leaves room for all paths. -/
theorem Safe.resolve {n : Nat} {above : List SourcePath} {p : SourcePath} (h : t.Safe above p)
    (hn : t.room above p < n) : ∃ m, t.answer? p = some m ∧ t.resolve n above p = .ok m := by
  induction n generalizing above p with
  | zero => exact absurd hn (Nat.not_lt_zero _)
  | succ n ih =>
    have hp := h.apart p .refl
    obtain ⟨m, hm⟩ := Option.isSome_iff_exists.mp (h.loadable p .refl).1
    have hall : resolveAll (t.resolve n (above ++ [p])) m.requires = .ok () :=
      resolveAll_eq_ok.mpr fun q hq => by
        have hreq : t.Requires p q := ⟨m, hm, hq⟩
        have hroom := room_below hp hreq
        obtain ⟨mq, -, hmq⟩ := ih (h.of_requires hreq) (by omega)
        exact ⟨mq, hmq⟩
    exact ⟨m, hm, by rw [resolve_of_some hp hm, hall]⟩

end Resolve

end ModuleTable

end MacroEngine
