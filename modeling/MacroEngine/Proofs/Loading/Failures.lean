import Mathlib.Data.List.Chain
import Mathlib.Data.List.TakeWhile
import MacroEngine.Proofs.Loading.History

/-!
# Why a module cannot be loaded

Loading fails at a module that is not there, or at one that comes up again while it is being loaded.
The paths that are being loaded form a way through the requirements from the path that was asked for,
and this is so at every depth, whatever is in memory and whatever failed before. So a missing module
is one that the path leads to, and what is reported as a cycle is one: the part of the way behind the
path that comes up again.
-/

namespace MacroEngine

namespace ModuleTable

variable {t : ModuleTable} {p q r : SourcePath} {above : List SourcePath} {e : LoadError}

/-- A way of requirements that comes back to the path where it begins, and passes no other path
twice. -/
structure IsCycle (t : ModuleTable) (chain : List SourcePath) : Prop where
  long : 2 ≤ chain.length
  returns : ∃ first last,
    chain.head? = some first ∧ chain.getLast? = some last ∧ (first == last) = true
  distinct : chain.dropLast.Pairwise fun p q => (p == q) = false
  requires : chain.IsChain t.Requires

/-- What is so if loading `p` fails: a cycle that is reported is one, and `p` leads to its first path;
a module that is reported missing is missing, and `p` leads to it. -/
structure Explains (t : ModuleTable) (p : SourcePath) (e : LoadError) : Prop where
  cyclic : ∀ chain, e = .cyclic chain → t.IsCycle chain ∧ ∀ first ∈ chain.head?, t.Leads p first
  missing : ∀ q, e = .moduleNotFound q → t.Leads p q ∧ t.answer? q = none

/-- The paths `above` lead from `p` to `q`, each of them required by the one before, and no two of
them are the same. -/
structure Way (t : ModuleTable) (p : SourcePath) (above : List SourcePath) (q : SourcePath) :
    Prop where
  requires : (above ++ [q]).IsChain t.Requires
  starts : (above ++ [q]).head? = some p
  distinct : above.Pairwise fun p q => (p == q) = false

theorem Way.start (t : ModuleTable) (p : SourcePath) : t.Way p [] p :=
  ⟨.singleton p, rfl, .nil⟩

/-- Every path on the way is one that its start leads to. -/
theorem Way.leads (h : t.Way p above q) : ∀ r ∈ above ++ [q], t.Leads p r := by
  apply h.requires.induction (t.Leads p) _ (fun _ _ hstep hleads => hleads.tail hstep)
  intro hne
  rw [(List.head_eq_iff_head?_eq_some hne).mpr h.starts]

/-- The way goes on to what is required, unless it has come back to a path on it. -/
theorem Way.below (h : t.Way p above q) (hnew : above.any (· == q) = false) (hr : t.Requires q r) :
    t.Way p (above ++ [q]) r where
  requires := by
    apply h.requires.append (.singleton r)
    simpa using hr
  starts := by
    rw [List.head?_append, h.starts]
    rfl
  distinct := by
    apply List.pairwise_append.mpr
    refine ⟨h.distinct, List.pairwise_singleton _ _, fun r hr q' hq' => ?_⟩
    rw [List.mem_singleton.mp hq']
    simpa using List.any_eq_false.mp hnew r hr

/-- A way that has come back to a path on it is a cycle from there on. -/
theorem Way.isCycle (h : t.Way p above q) (hback : above.any (· == q) = true) :
    t.IsCycle (above.dropWhile (fun r => !(r == q)) ++ [q]) := by
  have hsuffix : above.dropWhile (fun r => !(r == q)) <:+ above := List.dropWhile_suffix _
  have hfirst := List.head?_dropWhile_not (fun r => !(r == q)) above
  cases hround : above.dropWhile (fun r => !(r == q)) with
  | nil =>
    obtain ⟨r, hr, hrq⟩ := List.any_eq_true.mp hback
    have hpassed := List.dropWhile_eq_nil_iff.mp hround r hr
    rw [hrq] at hpassed
    cases hpassed
  | cons first rest =>
    rw [hround] at hsuffix hfirst
    constructor
    case long => simp
    case returns =>
      refine ⟨first, q, rfl, List.getLast?_concat, ?_⟩
      simpa using hfirst
    case distinct =>
      rw [List.dropLast_concat]
      exact h.distinct.sublist hsuffix.sublist
    case requires =>
      obtain ⟨before, hbefore⟩ := hsuffix
      apply h.requires.suffix
      exact ⟨before, by rw [← hbefore, List.append_assoc]⟩

/-- What walking the requirements of `q` reports, when the way to it began at `p`. -/
theorem Way.accounts {n : Nat} (h : t.Way p above q) (hn : t.room above q < n)
    (he : t.resolve n above q = .error e) : t.Explains p e := by
  induction n generalizing above q with
  | zero => exact absurd hn (Nat.not_lt_zero _)
  | succ n ih =>
    cases hany : above.any (· == q) with
    | true =>
      rw [resolve_of_any hany] at he
      obtain rfl := Except.error.inj he
      constructor
      · intro chain hchain
        obtain rfl := LoadError.cyclic.inj hchain
        refine ⟨h.isCycle hany, fun first hfirst => h.leads first ?_⟩
        have hsub := (List.dropWhile_sublist (l := above) fun r => !(r == q)).append_right [q]
        exact hsub.subset (List.mem_of_head? hfirst)
      · exact nofun
    | false =>
      cases hm : t.answer? q with
      | none =>
        rw [resolve_of_none hany hm] at he
        obtain rfl := Except.error.inj he
        constructor
        · exact nofun
        · intro q' hq'
          obtain rfl := LoadError.moduleNotFound.inj hq'
          exact ⟨h.leads q (List.mem_append_right _ (List.mem_singleton_self q)), hm⟩
      | some m =>
        rw [resolve_of_some hany hm] at he
        cases hall : resolveAll (t.resolve n (above ++ [q])) m.requires with
        | ok _ =>
          rw [hall] at he
          cases he
        | error e' =>
          rw [hall] at he
          obtain rfl := Except.error.inj he
          obtain ⟨r, hr, hfails⟩ := exists_of_resolveAll_eq_error hall
          have hrequires : t.Requires q r := ⟨m, hm, hr⟩
          have hroom := room_below hany hrequires
          exact ih (h.below hany hrequires) (by omega) hfails

end ModuleTable

namespace Loader

variable {table : ModuleTable} {l : Loader} {d : Declaration} {e : LoadError}

/-- Looking for the body of a declaration fails as its module does, or at what the module exports. -/
theorem loadBody_eq_error (h : ((loadBody d).run l).1 = .error e) :
    ((loadModule d.file).run l).1 = .error e ∨ e = .unreachable d.file ∨
      ∃ name, e = .exportNotFound name d.file := by
  rw [run_loadBody] at h
  cases hcached : Table.get? d.id l.bodies with
  | some body =>
    rw [hcached] at h
    cases h
  | none =>
    simp only [hcached] at h
    generalize (loadModule d.file).run l = out at h ⊢
    obtain ⟨e' | m, l'⟩ := out
    · exact .inl (congrArg Except.error (Except.error.inj h))
    · rw [found] at h
      apply Or.inr
      cases hname : d.exportName? with
      | none =>
        simp only [hname] at h
        exact .inl (Except.error.inj h).symm
      | some name =>
        cases hbody : m.get? name with
        | none =>
          simp only [hname, hbody] at h
          exact .inr ⟨name, (Except.error.inj h).symm⟩
        | some body =>
          simp only [hname, hbody] at h
          cases h

/-- In every state that calls lead to, the error of a load says what is so: the chain of a cycle goes
round through the requirements that the table answers, and the path leads to it; a module that is
said to be missing is one that the path leads to, and the table has none for it. -/
theorem Reached.explains (h : Reached table l) {p : SourcePath}
    (hfails : ((loadModule p).run l).1 = .error e ∨
      ∃ d : Declaration, d.file = p ∧ ((loadBody d).run l).1 = .error e) : table.Explains p e := by
  have hmodule : ∀ p, ((loadModule p).run l).1 = .error e → table.Explains p e := by
    intro p he
    rw [h.outcome] at he
    exact (ModuleTable.Way.start table p).accounts (ModuleTable.room_lt [] p) he
  rcases hfails with he | ⟨d, rfl, he⟩
  · exact hmodule p he
  · rcases loadBody_eq_error he with he | rfl | ⟨name, rfl⟩
    · exact hmodule d.file he
    · exact ⟨nofun, nofun⟩
    · exact ⟨nofun, nofun⟩

/-- A module in front of a cycle: it requires a module that requires none, and then one of two
modules that require each other, one of them under another spelling. -/
def approached : ModuleTable where
  modules := [(⟨"m.kn"⟩, ⟨[], [⟨"c.kn"⟩, ⟨"a.kn"⟩]⟩), (⟨"c.kn"⟩, .empty),
    (⟨"a.kn"⟩, ⟨[], [⟨"b.kn"⟩]⟩), (⟨"b.kn"⟩, ⟨[], [⟨"c.kn"⟩, ⟨"a.kn/"⟩]⟩)]
  fallback := none

def approaching : Declaration where
  id := 0
  kind := .function
  name := "f"
  shape := .function false
  file := ⟨"m.kn"⟩
  span := ⟨0, 0⟩

/-- After a load has failed, the body of a declaration in front of the cycle cannot be found; what is
reported begins behind the module that was asked for, and is a cycle. -/
theorem loadBody_approaching_again :
    ((loadBody approaching).run ((loadModule ⟨"m.kn"⟩).run (.new approached)).2).1 =
        .error (.cyclic [⟨"a.kn"⟩, ⟨"b.kn"⟩, ⟨"a.kn/"⟩]) ∧
      approached.IsCycle [⟨"a.kn"⟩, ⟨"b.kn"⟩, ⟨"a.kn/"⟩] ∧ approached.Leads ⟨"m.kn"⟩ ⟨"a.kn"⟩ := by
  have hreached : Reached approached ((loadModule ⟨"m.kn"⟩).run (.new approached)).2 :=
    Reached.new.module ⟨"m.kn"⟩
  have hfails : ((loadBody approaching).run ((loadModule ⟨"m.kn"⟩).run (.new approached)).2).1 =
      .error (.cyclic [⟨"a.kn"⟩, ⟨"b.kn"⟩, ⟨"a.kn/"⟩]) := rfl
  have hexplains := Reached.explains hreached (p := ⟨"m.kn"⟩) (.inr ⟨approaching, rfl, hfails⟩)
  obtain ⟨hcycle, hleads⟩ := hexplains.cyclic _ rfl
  exact ⟨hfails, hcycle, hleads ⟨"a.kn"⟩ rfl⟩

end Loader

end MacroEngine
