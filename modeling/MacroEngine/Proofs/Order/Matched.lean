import MacroEngine.Proofs.Order.Compiled
import MacroEngine.Proofs.Order.Dependencies

/-!
# Two registrations of one program

When the files of a program have been registered in two orders, the sessions match: a site, a class
and a declaration mean the same up to one permutation of the numbers that parsing gave. From then on
it makes no difference how many nodes were built and which hooks were loaded before a file is
compiled.
-/

namespace MacroEngine

namespace Registry

/-- Binding sites changes the bindings only. -/
theorem exists_bindings (r : Registry) (files : List SourceFile) :
    ∃ bindings, files.foldl (fun r file => (r.bindSites file).2) r = { r with bindings } := by
  rw [foldl_bindSites]
  generalize r.entries files = found
  induction found generalizing r with
  | nil => exact ⟨r.bindings, rfl⟩
  | cons entry found ih => exact ih (r.bind entry.1 entry.2.1 entry.2.2)

def bound (r : Registry) (files : List SourceFile) : Registry :=
  files.foldl (fun r file => (r.bindSites file).2) (r.collectDependencies files).2

variable {r : Registry} {files : List SourceFile} {ds : List Declaration}

theorem Lists.follows_collectDependencies (h : r.Lists ds) (files : List SourceFile) :
    Follows (r.collectDependencies files).2 ⟨ds, ds⟩ := h.follows.perform (.follow files)

theorem Lists.bindings_collectDependencies (h : r.Lists ds) (files : List SourceFile) :
    (r.collectDependencies files).2.bindings = [] :=
  (Registry.bindings_collectDependencies r files).trans h.unbound

theorem derive?_bound (r : Registry) (files : List SourceFile) (name : String) :
    (r.bound files).derive? name = (r.collectDependencies files).2.derive? name := by
  obtain ⟨bindings, h⟩ := (r.collectDependencies files).2.exists_bindings files
  rw [bound, h]
  rfl

theorem metaprogram_bound (r : Registry) (files : List SourceFile) :
    (r.bound files).metaprogram = (r.collectDependencies files).2.metaprogram := by
  obtain ⟨bindings, h⟩ := (r.collectDependencies files).2.exists_bindings files
  rw [bound, h]

end Registry

open Registry

/-- Two sessions mean the same by the sites, classes and declarations of a program, up to a
renumbering of the numbers below `bound`. Those that it gives are below `bound'`. The program declares
`ds` in the first session, and its classes list `names` only. -/
structure Paired (π : Nat → Nat) (bound bound' : Nat) (names : String → Prop)
    (ds : List Declaration) (s s' : Session) : Prop where
  injective : ∀ i j, i < bound → j < bound → π i = π j → i = j
  lt : ∀ i, i < bound → π i < bound'
  distinct : (ds.map Declaration.id).Nodup
  below : ∀ d ∈ ds, d.id < bound
  config : s'.config = s.config
  operators : s'.operators = s.operators
  binding : ∀ (kind : MacroKind) (i : Nat), i < bound →
    s'.registry.binding? kind (π i) = (s.registry.binding? kind i).map (Declaration.renumber π)
  bound : ∀ (kind : MacroKind) (i : Nat) (d : Declaration), s.registry.binding? kind i = some d →
    i < bound ∧ d ∈ ds
  unbound : ∀ (kind : MacroKind) (i : Nat), bound' ≤ i → s'.registry.binding? kind i = none
  derive : ∀ name, names name →
    s'.registry.derive? name = (s.registry.derive? name).map (Declaration.renumber π)
  derived : ∀ name d, s.registry.derive? name = some d → d ∈ ds

/-- A renumbering below `bound`, and above it the numbers of new nodes: those from `n` on become those
from `n'` on. -/
def extend (π : Nat → Nat) (bound n n' : Nat) (i : Nat) : Nat := if i < bound then π i else i - n + n'

section Extend

variable {π : Nat → Nat} {bound n n' : Nat}

theorem extend_of_lt {i : Nat} (h : i < bound) : extend π bound n n' i = π i := if_pos h

theorem le_extend {i : Nat} (h : bound ≤ i) : n' ≤ extend π bound n n' i := by
  rw [extend, if_neg (Nat.not_lt.mpr h)]
  exact Nat.le_add_left n' (i - n)

theorem extend_lt {i used : Nat} (h : bound ≤ i) (hlt : i < bound + used) :
    extend π bound bound n' i < n' + used := by
  rw [extend, if_neg (Nat.not_lt.mpr h)]
  omega

theorem eq_of_extend_eq {i j : Nat} (hi : bound ≤ i) (hj : bound ≤ j)
    (h : extend π bound bound n' i = extend π bound bound n' j) : i = j := by
  rw [extend, extend, if_neg (Nat.not_lt.mpr hi), if_neg (Nat.not_lt.mpr hj)] at h
  omega

theorem aligned_extend (h : bound ≤ n) : Aligned (extend π bound n n') bound n n' := by
  refine ⟨h, fun i => ?_⟩
  rw [extend, if_neg (by omega)]
  omega

/-- On both sides the same number of nodes has been built. -/
theorem exists_used {m m' : Nat} (h : Aligned (extend π bound n n') bound m m') :
    ∃ used, m = n + used ∧ m' = n' + used := by
  have hle := h.le
  have hfirst := h.carries 0
  have hlater := h.carries (n - m)
  rw [extend, if_neg (by omega)] at hfirst hlater
  exact ⟨m - n, by omega, by omega⟩

end Extend

namespace Paired

variable {π : Nat → Nat} {bound bound' : Nat} {names : String → Prop} {ds : List Declaration}
  {s₀ s₀' : Session} (h : Paired π bound bound' names ds s₀ s₀') {table : ModuleTable}
  (hblind : ∀ d ∈ ds, ∀ body, table.bodyOf d = .ok body → body.Blind)
  (hkeeps : ∀ d ∈ ds, ∀ body, table.bodyOf d = .ok body → body.Keeps names)

include h

theorem apart {n n' : Nat} (hn' : bound' ≤ n') : Apart (extend π bound n n') bound := by
  intro x y hy hxy
  rw [extend_of_lt hy] at hxy
  by_cases hx : x < bound
  · rw [extend_of_lt hx] at hxy
    exact h.injective x y hx hy hxy
  · have hge : n' ≤ extend π bound n n' x := le_extend (Nat.not_lt.mp hx)
    have hlt := h.lt y hy
    omega

theorem renumber_extend {d : Declaration} (hd : d ∈ ds) (n n' : Nat) :
    d.renumber (extend π bound n n') = d.renumber π := by
  rw [Declaration.renumber, extend_of_lt (h.below d hd)]
  rfl

/-- The two programs as twins, when nodes are built from `n` on and from `n'` on. -/
def twins (n n' : Nat) (hn' : bound' ≤ n') : Twins where
  ρ := extend π bound n n'
  bound := bound
  names := names
  table := table
  declared := ds
  apart := h.apart hn'
  distinct := h.distinct
  below := h.below
  blind := hblind
  keeps := hkeeps

theorem declared'_twins {n n' : Nat} (hn' : bound' ≤ n') :
    (h.twins hblind hkeeps n n' hn').declared' = ds.map (Declaration.renumber π) :=
  List.map_congr_left fun _ hd => h.renumber_extend hd n n'

theorem map_renumber {o : Option Declaration} (ho : ∀ d, o = some d → d ∈ ds) (n n' : Nat) :
    o.map (Declaration.renumber (extend π bound n n')) = o.map (Declaration.renumber π) := by
  cases o with
  | none => rfl
  | some d => exact congrArg some (h.renumber_extend (ho d rfl) n n')

theorem binding?_of_le {kind : MacroKind} {i : Nat} (hi : bound ≤ i) :
    s₀.registry.binding? kind i = none :=
  Option.eq_none_iff_forall_ne_some.mpr fun d hd => Nat.not_lt.mpr hi (h.bound kind i d hd).1

theorem settings {n n' : Nat} (hn' : bound' ≤ n') {file : SourceFile}
    (hfile : ∀ s ∈ file.statements, s.Within names) :
    (h.twins hblind hkeeps n n' hn').Settings (file.setting s₀.registry s₀.config)
      ((file.renumber (extend π bound n n')).setting s₀'.registry s₀.config) where
  file := rfl
  within := hfile
  policy := rfl
  binding kind i := by
    change s₀'.registry.binding? kind (extend π bound n n' i) =
      (s₀.registry.binding? kind i).map (Declaration.renumber (extend π bound n n'))
    rw [h.map_renumber (fun d hd => (h.bound kind i d hd).2)]
    rcases Nat.lt_or_ge i bound with hi | hi
    · rw [extend_of_lt hi, h.binding kind i hi]
    · rw [h.unbound kind _ (Nat.le_trans hn' (le_extend hi)), h.binding?_of_le hi]
      rfl
  bound := h.bound
  derive name hname := by
    change s₀'.registry.derive? name = (s₀.registry.derive? name).map
      (Declaration.renumber (extend π bound n n'))
    rw [h.map_renumber (h.derived name), h.derive name hname]
  derived := h.derived

include hblind hkeeps

/-- A file compiles to the same in both sessions, whatever was compiled there before, and the same
number of nodes is built. -/
theorem compile {path : SourcePath} {text : String} {a b : Nat} {file : SourceFile}
    (hparse : (SourceFile.parse path text).run a = (.ok file, b)) (hb : b ≤ bound)
    (hwithin : ∀ s ∈ file.statements, s.Within names) {s s' : Session}
    (hs : s.Ready s₀ table ds) (hnext : bound ≤ s.shop.nextId)
    (hs' : s'.Ready s₀' table (ds.map (Declaration.renumber π))) (hnext' : bound' ≤ s'.shop.nextId) :
    ((Session.compileRegistered file).run.run s).1 =
        ((Session.compileRegistered (file.renumber π)).run.run s').1 ∧
      ((Session.compileRegistered file).run.run s).2.Ready s₀ table ds ∧
      ((Session.compileRegistered (file.renumber π)).run.run s').2.Ready s₀' table
        (ds.map (Declaration.renumber π)) ∧
      ∃ used,
        ((Session.compileRegistered file).run.run s).2.shop.nextId = s.shop.nextId + used ∧
        ((Session.compileRegistered (file.renumber π)).run.run s').2.shop.nextId =
          s'.shop.nextId + used := by
  have hsame : file.renumber (extend π bound s.shop.nextId s'.shop.nextId) = file.renumber π :=
    SourceFile.renumber_congr hparse fun i _ hi => extend_of_lt (Nat.lt_of_lt_of_le hi hb)
  have hstatements : ∀ stmt ∈ file.statements, stmt.id < bound := fun stmt hstmt =>
    Nat.lt_of_lt_of_le ((SourceFile.parse_numbered hparse).1.bounds (.stmt stmt)
      (Expansion.mem_itemsAll.mpr ⟨stmt, hstmt, stmt.mem_items_self true⟩)).2 hb
  obtain ⟨hanswer, hready, hready', haligned'⟩ := Session.compileRegistered_inStep h.config h.operators
    (h.settings hblind hkeeps hnext' hwithin) hstatements s s'
    ⟨hs, by rwa [declared'_twins], aligned_extend hnext⟩
  have htwin : file.renumber (h.twins hblind hkeeps s.shop.nextId s'.shop.nextId hnext').ρ =
      file.renumber π := hsame
  rw [declared'_twins] at hready'
  rw [htwin] at hanswer hready' haligned'
  exact ⟨hanswer, hready, hready', exists_used haligned'⟩

end Paired

/-- Two sessions mean the same by a program, up to a permutation of the numbers below `bound`. -/
def Matched (π : Nat → Nat) (bound : Nat) (ds : List Declaration) (s s' : Session) : Prop :=
  Paired π bound bound (fun _ => True) ds s s'

end MacroEngine
