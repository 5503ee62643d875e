import MacroEngine.Proofs.Registry.Consistency

/-!
# What a derive name means

A ledger beside the registry notes which declarations have been made and not forgotten since, and
which have been made at all since the last reset. The table of derive names keeps one entry for each
name: a new derive takes the place of an older one, and forgetting the newer one does not bring the
older one back. So a name means the derive that was declared under it last, as long as that one has
not been forgotten. It means the last of those that are left exactly if none is left or the one that
was declared last is.
-/

namespace MacroEngine

/-- Declarations in the order in which they were made: those that have not been forgotten, and all
since the last reset. -/
structure Ledger where
  live : List Declaration
  entered : List Declaration

namespace Ledger

def empty : Ledger := ⟨[], []⟩

/-- A declaration at a node that has one is not noted again. -/
def declare (l : Ledger) (d : Declaration) : Ledger :=
  if l.live.any (·.id == d.id) then l else ⟨l.live ++ [d], l.entered ++ [d]⟩

def forget (l : Ledger) (path : SourcePath) : Ledger :=
  { l with live := l.live.filter fun d => !(d.file == path) }

/-- The macros of a file are declared anew, unless one of them is bound to nothing. -/
def perform (l : Ledger) : Registry.Operation → Ledger
  | .declare d => l.declare d
  | .forget path => l.forget path
  | .reset => empty
  | .collect file =>
    match file.findings.findSome? (Finding.error? file.path) with
    | some _ => l
    | none => (file.findings.filterMap Finding.declaration?).foldl declare (l.forget file.path)
  | .bindSites _ => l
  | .follow _ => l

def after (ops : List Registry.Operation) : Ledger := ops.foldl perform empty

def isNamed (name : String) (d : Declaration) : Bool := d.kind = .derive && d.name = name

def named (name : String) (ds : List Declaration) : List Declaration := ds.filter (isNamed name)

section Named

variable {name : String} {ds : List Declaration} {d e : Declaration}

theorem named_concat_of_isNamed (h : isNamed name d = true) :
    named name (ds ++ [d]) = named name ds ++ [d] := by
  simp [named, h]

theorem named_concat_of_not (h : isNamed name d = false) :
    named name (ds ++ [d]) = named name ds := by
  simp [named, h]

theorem isNamed_of_last (h : (named name ds).getLast? = some d) : isNamed name d = true :=
  (List.mem_filter.mp (List.mem_of_getLast? h)).2

/-- The last of some declarations stays the last if it is kept. -/
theorem last_filter {keep : Declaration → Bool} (h : (named name ds).getLast? = some d)
    (hkeep : keep d = true) : (named name (ds.filter keep)).getLast? = some d := by
  obtain ⟨before, hbefore⟩ := List.getLast?_eq_some_iff.mp h
  have hcomm : named name (ds.filter keep) = (named name ds).filter keep := by
    simp [named, List.filter_filter, Bool.and_comm]
  rw [hcomm, hbefore, List.filter_append]
  simp [hkeep]

end Named

end Ledger

namespace Registry

open Ledger

/-- What a ledger says about a registry. -/
structure Follows (r : Registry) (l : Ledger) : Prop where
  consistent : r.Consistent
  live : r.declarations = l.live
  keys : (r.derives.map (·.1)).Nodup
  /-- A derive name means what was declared under it last, if that is left. -/
  means : ∀ name d, r.derive? name = some d ↔
    (named name l.entered).getLast? = some d ∧ d ∈ l.live
  /-- What was declared last under a name and is left is the last of those that are left. -/
  latest : ∀ name d, (named name l.entered).getLast? = some d → d ∈ l.live →
    (named name l.live).getLast? = some d

theorem Follows.empty : Follows .empty .empty where
  consistent := .empty
  live := rfl
  keys := .nil
  means _ _ := ⟨nofun, fun h => absurd h.2 List.not_mem_nil⟩
  latest _ _ _ h := absurd h List.not_mem_nil

variable {r : Registry} {l : Ledger}

/-- A node has a declaration just if the ledger lists one for it. -/
theorem Follows.any_id (h : Follows r l) (id : NodeId) :
    l.live.any (·.id == id) = (r.declaration? id).isSome := by
  rw [← h.live, Bool.eq_iff_iff, List.any_eq_true, Option.isSome_iff_exists]
  constructor
  · rintro ⟨d, hd, hid⟩
    exact ⟨d, (h.consistent.byId id d).mpr ⟨hd, eq_of_beq hid⟩⟩
  · rintro ⟨d, hd⟩
    obtain ⟨hd, hid⟩ := (h.consistent.byId id d).mp hd
    exact ⟨d, hd, beq_iff_eq.mpr hid⟩

theorem derive?_declare {d : Declaration} (h : r.declaration? d.id = none) (name : String) :
    (r.declare d).2.derive? name = if isNamed name d then some d else r.derive? name := by
  rw [declare_new h]
  unfold derive? isNamed
  by_cases hkind : d.kind = .derive
  · simp [hkind, Table.get?_insert]
  · simp [hkind]

theorem keys_declare {d : Declaration} (h : r.declaration? d.id = none)
    (hkeys : (r.derives.map (·.1)).Nodup) : ((r.declare d).2.derives.map (·.1)).Nodup := by
  rw [declare_new h]
  dsimp only
  split
  · rcases Table.keys_insert d.name d r.derives with heq | ⟨hnot, heq⟩
    · rwa [heq]
    · rw [heq]
      exact List.nodup_append.mpr ⟨hkeys, by simp, fun x hx y hy => by
        rintro rfl
        exact hnot (List.mem_singleton.mp hy ▸ hx)⟩
  · exact hkeys

theorem Follows.declare (h : Follows r l) (d : Declaration) :
    Follows (r.declare d).2 (l.declare d) := by
  have hany := h.any_id d.id
  have hconsistent := h.consistent.declare d
  cases hd : r.declaration? d.id with
  | some known =>
    rw [hd, Option.isSome_some] at hany
    rw [declare_known hd, Ledger.declare, if_pos hany]
    exact h
  | none =>
    rw [hd, Option.isSome_none] at hany
    have hledger : l.declare d = ⟨l.live ++ [d], l.entered ++ [d]⟩ := by
      rw [Ledger.declare, hany, if_neg Bool.false_ne_true]
    rw [hledger]
    have hother : ∀ name e, isNamed name d = false → (named name l.entered).getLast? = some e →
        (e ∈ l.live ++ [d] ↔ e ∈ l.live) := by
      intro name e hnot hlast
      rw [List.mem_append, List.mem_singleton, or_iff_left]
      rintro rfl
      rw [isNamed_of_last hlast] at hnot
      cases hnot
    refine ⟨hconsistent, ?_, keys_declare hd h.keys, fun name e => ?_, fun name e => ?_⟩
    · rw [declare_new hd, ← h.live]
    · rw [derive?_declare hd]
      cases hname : isNamed name d with
      | true =>
        rw [if_pos rfl, named_concat_of_isNamed hname, List.getLast?_concat]
        exact ⟨fun heq => ⟨heq, by simp [Option.some.inj heq]⟩, fun heq => heq.1⟩
      | false =>
        rw [if_neg Bool.false_ne_true, named_concat_of_not hname, h.means]
        exact and_congr_right fun hlast => (hother name e hname hlast).symm
    · cases hname : isNamed name d with
      | true =>
        rw [named_concat_of_isNamed hname, named_concat_of_isNamed hname, List.getLast?_concat,
          List.getLast?_concat]
        exact fun heq _ => heq
      | false =>
        rw [named_concat_of_not hname, named_concat_of_not hname]
        exact fun hlast hmem => h.latest name e hlast ((hother name e hname hlast).mp hmem)

theorem Follows.declareAll (h : Follows r l) (ds : List Declaration) :
    Follows (r.declareAll ds) (ds.foldl Ledger.declare l) := by
  induction ds generalizing r l with
  | nil => exact h
  | cons d ds ih => exact ih (h.declare d)

theorem Follows.forget (h : Follows r l) (path : SourcePath) :
    Follows (r.forgetFile path).2 (l.forget path) where
  consistent := h.consistent.forgetFile path
  live := by rw [h.consistent.declarations_forgetFile, h.live, Ledger.forget]
  keys := by
    rw [h.consistent.derives_forgetFile]
    exact h.keys.sublist (List.filter_sublist.map _)
  means name d := by
    have hold := h.means name d
    unfold derive? at hold ⊢
    rw [h.consistent.derives_forgetFile,
      Table.get?_filter_value (p := fun e : Declaration => !(e.file == path)) h.keys,
      Option.filter_eq_some_iff, hold, Ledger.forget, List.mem_filter, and_assoc]
  latest name d hlast hmem := by
    obtain ⟨hmem, hkeep⟩ := List.mem_filter.mp hmem
    exact last_filter (h.latest name d hlast hmem) hkeep

/-- Operations that leave declarations and derive names alone leave the ledger alone. -/
theorem Follows.of_eq (h : Follows r l) {r' : Registry} (hconsistent : r'.Consistent)
    (hdeclarations : r'.declarations = r.declarations) (hderives : r'.derives = r.derives) :
    Follows r' l where
  consistent := hconsistent
  live := hdeclarations.trans h.live
  keys := hderives ▸ h.keys
  means name d := by
    unfold derive?
    rw [hderives]
    exact h.means name d
  latest := h.latest

theorem bindSites_keeps (r : Registry) (file : SourceFile) :
    (r.bindSites file).2.declarations = r.declarations ∧
      (r.bindSites file).2.derives = r.derives := by
  unfold bindSites
  dsimp only
  generalize file.sites.filterMap _ = found
  induction found generalizing r with
  | nil => exact ⟨rfl, rfl⟩
  | cons entry found ih => exact ih (r.bind entry.1 entry.2.1 entry.2.2)

theorem collectDependencies_keeps (r : Registry) (files : List SourceFile) :
    (r.collectDependencies files).2.declarations = r.declarations ∧
      (r.collectDependencies files).2.derives = r.derives := by
  apply collectDependencies_induction
    (P := fun r' => r'.declarations = r.declarations ∧ r'.derives = r.derives)
  · intro r' path h
    unfold addMetaprogramFile
    split <;> exact h
  · exact ⟨rfl, rfl⟩

theorem Follows.perform (h : Follows r l) (op : Operation) :
    Follows (r.perform op) (l.perform op) := by
  cases op with
  | declare d => exact h.declare d
  | forget path => exact h.forget path
  | reset => exact .empty
  | collect file =>
    dsimp only [Registry.perform, Ledger.perform]
    rw [collect_eq]
    cases file.findings.findSome? (Finding.error? file.path) with
    | some e => exact h
    | none => exact (h.forget file.path).declareAll _
  | bindSites file =>
    have hkeeps := r.bindSites_keeps file
    exact h.of_eq (h.consistent.bindSites file) hkeeps.1 hkeeps.2
  | follow files =>
    have hkeeps := r.collectDependencies_keeps files
    exact h.of_eq (h.consistent.perform (.follow files)) hkeeps.1 hkeeps.2

theorem follows_after (ops : List Operation) : Follows (after ops) (Ledger.after ops) := by
  unfold after Ledger.after
  have hstart := Follows.empty
  generalize Registry.empty = r at hstart
  generalize Ledger.empty = l at hstart
  induction ops generalizing r l with
  | nil => exact hstart
  | cons op ops ih => exact ih _ _ (hstart.perform op)

/-- Whatever was declared, forgotten and reset before, a derive name means the derive that was
declared under it last since the last reset, and nothing if that one has been forgotten. So it means
the most recent of the derives of that name that are left exactly if none is left or the one that
was declared last is. -/
theorem derive?_after (ops : List Operation) (name : String) :
    (∀ d, (after ops).derive? name = some d ↔
      (named name (Ledger.after ops).entered).getLast? = some d ∧ d ∈ (Ledger.after ops).live) ∧
    ((after ops).derive? name = (named name (Ledger.after ops).live).getLast? ↔
      named name (Ledger.after ops).live = [] ∨
        ∃ d ∈ (Ledger.after ops).live,
          (named name (Ledger.after ops).entered).getLast? = some d) := by
  have h := follows_after ops
  refine ⟨h.means name, fun heq => ?_, ?_⟩
  · cases hlast : (named name (Ledger.after ops).live).getLast? with
    | none => exact .inl (List.getLast?_eq_none_iff.mp hlast)
    | some d =>
      obtain ⟨hentered, hlive⟩ := (h.means name d).mp (heq.trans hlast)
      exact .inr ⟨d, hlive, hentered⟩
  · rintro (hnone | ⟨d, hlive, hentered⟩)
    · rw [hnone, List.getLast?_nil]
      refine Option.eq_none_iff_forall_ne_some.mpr fun d hd => ?_
      obtain ⟨hentered, hlive⟩ := (h.means name d).mp hd
      have hmem := List.mem_filter.mpr ⟨hlive, isNamed_of_last hentered⟩
      rw [named] at hnone
      rw [hnone] at hmem
      cases hmem
    · rw [h.latest name d hentered hlive]
      exact (h.means name d).mpr ⟨hentered, hlive⟩

def tag (id : NodeId) (path : String) : Declaration :=
  ⟨id, .derive, "Tag", .function false, ⟨path⟩, default⟩

/-- Two files declare a derive of one name, and the later one is forgotten. -/
def tagged : List Operation :=
  [.declare (tag 1 "a.kn"), .declare (tag 2 "b.kn"), .forget ⟨"b.kn"⟩]

/-- Then the name means nothing, although the other file still declares it. -/
theorem not_derive?_eq_last_live : ¬ ∀ ops name,
    (after ops).derive? name = (named name (Ledger.after ops).live).getLast? := by
  intro h
  have hnone : ((after tagged).derive? "Tag").isSome = false := by decide +kernel
  have hsome : ((named "Tag" (Ledger.after tagged).live).getLast?).isSome = true := by
    decide +kernel
  rw [h tagged "Tag", hsome] at hnone
  cases hnone

end Registry

end MacroEngine
