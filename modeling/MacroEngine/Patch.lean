import MacroEngine.Tree.Basic

/-!
# Patches to the statements of a file

Hooks do not edit the statements of a file: they register patches, which are applied once, after
everything else. A patch adds a statement at the top or at the end, or next to an anchor. Anchors
are chosen among the statements as they were parsed, and found again by their identity.
-/

namespace MacroEngine

/-- A statement to add, next to the first statement that `anchor` accepts if there is one. -/
structure Patch where
  stmt : Stmt
  anchor : Option (Stmt → Bool)

/-- The patches of one file, in the order of their registration. -/
structure Patcher where
  before : List Patch
  after : List Patch

/-- What applying patches gives: the statements, and what found no anchor. -/
structure Patched where
  statements : List Stmt
  dropped : List Stmt

namespace Patcher

def empty : Patcher := ⟨[], []⟩

def prepend (p : Patcher) (s : Stmt) : Patcher := { p with before := p.before ++ [⟨s, none⟩] }

def append (p : Patcher) (s : Stmt) : Patcher := { p with after := p.after ++ [⟨s, none⟩] }

def insertBefore (p : Patcher) (s : Stmt) (anchor : Stmt → Bool) : Patcher :=
  { p with before := p.before ++ [⟨s, some anchor⟩] }

def insertAfter (p : Patcher) (s : Stmt) (anchor : Stmt → Bool) : Patcher :=
  { p with after := p.after ++ [⟨s, some anchor⟩] }

def size (p : Patcher) : Nat := p.before.length + p.after.length

def isEmpty (p : Patcher) : Bool := p.before.isEmpty && p.after.isEmpty

/-- The statements to add without an anchor. -/
def free (ps : List Patch) : List Stmt :=
  (ps.filter (·.anchor.isNone)).map (·.stmt)

/-- The statements to add next to an anchor, with their anchors. -/
def anchored (ps : List Patch) : List (Stmt × (Stmt → Bool)) :=
  ps.filterMap fun p => p.anchor.map fun a => (p.stmt, a)

/-- Where the first of the `former` statements that `anchor` accepts stands now. -/
def anchorIndex? (former : List Stmt) (anchor : Stmt → Bool) (stmts : List Stmt) : Option Nat :=
  (former.find? anchor).bind fun s => stmts.findIdx? (·.id = s.id)

def applyBefore (former : List Stmt) : List (Stmt × (Stmt → Bool)) → Patched → Patched
  | [], out => out
  | (s, anchor) :: more, out =>
    match anchorIndex? former anchor out.statements with
    | some i => applyBefore former more { out with statements := out.statements.insertIdx i s }
    | none => applyBefore former more { out with dropped := out.dropped ++ [s] }

/-- How many statements have been added after the statement `id`. -/
def addedAfter (counts : List (NodeId × Nat)) (id : NodeId) : Nat := (counts.lookup id).getD 0

/-- Adds statements after their anchors, one after the other; those with one anchor stay in the
order of their registration. -/
def applyAfter (former : List Stmt) :
    List (NodeId × Nat) → List (Stmt × (Stmt → Bool)) → Patched → Patched
  | _, [], out => out
  | counts, (s, anchor) :: more, out =>
    match anchorIndex? former anchor out.statements with
    | some i =>
      let id := ((out.statements[i]?).map Stmt.id).getD 0
      let n := addedAfter counts id
      applyAfter former ((id, n + 1) :: counts) more
        { out with statements := out.statements.insertIdx (i + 1 + n) s }
    | none => applyAfter former counts more { out with dropped := out.dropped ++ [s] }

/-- Applies all patches to `statements`, which the `former` ones have become. Those for the top go
there one by one, so the last comes first; then those before anchors, those for the end, and those
after anchors follow. -/
def patchAgainst (p : Patcher) (former statements : List Stmt) : Patched :=
  let top := (free p.before).foldl (fun stmts s => s :: stmts) statements
  let out := applyBefore former (anchored p.before) ⟨top, []⟩
  let out := { out with statements := out.statements ++ free p.after }
  applyAfter former [] (anchored p.after) out

/-- Applies all patches to statements that have not changed since the patches were made. -/
def patch (p : Patcher) (statements : List Stmt) : Patched := p.patchAgainst statements statements

end Patcher

end MacroEngine
