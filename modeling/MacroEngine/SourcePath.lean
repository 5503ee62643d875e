import MacroEngine.Text.Lines

/-!
# Paths of source files

A path keeps its spelling, but two paths are the same when their components are: repeated slashes,
a trailing slash and `.` anywhere but in front do not count. The module also says which file is
meant by an import: a path and an import specifier are compared by their `moduleKey`.
-/

namespace MacroEngine

/-- A path as it was written. -/
structure SourcePath where
  text : String
deriving Repr, Inhabited

inductive PathComponent where
  | root
  | current
  | parent
  | normal (name : String)
deriving Repr, DecidableEq

namespace PathComponent

/-- The component that a segment between slashes spells. -/
def ofSegment (segment : String) : PathComponent :=
  if segment = "." then .current else if segment = ".." then .parent else .normal segment

def rank : PathComponent → Nat
  | .root => 0
  | .current => 1
  | .parent => 2
  | .normal _ => 3

/-- Components are ordered by kind, named ones by their name. -/
def lt : PathComponent → PathComponent → Bool
  | .normal a, .normal b => decide (a < b)
  | a, b => decide (a.rank < b.rank)

end PathComponent

namespace SourcePath

/-- The part of a name before its last dot and the part after it. A name whose only dot is its
first character has no second part. -/
def splitName (name : String) : String × Option String :=
  let reversed := name.toList.reverse
  match reversed.dropWhile (· ≠ '.') with
  | [] => (name, none)
  | [_] => (name, none)
  | _ :: stem =>
    (String.ofList stem.reverse, some (String.ofList (reversed.takeWhile (· ≠ '.')).reverse))

def componentsOf (text : List Char) : List PathComponent :=
  let segments := (Text.splitAt '/' text).map String.ofList
  let named := fun ss : List String => (ss.filter fun s => s ≠ "" && s ≠ ".").map .ofSegment
  match segments with
  | [] => []
  | first :: rest =>
    if text.head? = some '/' then .root :: named rest
    else if first = "." then .current :: named rest
    else named segments

def components (path : SourcePath) : List PathComponent := componentsOf path.text.toList

/-- Paths are compared by their components. -/
instance : BEq SourcePath := ⟨fun a b => a.components == b.components⟩

theorem beq_iff {a b : SourcePath} : (a == b) = true ↔ a.components = b.components :=
  beq_iff_eq (a := a.components) (b := b.components)

instance : EquivBEq SourcePath where
  rfl := beq_iff.mpr rfl
  symm h := beq_iff.mpr (beq_iff.mp h).symm
  trans h h' := beq_iff.mpr ((beq_iff.mp h).trans (beq_iff.mp h'))

def componentsLt : List PathComponent → List PathComponent → Bool
  | _, [] => false
  | [], _ :: _ => true
  | a :: as, b :: bs => if a = b then componentsLt as bs else a.lt b

def lt (a b : SourcePath) : Bool := componentsLt a.components b.components

/-- The last component, if it is a name. -/
def fileName? (path : SourcePath) : Option String :=
  match path.components.getLast? with
  | some (.normal name) => some name
  | _ => none

/-- What follows the last dot of the file name. -/
def extension? (path : SourcePath) : Option String :=
  path.fileName?.bind fun name => (splitName name).2

/-- A reversed path text without what follows its last component. -/
def dropTrail : List Char → List Char
  | '/' :: rest => dropTrail rest
  | '.' :: '/' :: rest => dropTrail rest
  | text => text

/-- The path with another extension, or with none if the new extension is empty. A path without a
file name stays as it is. -/
def withExtension (path : SourcePath) (extension : String) : SourcePath :=
  match path.fileName? with
  | none => path
  | some name =>
    let base := ((dropTrail path.text.toList.reverse).drop name.length).reverse
    let ending := if extension = "" then "" else "." ++ extension
    ⟨String.ofList base ++ (splitName name).1 ++ ending⟩

/-- The components of the directory that holds the file. -/
def directory (path : SourcePath) : List PathComponent :=
  match path.components.getLast? with
  | none => []
  | some .root => []
  | some _ => path.components.dropLast

def stripExtension (cs : List PathComponent) : List PathComponent :=
  match cs.getLast? with
  | some (.normal name) => cs.dropLast ++ [.ofSegment (splitName name).1]
  | _ => cs

/-- One step of path normalisation; the components kept so far are in reverse order. `..` takes
back the last component that was kept. -/
def keyStep (kept : List PathComponent) : PathComponent → List PathComponent
  | .current => kept
  | .parent =>
    match kept with
    | [] => [.parent]
    | .root :: _ => .parent :: kept
    | _ :: rest => rest
  | .root => [.root]
  | .normal name => .normal name :: kept

/-- What two spellings of one module have in common: the components without extension, `.` and
`..`. -/
def keyOf (cs : List PathComponent) : List PathComponent :=
  ((stripExtension (cs.filter (· ≠ .current))).foldl keyStep []).reverse

def moduleKey (path : SourcePath) : List PathComponent := keyOf path.components

/-- The module that an import in `path` names. -/
def importKey (path : SourcePath) (specifier : String) : List PathComponent :=
  keyOf (path.directory ++ componentsOf specifier.toList)

/-- The path as it is shown in messages. -/
instance : ToString SourcePath := ⟨SourcePath.text⟩

end SourcePath

end MacroEngine
