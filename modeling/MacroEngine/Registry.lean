import MacroEngine.Declaration
import MacroEngine.Table

/-!
# The registry

What a session knows about macros: the declarations, which site is bound to which of them, which
derive name means which of them, what each file declares, and the files that matter at compile time
only.
-/

namespace MacroEngine

/-- A sorted list of paths with one more; a path that is there already stays as it is. -/
def insertPath (path : SourcePath) : List SourcePath → List SourcePath
  | [] => [path]
  | p :: rest =>
    if p == path then p :: rest
    else if path.lt p then path :: p :: rest
    else p :: insertPath path rest

structure Registry where
  /-- In the order in which they were declared. -/
  declarations : List Declaration
  byId : Table NodeId Declaration
  bindings : Table (MacroKind × NodeId) Declaration
  derives : Table String Declaration
  byFile : Table SourcePath (List Declaration)
  /-- The files that declare macros, and those they import; sorted. -/
  metaprogram : List SourcePath

namespace Registry

def empty : Registry := ⟨[], [], [], [], [], []⟩

def declaration? (r : Registry) (id : NodeId) : Option Declaration := Table.get? id r.byId

def inFile (r : Registry) (path : SourcePath) : List Declaration :=
  (Table.get? path r.byFile).getD []

/-- Enters a declaration and answers with the one that stands for its node: the new one, or the one
that was there. -/
def declare (r : Registry) (d : Declaration) : Declaration × Registry :=
  match r.declaration? d.id with
  | some known => (known, r)
  | none =>
    (d, { r with
      declarations := r.declarations ++ [d]
      byId := Table.insert d.id d r.byId
      derives := if d.kind = .derive then Table.insert d.name d r.derives else r.derives
      byFile := Table.insert d.file (r.inFile d.file ++ [d]) r.byFile
      metaprogram := insertPath d.file r.metaprogram })

/-- Takes away what a file declares, with the bindings and the derive names that lead there, and
answers how many declarations that were. The file stays among the compile-time files. -/
def forgetFile (r : Registry) (path : SourcePath) : Nat × Registry :=
  match Table.get? path r.byFile with
  | none => (0, r)
  | some stale =>
    let gone := stale.map (·.id)
    let kept := fun d : Declaration => !gone.contains d.id
    (stale.length, { r with
      declarations := r.declarations.filter kept
      byId := r.byId.filter fun entry => !gone.contains entry.1
      bindings := r.bindings.filter fun entry => kept entry.2
      derives := r.derives.filter fun entry => kept entry.2
      byFile := Table.erase path r.byFile })

/-- Binds a site to a declaration, in place of the one it was bound to. -/
def bind (r : Registry) (kind : MacroKind) (d : Declaration) (site : NodeId) : Registry :=
  { r with bindings := Table.insert (kind, site) d r.bindings }

def binding? (r : Registry) (kind : MacroKind) (site : NodeId) : Option Declaration :=
  Table.get? (kind, site) r.bindings

def derive? (r : Registry) (name : String) : Option Declaration := Table.get? name r.derives

/-- The declarations that the derive names of a class mean, in order; others are left out. -/
def deriveDeclarations (r : Registry) (head : ClassHead) : List Declaration :=
  head.derives.filterMap r.derive?

def unresolvedDerives (r : Registry) (head : ClassHead) : List String :=
  head.derives.filter fun name => (r.derive? name).isNone

/-- Enters a compile-time file and answers whether it is new. -/
def addMetaprogramFile (r : Registry) (path : SourcePath) : Bool × Registry :=
  if r.metaprogram.any (· == path) then (false, r)
  else (true, { r with metaprogram := insertPath path r.metaprogram })

end Registry

end MacroEngine
