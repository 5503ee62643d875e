import MacroEngine.Error
import MacroEngine.Registry
import MacroEngine.Tree.Shape
import MacroEngine.Tree.Walk

/-!
# Binding sites to declarations

Two passes over the files of a program come before any hook runs. The first enters the macro
declarations of each file, in place of those an earlier version of the file made. The second binds
every site to the first declaration in view that has its kind and its name: those of the file itself
come first, then those that its relative imports name, one import after the other. What a declaring
file imports matters at compile time too.
-/

namespace MacroEngine

/-- What the first pass meets: a declaration, or a macro function expression that no variable is
set to. -/
inductive Finding where
  | declares (d : Declaration)
  | unbound (name : Option String) (span : Span)

/-- The finding at a macro function that can be reached. A function without any name declares
nothing. -/
def Finding.ofHead (path : SourcePath) (stamp : Stamp) (shape : DeclarationShape)
    (name : Option String) : Option MacroKind → List Finding
  | none => []
  | some kind =>
    match name with
    | none => []
    | some name => [.declares ⟨stamp.id, kind, name, shape, path, stamp.span⟩]

section Findings

variable (path : SourcePath)

mutual

def Expr.findings : Expr → List Finding
  | .ident _ _ | .number _ _ | .str _ _ | .bool _ _ | .null _ | .this _ | .template _ _
  | .tagged _ _ _ => []
  | .array _ es => Expr.findingsAll es
  | .object _ ps => Expr.findingsProperties ps
  | .paren _ e => e.findings
  | .member _ o _ => o.findings
  | .call _ c as => c.findings ++ Expr.findingsAll as
  | .invoke _ _ as => Expr.findingsAll as
  | .unary _ _ e => e.findings
  | .binary _ _ l r => l.findings ++ r.findings
  | .assign _ t v => t.findings ++ v.findings
  | .await _ e => e.findings
  | .arrow _ _ _ b => b.findings
  | .arrowExpr _ _ _ e => e.findings
  | .function s h b => if h.macroKind.isSome then [.unbound h.name s.span] else b.findings

def Expr.findingsAll : List Expr → List Finding
  | [] => []
  | e :: es => e.findings ++ Expr.findingsAll es

def Expr.findingsProperties : List (String × Expr) → List Finding
  | [] => []
  | (_, e) :: ps => e.findings ++ Expr.findingsProperties ps

def Stmt.findings : Stmt → List Finding
  | .importNames _ _ _ | .empty _ => []
  | .function s h b =>
    Finding.ofHead path s (.function (h.visibility = .default)) h.name h.macroKind ++ b.findings
  | .classDecl _ _ ms => Member.findingsAll ms
  | .binding _ _ _ none _ => []
  | .binding _ _ name (some (.function s h b)) _ =>
    Finding.ofHead path s (.bound name) (h.name.or (some name)) h.macroKind ++ b.findings
  | .binding _ _ _ (some e) _ => e.findings
  | .expr _ e => e.findings
  | .ret _ none => []
  | .ret _ (some e) => e.findings
  | .ifElse _ c t none => c.findings ++ t.findings
  | .ifElse _ c t (some e) => c.findings ++ (t.findings ++ e.findings)
  | .whileLoop _ c b => c.findings ++ b.findings
  | .forOf _ _ _ i b => i.findings ++ b.findings
  | .block _ b => b.findings
  | .defer _ b => b.findings
  | .tryFinally _ b f => b.findings ++ f.findings
  | .throwExpr _ e => e.findings

def Stmt.findingsAll : List Stmt → List Finding
  | [] => []
  | s :: ss => s.findings ++ Stmt.findingsAll ss

def Member.findingsAll : List Member → List Finding
  | [] => []
  | .field _ _ none :: ms => Member.findingsAll ms
  | .field _ _ (some e) :: ms => e.findings ++ Member.findingsAll ms
  | .method _ _ b :: ms => b.findings ++ Member.findingsAll ms

def Block.findings : Block → List Finding
  | ⟨_, ss⟩ => Stmt.findingsAll ss

end

end Findings

def Finding.declaration? : Finding → Option Declaration
  | .declares d => some d
  | .unbound _ _ => none

def Finding.error? (path : SourcePath) : Finding → Option Error
  | .declares _ => none
  | .unbound name span => some (.unboundMacro path name span)

def SourceFile.findings (file : SourceFile) : List Finding :=
  Stmt.findingsAll file.path file.statements

/-- The sites of a file, outer ones before those inside them. -/
def SourceFile.sites (file : SourceFile) : List Expr :=
  (file.items.filterMap Item.expr?).filter fun e => e.useSite?.isSome

/-- A specifier that names a file by its place. -/
def isRelative (specifier : String) : Bool := specifier.startsWith "."

/-- The modules that the relative imports of a file name, each with the imported names. -/
def SourceFile.relativeImports (file : SourceFile) : List (List PathComponent × List String) :=
  file.statements.filterMap fun
    | .importNames _ names specifier =>
      if isRelative specifier then some (file.path.importKey specifier, names) else none
    | _ => none

namespace Registry

def declareAll (r : Registry) (ds : List Declaration) : Registry :=
  ds.foldl (fun r d => (r.declare d).2) r

/-- Enters the declarations of a file in place of its earlier ones, and answers how many they are. A
macro function expression that no variable is set to is an error, and then nothing changes. -/
def collectDeclarations (r : Registry) (file : SourceFile) : Except Error Nat × Registry :=
  match file.findings.findSome? (Finding.error? file.path) with
  | some e => (.error e, r)
  | none =>
    let found := file.findings.filterMap Finding.declaration?
    (.ok found.length, (r.forgetFile file.path).2.declareAll found)

/-- The registry with the declarations of a file, if they could be entered. -/
def collect (r : Registry) (file : SourceFile) : Except Error Registry :=
  match r.collectDeclarations file with
  | (.error e, _) => .error e
  | (.ok _, r) => .ok r

theorem collect_eq (r : Registry) (file : SourceFile) : r.collect file =
    match file.findings.findSome? (Finding.error? file.path) with
    | some e => .error e
    | none =>
      .ok ((r.forgetFile file.path).2.declareAll (file.findings.filterMap Finding.declaration?)) := by
  rw [collect, collectDeclarations]
  cases file.findings.findSome? (Finding.error? file.path) <;> rfl

/-- The declarations in view in a file, in the order in which they are preferred. -/
def visible (r : Registry) (file : SourceFile) : List Declaration :=
  r.inFile file.path ++
    file.relativeImports.flatMap fun (target, names) =>
      r.declarations.filter fun d => d.file.moduleKey = target && names.contains d.localName

/-- The declaration that a site means, given those in view. -/
def resolve? (scope : List Declaration) (site : Expr) : Option (MacroKind × Declaration) :=
  site.useSite?.bind fun (kind, name) =>
    (scope.find? fun d => d.kind = kind && d.localName = name).map fun d => (kind, d)

/-- Binds every site of a file that means a declaration in view, and answers how many there are. -/
def bindSites (r : Registry) (file : SourceFile) : Nat × Registry :=
  let scope := r.visible file
  let found := file.sites.filterMap fun e => (resolve? scope e).map fun (kind, d) => (kind, d, e.id)
  (found.length, found.foldl (fun r (kind, d, site) => r.bind kind d site) r)

def importedFiles (files : List SourceFile) (file : SourceFile) : List SourceFile :=
  file.relativeImports.flatMap fun (target, _) => files.filter (·.path.moduleKey = target)

/-- Enters the paths of files among the compile-time files; those that are new go on top of the
pending ones. -/
def addFiles (r : Registry) (pending : List SourcePath) (added : Nat) :
    List SourceFile → Registry × List SourcePath × Nat
  | [] => (r, pending, added)
  | file :: more =>
    match r.addMetaprogramFile file.path with
    | (true, r) => addFiles r (file.path :: pending) (added + 1) more
    | (false, r) => addFiles r pending added more

/-- Follows the imports of pending files. Each round takes one pending path, and each path is added
at most once, which bounds the rounds. -/
def followImports (files : List SourceFile) :
    Nat → List SourcePath → Nat → Registry → Nat × Registry
  | _, [], added, r => (added, r)
  | 0, _, added, r => (added, r)
  | n + 1, path :: pending, added, r =>
    match files.find? (·.path == path) with
    | none => followImports files n pending added r
    | some file =>
      match r.addFiles pending added (importedFiles files file) with
      | (r, pending, added) => followImports files n pending added r

/-- Enters every file that a compile-time file imports, directly or not, and answers how many
paths that added. -/
def collectDependencies (r : Registry) (files : List SourceFile) : Nat × Registry :=
  followImports files (r.metaprogram.length + files.length) r.metaprogram.reverse 0 r

end Registry

end MacroEngine
