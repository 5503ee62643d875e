import MacroEngine.Error
import MacroEngine.Registry
import MacroEngine.Tree.Printer
import MacroEngine.Tree.Shape

/-!
# The compile-time program

The files that declare macros, and those they import, are printed as modules of their own before
the program is compiled. An emitter turns files into texts; `printing` is the one that prints each
file without its imports from the authoring module.
-/

namespace MacroEngine

structure EmitOptions where
  /-- Whether to write a declaration file beside each module. -/
  declarations : Bool
  /-- Whether to report modules that declare no macro. -/
  strict : Bool

/-- Texts by path, in the order of the paths, and reports about files. -/
structure Emitted where
  files : List (SourcePath × String)
  reports : List (SourcePath × String)

namespace Emitted

def empty : Emitted := ⟨[], []⟩

/-- A text entered at a path among those in order, in place of the one it had. -/
def insertFile (path : SourcePath) (text : String) :
    List (SourcePath × String) → List (SourcePath × String)
  | [] => [(path, text)]
  | (p, t) :: rest =>
    if p == path then (p, text) :: rest
    else if path.lt p then (path, text) :: (p, t) :: rest
    else (p, t) :: insertFile path text rest

end Emitted

abbrev Emitter := List SourceFile → EmitOptions → Emitted

def Emitter.silent : Emitter := fun _ _ => .empty

def SourceFile.withoutAuthoring (file : SourceFile) : SourceFile :=
  { file with statements := file.statements.filter fun s => !s.isAuthoringImport }

/-- A macro function that is exported, with nothing in its body. -/
def Stmt.signature? : Stmt → Option Stmt
  | .function stamp head body =>
    if head.macroKind.isNone || head.visibility = .internal then none
    else some (.function stamp head { body with stmts := [] })
  | _ => none

def SourceFile.signatures (file : SourceFile) : SourceFile :=
  { file with statements := file.statements.filterMap Stmt.signature? }

/-- The path of the declaration file beside a module: `m.kn` has `m.d.kn`. -/
def SourcePath.declarationPath (path : SourcePath) : SourcePath :=
  match path.extension? with
  | some extension => path.withExtension ("d." ++ extension)
  | none => path.withExtension "d"

def noMacrosReport : String :=
  "no top-level macro declaration; the module exports nothing loadable"

def Emitter.printFile (options : EmitOptions) (out : Emitted) (file : SourceFile) : Emitted :=
  let module := file.withoutAuthoring
  let reports :=
    if options.strict && !module.statements.any (·.declaredKind?.isSome) then
      out.reports ++ [(file.path, noMacrosReport)]
    else out.reports
  let files :=
    if options.declarations then
      Emitted.insertFile file.path.declarationPath module.signatures.print out.files
    else out.files
  ⟨Emitted.insertFile file.path module.print files, reports⟩

def Emitter.printing : Emitter := fun files options =>
  files.foldl (Emitter.printFile options) .empty

/-- Emits the compile-time files among `files`. Reports become warnings; a file without a text is an
error. -/
def emitModules (emitter : Emitter) (files : List SourceFile) (r : Registry)
    (options : EmitOptions) : List String × Except Error Emitted :=
  let selected := files.filter fun file => r.metaprogram.any (· == file.path)
  let out := emitter selected options
  let warnings := out.reports.map fun (path, reason) =>
    (Error.emit path reason).message ++ " path=" ++ path.text
  match selected.find? fun file => !out.files.any (·.1 == file.path) with
  | some missing =>
    (warnings, .error (.emit missing.path "the builder produced no text for this file"))
  | none => (warnings, .ok out)

end MacroEngine
