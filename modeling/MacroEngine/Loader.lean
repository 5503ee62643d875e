import MacroEngine.Error
import MacroEngine.Hook
import MacroEngine.Table

/-!
# Loading macro modules

A table answers paths with modules. The loader keeps the modules it has loaded and the bodies it has
found, and loads what a module requires before the module itself. A module that comes up again
while it is being loaded is an error.

The hook cache runs the body of each declaration once and keeps the hooks it registered.
-/

namespace MacroEngine

/-- Modules by path, and perhaps a module for every other path. -/
structure ModuleTable where
  modules : Table SourcePath MacroModule
  fallback : Option MacroModule

namespace ModuleTable

def answer? (t : ModuleTable) (path : SourcePath) : Option MacroModule :=
  (Table.get? path t.modules).or t.fallback

/-- The paths that some module of the table requires. -/
def mentioned (t : ModuleTable) : List SourcePath :=
  t.modules.values.flatMap (·.requires) ++ (t.fallback.map (·.requires)).getD []

end ModuleTable

structure Loader where
  table : ModuleTable
  modules : Table SourcePath MacroModule
  bodies : Table NodeId MacroBody
  /-- The modules being loaded, outermost first. -/
  loading : List SourcePath

namespace Loader

def new (table : ModuleTable) : Loader := ⟨table, [], [], []⟩

/-- Loads paths one after the other, up to the first failure. -/
def loadAll (load : SourcePath → StateM Loader (Except LoadError MacroModule)) :
    List SourcePath → StateM Loader (Except LoadError Unit)
  | [] => return .ok ()
  | path :: more => do
    match ← load path with
    | .error e => return .error e
    | .ok _ => loadAll load more

/-- Loads the module at a path; the first argument bounds how deep modules require each other. -/
def loadWithin : Nat → SourcePath → StateM Loader (Except LoadError MacroModule)
  | 0, path => return .error (.moduleNotFound path)
  | n + 1, path => do
    let l ← get
    match Table.get? path l.modules with
    | some m => return .ok m
    | none =>
      if l.loading.any (· == path) then
        return .error (.cyclic (l.loading.dropWhile (fun p => !(p == path)) ++ [path]))
      else
        match l.table.answer? path with
        | none => return .error (.moduleNotFound path)
        | some m => do
          modify fun l => { l with loading := l.loading ++ [path] }
          let outcome ← loadAll (loadWithin n) m.requires
          modify fun l => { l with loading := l.loading.dropLast }
          match outcome with
          | .error e => return .error e
          | .ok () => do
            modify fun l => { l with modules := Table.insert path m l.modules }
            return .ok m

/-- Loads the module at a path. The modules being loaded are all different, and all but the first
are mentioned in the table, so their number is bounded. -/
def loadModule (path : SourcePath) : StateM Loader (Except LoadError MacroModule) := do
  let l ← get
  loadWithin (l.table.mentioned.length + 2) path

def loadBody (d : Declaration) : StateM Loader (Except LoadError MacroBody) := do
  let l ← get
  match Table.get? d.id l.bodies with
  | some body => return .ok body
  | none =>
    match ← loadModule d.file with
    | .error e => return .error e
    | .ok m =>
      match d.exportName? with
      | none => return .error (.unreachable d.file)
      | some name =>
        match m.get? name with
        | none => return .error (.exportNotFound name d.file)
        | some body => do
          modify fun l => { l with bodies := Table.insert d.id body l.bodies }
          return .ok body

def size (l : Loader) : Nat := l.modules.length

def reset (l : Loader) : Loader := new l.table

end Loader

/-- The hooks of the declarations whose body has run, and the loader behind them. -/
structure HookCache where
  loader : Loader
  hooks : Table NodeId Hooks

namespace HookCache

def new (table : ModuleTable) : HookCache := ⟨.new table, []⟩

/-- The hooks of a declaration. Its body runs at the first request. -/
def hooksFor (d : Declaration) (cache : HookCache) :
    Work (Except LoadError Hooks × HookCache) :=
  match Table.get? d.id cache.hooks with
  | some hooks => return (.ok hooks, cache)
  | none =>
    match (Loader.loadBody d).run cache.loader with
    | (.error e, loader) => return (.error e, { cache with loader })
    | (.ok body, loader) => do
      let hooks ← body d
      return (.ok hooks, ⟨loader, Table.insert d.id hooks cache.hooks⟩)

def size (cache : HookCache) : Nat := cache.hooks.length

def reset (cache : HookCache) : HookCache := ⟨cache.loader.reset, []⟩

end HookCache

end MacroEngine
