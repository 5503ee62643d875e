import MacroEngine.Tree.Basic

/-!
# Macro declarations

A function with a macro modifier, as the rest of the engine knows it. A declaration is identified by
the node that declares it.
-/

namespace MacroEngine

/-- How a declaration can be reached among the exports of its module. -/
inductive DeclarationShape where
  /-- A function statement, exported under its name or as the default. -/
  | function (isDefault : Bool)
  /-- A function expression that a variable is set to. -/
  | bound (holder : String)
  /-- A function expression that nothing leads to. -/
  | unbound
deriving Repr, DecidableEq

structure Declaration where
  id : NodeId
  kind : MacroKind
  /-- The name of the function. -/
  name : String
  shape : DeclarationShape
  /-- The declaring file. -/
  file : SourcePath
  span : Span
deriving Repr

namespace Declaration

/-- The export through which the implementation is found. -/
def exportName? (d : Declaration) : Option String :=
  match d.shape with
  | .function true => some "default"
  | .function false => some d.name
  | .bound holder => some holder
  | .unbound => none

/-- The name under which a declaration is known in its own file. -/
def localName (d : Declaration) : String :=
  match d.shape with
  | .bound holder => holder
  | _ => d.name

end Declaration

end MacroEngine
