import MacroEngine.Tree.Basic

/-!
# Shapes of nodes

Predicates that sort nodes by their shape alone: what declares a macro, what has the shape of a
macro site, which statements leave a function. Whether a site is bound to a declaration is not
asked here.
-/

namespace MacroEngine

/-- The module whose imports exist for macro authors only. -/
def authoringModule : String := "compiler"

/-- The kind and the name of a site `name!(...)` or of a tagged template. -/
def Expr.useSite? : Expr → Option (MacroKind × String)
  | .invoke _ name _ => some (.function, name)
  | .tagged _ tag _ => some (.template, tag)
  | _ => none

def Expr.identName? : Expr → Option String
  | .ident _ name => some name
  | _ => none

def Expr.strValue? : Expr → Option String
  | .str _ value => some value
  | _ => none

namespace Stmt

/-- The kind of macro that a statement declares: a macro function, or a variable that is set to
one. -/
def declaredKind? : Stmt → Option MacroKind
  | .function _ head _ => head.macroKind
  | .binding _ _ _ (some (.function _ head _)) _ => head.macroKind
  | _ => none

def isDerivedClass : Stmt → Bool
  | .classDecl _ head _ => !head.derives.isEmpty
  | _ => false

def isClass : Stmt → Bool
  | .classDecl _ _ _ => true
  | _ => false

def isDefer : Stmt → Bool
  | .defer _ _ => true
  | _ => false

def isImport : Stmt → Bool
  | .importNames _ _ _ => true
  | _ => false

def isAuthoringImport : Stmt → Bool
  | .importNames _ _ specifier => specifier = authoringModule
  | _ => false

def isReturn : Stmt → Bool
  | .ret _ _ => true
  | _ => false

/-- A statement that control never passes. -/
def isExit : Stmt → Bool
  | .ret _ _ => true
  | .throwExpr _ _ => true
  | _ => false

end Stmt

def Member.fieldName? : Member → Option String
  | .field _ name _ => some name
  | .method _ _ _ => none

end MacroEngine
