import MacroEngine.Tree.Basic
import MacroEngine.Grammar.Rule

/-!
# Errors

What can go wrong, by cause, and the one place where the wording of each message is written.
Errors of loading macro modules are apart, since loading is used without compiling too.
-/

namespace MacroEngine

/-- Why a macro declaration has no implementation. -/
inductive LoadError where
  | moduleNotFound (path : SourcePath)
  | exportNotFound (name : String) (path : SourcePath)
  /-- The declaration cannot be reached through an export. -/
  | unreachable (path : SourcePath)
  /-- Modules that require each other; the first is also the last. -/
  | cyclic (chain : List SourcePath)

def LoadError.message : LoadError → String
  | .moduleNotFound path => s!"Macro module {path} could not be loaded"
  | .exportNotFound name path => s!"Function {name} not found in module {path}"
  | .unreachable path =>
    s!"Failed to load macro from {path}: declaration is neither a named function nor a variable-bound function expression"
  | .cyclic chain => "Cyclic macro module load: " ++ " -> ".intercalate (chain.map (·.text))

inductive Error where
  /-- The text of a file does not match the grammar. -/
  | mismatch (path : SourcePath) (m : Grammar.Mismatch)
  /-- The rules that matched do not make a tree; the grammar rules this out. -/
  | unreadable (path : SourcePath)
  | load (e : LoadError)
  /-- A macro function expression, named or not, that no variable is set to. -/
  | unboundMacro (path : SourcePath) (name : Option String) (span : Span)
  /-- A hook put a statement where an expression stood. -/
  | statementForExpression (macroName : String)
  | unresolvedDerive (className name : String)
  | unresolvedAnchors (path : SourcePath) (count : Nat)
  | misplacedDefer (path : SourcePath) (span : Span)
  | emit (path : SourcePath) (reason : String)
  | unknownOperator (token : String)
  /-- A configuration that is not of the right form. -/
  | malformedConfig
  /-- A file that is not there or cannot be read. -/
  | unreadableFile (path : SourcePath)
  /-- Replacements and derived classes that lead to each other without end. This is no error that a
  compilation reports: it stands for an expansion that does not come to an end. -/
  | endlessExpansion (path : SourcePath)

def Error.message : Error → String
  | .mismatch path m => s!"Parse error in {path}: {m.message}"
  | .unreadable path => s!"Parse error in {path}: malformed tree"
  | .load e => e.message
  | .unboundMacro path name _ =>
    let named := (name.map fun n => " '" ++ n ++ "'").getD ""
    s!"Malformed macro declaration in {path}: macro function expression{named} is not bound to a variable"
  | .statementForExpression name => s!"Macro '{name}' replaced a expression site with a statement"
  | .unresolvedDerive className name =>
    s!"Class '{className}' derives '{name}', which is not a registered derive macro"
  | .unresolvedAnchors path count =>
    s!"{count} statement patch(es) in {path} matched no anchor statement"
  | .misplacedDefer path _ => s!"`defer` in {path} is not a direct statement of a function body"
  | .emit path reason => s!"Could not emit metaprogram file {path}: {reason}"
  | .unknownOperator token => s!"Configuration error: '{token}' is not an overloadable operator"
  | .malformedConfig => "Configuration error"
  | .unreadableFile path => s!"I/O error on {path}"
  | .endlessExpansion path => s!"Expansion of {path} does not end"

def Error.span? : Error → Option Span
  | .mismatch _ m => some ⟨m.offset, m.offset⟩
  | .unreadable _ => some ⟨0, 0⟩
  | .unboundMacro _ _ span => some span
  | .misplacedDefer _ span => some span
  | _ => none

end MacroEngine
