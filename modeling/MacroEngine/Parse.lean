import MacroEngine.Error
import MacroEngine.Grammar.Host
import MacroEngine.Grammar.Reading

/-!
# Parsing

A text becomes a tree in two steps: it is matched against the grammar, and the rules that matched
are read into nodes. Only the second step uses up node identities.
-/

namespace MacroEngine

def SourceFile.parse (path : SourcePath) (text : String) : Fresh (Except Error SourceFile) :=
  fun next =>
    match Grammar.recognize text.toList with
    | .error m => (.error (.mismatch path m), next)
    | .ok p =>
      match (Grammar.fileOf path p).run next with
      | none => (.error (.unreadable path), next)
      | some (file, next) => (.ok file, next)

end MacroEngine
