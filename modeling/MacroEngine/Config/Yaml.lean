import MacroEngine.Config.Yaml.Document
import MacroEngine.Error
import MacroEngine.Text.Blank

/-!
# Configuration files

The notation of configuration files, a part of YAML: block and flow collections, plain and quoted
scalars, comments, and one document at most. Anchors, tags, block scalars, directives and keys that
are no scalars are not part of it.
-/

namespace MacroEngine

namespace Yaml

/-- A text in which a carriage return, with or without a line feed, and a next-line character are
line feeds. -/
def withLineFeeds : List Char → List Char
  | '\r' :: '\n' :: rest => '\n' :: withLineFeeds rest
  | c :: rest => (if c = '\r' || c = '\u0085' then '\n' else c) :: withLineFeeds rest
  | [] => []

def isAllowed (c : Char) : Bool :=
  let n := c.toNat
  n = 0x09 || n = 0x0A || n = 0x0D || (0x20 ≤ n && n ≤ 0x7E) || n = 0x85 ||
    (0xA0 ≤ n && n ≤ 0xFFFD) || 0x10000 ≤ n

/-- The data in a text, if the text is a document. -/
def read? (text : List Char) : Option ConfigData :=
  if text.all isAllowed then (Token.ofText? (withLineFeeds text)).bind ConfigData.ofTokens?
  else none

end Yaml

/-- The settings that a configuration file makes. A file with nothing but blanks makes none. -/
def Config.ofText (text : String) : Except Error Config :=
  if Text.allBlank text.toList then .ok .standard
  else match (Yaml.read? text.toList).bind Config.ofData? with
    | some config => .ok config
    | none => .error .malformedConfig

end MacroEngine
