/-!
# JSON values and their text

A JSON value without fractions, and its text with every entry on a line of its own.
-/

namespace MacroEngine

/-- A JSON value; objects keep the order of their entries. -/
inductive Json where
  | null
  | bool (value : Bool)
  | num (value : Nat)
  | str (value : String)
  | arr (items : List Json)
  | obj (entries : List (String × Json))

namespace Json

def hexDigit (n : Nat) : Char := (Nat.toDigits 16 n).headD '0'

def escapeChar (c : Char) : List Char :=
  match c with
  | '"' => ['\\', '"']
  | '\\' => ['\\', '\\']
  | '\x08' => ['\\', 'b']
  | '\x0c' => ['\\', 'f']
  | '\n' => ['\\', 'n']
  | '\r' => ['\\', 'r']
  | '\t' => ['\\', 't']
  | c =>
    if c.toNat < 0x20 then
      ['\\', 'u', '0', '0', hexDigit (c.toNat / 16), hexDigit (c.toNat % 16)]
    else [c]

def quote (s : String) : String := String.ofList ('"' :: s.toList.flatMap escapeChar ++ ['"'])

def margin (depth : Nat) : String := String.ofList (List.replicate (2 * depth) ' ')

/-- Texts between an opening and a closing bracket, each on its own line. -/
def bracket (depth : Nat) (opening closing : String) (texts : List String) : String :=
  if texts.isEmpty then opening ++ closing
  else
    opening ++ "\n" ++ margin (depth + 1) ++ (",\n" ++ margin (depth + 1)).intercalate texts ++ "\n" ++
      margin depth ++ closing

mutual

/-- The text of a value whose first line stands at some depth. -/
def prettyAt (depth : Nat) : Json → String
  | .null => "null"
  | .bool value => if value then "true" else "false"
  | .num value => toString value
  | .str value => quote value
  | .arr items => bracket depth "[" "]" (prettyItems (depth + 1) items)
  | .obj entries => bracket depth "\x7b" "\x7d" (prettyEntries (depth + 1) entries)

def prettyItems (depth : Nat) : List Json → List String
  | [] => []
  | j :: js => prettyAt depth j :: prettyItems depth js

def prettyEntries (depth : Nat) : List (String × Json) → List String
  | [] => []
  | (k, j) :: js => (quote k ++ ": " ++ prettyAt depth j) :: prettyEntries depth js

end

/-- The text of a value, two blanks per level of nesting. -/
def pretty (j : Json) : String := prettyAt 0 j

end Json

end MacroEngine
