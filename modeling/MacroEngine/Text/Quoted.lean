/-!
# Quoted text

The written form of a string: double quotes around it, with the quote, the backslash and four
control characters escaped. `unescape` reads the inside of a literal back. The main statement is
`unescape_escape`: reading what was written gives the text again.
-/

namespace MacroEngine.Text

def escapeChar : Char → List Char
  | '"' => ['\\', '"']
  | '\\' => ['\\', '\\']
  | '\n' => ['\\', 'n']
  | '\t' => ['\\', 't']
  | '\r' => ['\\', 'r']
  | '\x00' => ['\\', '0']
  | c => [c]

/-- The inside of the written form of a text. -/
def escape (text : List Char) : List Char := text.flatMap escapeChar

/-- The character that an escape stands for, given the character after the backslash. -/
def escaped : Char → Char
  | 'n' => '\n'
  | 't' => '\t'
  | 'r' => '\r'
  | '0' => '\x00'
  | c => c

/-- The text that the inside of a literal stands for. A backslash at the very end stays. -/
def unescape : List Char → List Char
  | [] => []
  | ['\\'] => ['\\']
  | '\\' :: c :: rest => escaped c :: unescape rest
  | c :: rest => c :: unescape rest

def quote (value : String) : String := String.ofList ('"' :: escape value.toList ++ ['"'])

theorem unescape_escapeChar_append (c : Char) (rest : List Char) :
    unescape (escapeChar c ++ rest) = c :: unescape rest := by
  unfold escapeChar
  split <;> simp_all [unescape, escaped]

/-- Reading what was written gives the text again. -/
theorem unescape_escape (text : List Char) : unescape (escape text) = text := by
  induction text with
  | nil => rfl
  | cons c rest ih =>
    have h : escape (c :: rest) = escapeChar c ++ escape rest := rfl
    rw [h, unescape_escapeChar_append, ih]

end MacroEngine.Text
