import MacroEngine.Text.Blank
import MacroEngine.Text.Lines

/-!
# Removing shared indentation

`dedent` drops a blank first line and a blank last line and takes from every line the indentation
that its non-blank lines share. Indentation is measured in bytes. A line that cannot be cut there,
because it is shorter or because a character straddles the cut, loses all its leading blanks.
-/

namespace MacroEngine.Text

/-- Without the first line, if that line is blank and not the only one. -/
def dropBlankFirst : List (List Char) → List (List Char)
  | first :: next :: more => if allBlank first then next :: more else first :: next :: more
  | ls => ls

/-- Without the last line, if that line is blank and not the only one. -/
def dropBlankLast (ls : List (List Char)) : List (List Char) :=
  (dropBlankFirst ls.reverse).reverse

/-- The number of bytes of leading blanks of a line. -/
def indentation (line : List Char) : Nat := byteLength (line.takeWhile isBlank)

/-- The least indentation of the non-blank lines, `0` if there is none. -/
def sharedIndentation (ls : List (List Char)) : Nat :=
  (((ls.filter fun line => !allBlank line).map indentation).min?).getD 0

/-- A line without its first `n` bytes, or without its leading blanks if it cannot be cut there. -/
def outdent (n : Nat) (line : List Char) : List Char := (fromByte? n line).getD (trimStart line)

def dedent (raw : String) : String :=
  let kept := dropBlankLast (dropBlankFirst (lines raw.toList))
  String.ofList (joinLines (kept.map (outdent (sharedIndentation kept))))

end MacroEngine.Text
