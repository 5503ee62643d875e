/-!
# Blank characters

Which characters count as blank when text is trimmed, and the three ways of trimming a text.
-/

namespace MacroEngine.Text

/-- A character of the Unicode class `White_Space`. -/
def isBlank (c : Char) : Bool :=
  let n := c.toNat
  (9 ≤ n && n ≤ 13) || n == 0x20 || n == 0x85 || n == 0xA0 || n == 0x1680 ||
    (0x2000 ≤ n && n ≤ 0x200A) || n == 0x2028 || n == 0x2029 || n == 0x202F || n == 0x205F ||
    n == 0x3000

def trimStart (text : List Char) : List Char := text.dropWhile isBlank

def trimEnd (text : List Char) : List Char := (text.reverse.dropWhile isBlank).reverse

def trim (text : List Char) : List Char := trimEnd (trimStart text)

def trimmedEnd (text : String) : String := String.ofList (trimEnd text.toList)

def trimmed (text : String) : String := String.ofList (trim text.toList)

def allBlank (text : List Char) : Bool := text.all isBlank

/-- Trimming the start leaves exactly what follows the leading run of blanks. -/
theorem takeWhile_append_trimStart (text : List Char) :
    text.takeWhile isBlank ++ trimStart text = text := List.takeWhile_append_dropWhile

end MacroEngine.Text
