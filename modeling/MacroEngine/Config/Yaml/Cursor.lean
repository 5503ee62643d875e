/-!
# Places in a configuration file

The characters that structure a configuration file, and where in it a reader stands. Line ends are
line feeds and the two Unicode separators; other spellings of a line end are line feeds before any
reader sees them.
-/

namespace MacroEngine

namespace Yaml

def isLineEnd (c : Char) : Bool := c = '\n' || c = '\u2028' || c = '\u2029'

def isSpace (c : Char) : Bool := c = ' ' || c = '\t'

/-- Whether a word ends here: at a blank, at the end of a line, or at the end of the text. -/
def atGap : List Char → Bool
  | [] => true
  | c :: _ => isSpace c || isLineEnd c

/-- The characters that structure collections in brackets. -/
def isFlowMark (c : Char) : Bool := [',', '[', ']', '\x7b', '\x7d'].contains c

/-- Whether a document starts or ends here, if this is the beginning of a line. -/
def isMarkerText : List Char → Bool
  | '-' :: '-' :: '-' :: rest => atGap rest
  | '.' :: '.' :: '.' :: rest => atGap rest
  | _ => false

/-- The character that a text in Unicode may begin with; it counts as a column. -/
def byteOrderMark : Char := '\ufeff'

/-- Where a character stands: the number of lines before its line, of characters before it in the
line, and of bytes before it in the text. -/
structure Place where
  line : Nat
  column : Nat
  offset : Nat

namespace Place

def first : Place := ⟨0, 0, 0⟩

def after (c : Char) (p : Place) : Place :=
  if isLineEnd c then ⟨p.line + 1, 0, p.offset + c.utf8Size⟩
  else ⟨p.line, p.column + 1, p.offset + c.utf8Size⟩

end Place

/-- What is left of a text, and where it begins. -/
structure Cursor where
  rest : List Char
  place : Place

namespace Cursor

def next (cursor : Cursor) : Cursor :=
  match cursor.rest with
  | [] => cursor
  | c :: rest => ⟨rest, cursor.place.after c⟩

def isAtMarker (cursor : Cursor) : Bool := cursor.place.column = 0 && isMarkerText cursor.rest

end Cursor

/-- A cursor at the next token, and whether a key may start there. -/
structure Arrival where
  cursor : Cursor
  keyAllowed : Bool

/-- Skips blanks, line ends, comments, and the byte order mark at the beginning of a line. Outside
brackets a key may start on each new line, and where one may start a tab is no blank. -/
def skipFrom (inFlow keyAllowed inComment : Bool) : List Char → Place → Arrival
  | [], place => ⟨⟨[], place⟩, keyAllowed⟩
  | c :: rest, place =>
    if isLineEnd c then skipFrom inFlow (keyAllowed || !inFlow) false rest (place.after c)
    else if inComment || c = ' ' || (c = '\t' && (inFlow || !keyAllowed)) ||
        (c = byteOrderMark && place.column = 0) then
      skipFrom inFlow keyAllowed inComment rest (place.after c)
    else if c = '#' then skipFrom inFlow keyAllowed true rest (place.after c)
    else ⟨⟨c :: rest, place⟩, keyAllowed⟩

def skip (inFlow keyAllowed : Bool) (cursor : Cursor) : Arrival :=
  skipFrom inFlow keyAllowed false cursor.rest cursor.place

end Yaml

end MacroEngine
