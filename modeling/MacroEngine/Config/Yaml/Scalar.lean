import MacroEngine.Config.Yaml.Cursor

/-!
# Scalars of a configuration file

Plain scalars and the two kinds of quoted ones. Their lines are folded: a line feed between two
words counts as a blank, each further line end stands for itself, and blanks around line ends do not
count.
-/

namespace MacroEngine

namespace Yaml

/-- What stands between two words of a scalar. -/
structure Gap where
  /-- Blanks before the first line end. -/
  blanks : List Char
  lineEnds : List Char
  /-- Whether the gap follows a line end that does not count. -/
  isJoint : Bool

namespace Gap

def none : Gap := ⟨[], [], false⟩

/-- The gap after a line end that does not count. -/
def joint : Gap := ⟨[], [], true⟩

def isEmpty (gap : Gap) : Bool := gap.blanks.isEmpty && gap.lineEnds.isEmpty

def hasLineEnd (gap : Gap) : Bool := !gap.lineEnds.isEmpty

/-- The gap with one more blank or line end; blanks after a line end do not count. -/
def add (gap : Gap) (c : Char) : Gap :=
  if isLineEnd c then { gap with lineEnds := gap.lineEnds ++ [c] }
  else if gap.hasLineEnd || gap.isJoint then gap
  else { gap with blanks := gap.blanks ++ [c] }

def text (gap : Gap) : List Char :=
  if gap.isJoint then gap.lineEnds
  else match gap.lineEnds with
    | [] => gap.blanks
    | ['\n'] => [' ']
    | '\n' :: more => more
    | lineEnds => lineEnds

end Gap

structure Scalar where
  value : List Char
  /-- What follows the scalar. -/
  cursor : Cursor
  /-- Whether reading went on to another line after the last word. -/
  isPastLine : Bool

def Scalar.behind (front : List Char) (s : Scalar) : Scalar := { s with value := front ++ s.value }

/-- Whether a plain scalar may start with this character, which is no indicator of structure
here. -/
def startsPlain (inFlow : Bool) (c : Char) : Bool :=
  if c = '?' || c = ':' then !inFlow
  else !(isSpace c || isLineEnd c || isFlowMark c ||
    ['#', '&', '*', '!', '|', '>', '\'', '"', '%', '@', '\x60'].contains c)

/-- Reads a plain scalar from behind some word and a gap. Outside brackets its lines start at the
column `least` or further right, and no tab may stand left of that column anywhere. -/
def plainFrom (inFlow : Bool) (least : Nat) (gap : Gap) : List Char → Place → Option Scalar
  | [], place => some ⟨[], ⟨[], place⟩, gap.hasLineEnd⟩
  | c :: rest, place =>
    let stop : Option Scalar := some ⟨[], ⟨c :: rest, place⟩, gap.hasLineEnd⟩
    if c = '\t' && gap.hasLineEnd && place.column < least then none
    else if isSpace c || isLineEnd c then plainFrom inFlow least (gap.add c) rest (place.after c)
    else if gap.hasLineEnd && !inFlow && place.column < least then stop
    else if place.column = 0 && isMarkerText (c :: rest) then stop
    else if c = '#' && !gap.isEmpty then stop
    else if c = ':' && atGap rest then stop
    else if inFlow && c = ':' && (rest.head?.any fun d => isFlowMark d || d = '?') then none
    else if inFlow && isFlowMark c then stop
    else (plainFrom inFlow least .none rest (place.after c)).map (.behind (gap.text ++ [c]))

def plain (inFlow : Bool) (least : Nat) (cursor : Cursor) : Option Scalar :=
  plainFrom inFlow least .none cursor.rest cursor.place

/-- The character that an escape of one letter stands for. -/
def escaped? (c : Char) : Option Char :=
  [('0', '\x00'), ('a', '\x07'), ('b', '\x08'), ('t', '\t'), ('\t', '\t'), ('n', '\n'),
    ('v', '\x0b'), ('f', '\x0c'), ('r', '\r'), ('e', '\x1b'), (' ', ' '), ('"', '"'), ('/', '/'),
    ('\\', '\\'), ('N', '\u0085'), ('_', '\u00a0'), ('L', '\u2028'), ('P', '\u2029')].lookup c

/-- The number of hexadecimal digits that an escape takes. -/
def escapeWidth? (c : Char) : Option Nat := [('x', 2), ('u', 4), ('U', 8)].lookup c

def hexValue? (c : Char) : Option Nat :=
  if c.isDigit then some (c.toNat - '0'.toNat)
  else if 'a' ≤ c ∧ c ≤ 'f' then some (c.toNat - 'a'.toNat + 10)
  else if 'A' ≤ c ∧ c ≤ 'F' then some (c.toNat - 'A'.toNat + 10)
  else none

inductive QuoteState where
  | inside
  /-- Behind a single quote, which ends the scalar unless another one follows. -/
  | quote
  /-- Behind a backslash. -/
  | escape
  /-- In a number of which some digits are still to come. -/
  | hex (digitsLeft : Nat) (value : Nat)

/-- Reads a quoted scalar from behind some word and a gap. Between single quotes a quote is written
twice; between double quotes a backslash starts an escape, and a line end behind a backslash is no
line end at all. No line may start like a document. -/
def quotedFrom (double : Bool) : QuoteState → Gap → List Char → Place → Option Scalar
  | .quote, _, [], place => some ⟨[], ⟨[], place⟩, false⟩
  | _, _, [], _ => none
  | .inside, gap, c :: rest, place =>
    let next := place.after c
    if place.column = 0 && isMarkerText (c :: rest) then none
    else if isSpace c || isLineEnd c then quotedFrom double .inside (gap.add c) rest next
    else if double && c = '"' then some ⟨gap.text, ⟨rest, next⟩, false⟩
    else if double && c = '\\' then
      (quotedFrom double .escape .none rest next).map (.behind gap.text)
    else if !double && c = '\'' then
      (quotedFrom double .quote .none rest next).map (.behind gap.text)
    else (quotedFrom double .inside .none rest next).map (.behind (gap.text ++ [c]))
  | .quote, _, c :: rest, place =>
    if c = '\'' then (quotedFrom double .inside .none rest (place.after c)).map (.behind [c])
    else some ⟨[], ⟨c :: rest, place⟩, false⟩
  | .escape, _, c :: rest, place =>
    let next := place.after c
    if isLineEnd c then quotedFrom double .inside .joint rest next
    else match escapeWidth? c, escaped? c with
      | some n, _ => quotedFrom double (.hex n 0) .none rest next
      | none, some d => (quotedFrom double .inside .none rest next).map (.behind [d])
      | none, none => none
  | .hex left value, _, c :: rest, place =>
    match hexValue? c with
    | none => none
    | some d =>
      let next := place.after c
      let value := 16 * value + d
      if 1 < left then quotedFrom double (.hex (left - 1) value) .none rest next
      else if value.isValidChar then
        (quotedFrom double .inside .none rest next).map (.behind [Char.ofNat value])
      else none

def quoted (double : Bool) (cursor : Cursor) : Option Scalar :=
  quotedFrom double .inside .none cursor.next.rest cursor.next.place

end Yaml

end MacroEngine
