import MacroEngine.Text.Lines

/-!
# Differences of two texts, line by line

`LineDiff.edits` lists the lines of an old and a new text as kept, removed or added. Kept lines come
from a common subsequence that is found by walking back through a table of lengths.
-/

namespace MacroEngine.Text.LineDiff

abbrev Line := List Char

/-- The next row of the table: for one old line, the lengths for each start of the new lines.
`left` is the length to the left, `diagonal` the one above it; both are `0` at the edge. -/
def nextRow (old : Line) : List Line → List Nat → Nat → Nat → List Nat
  | [], _, _, _ => []
  | new :: news, above, left, diagonal =>
    let up := above.headD 0
    let length := if new = old then diagonal + 1 else max left up
    length :: nextRow old news above.tail length up

/-- The lengths of the longest common subsequences of the starts of two lists of lines, a row for
each old line. -/
def table (news : List Line) : List Line → List Nat → List (List Nat)
  | [], _ => []
  | old :: olds, above =>
    let row := nextRow old news above 0 0
    row :: table news olds row

/-- Where two texts are compared: the lines and the table. -/
structure Comparison where
  olds : Array Line
  news : Array Line
  lengths : Array (Array Nat)

def Comparison.of (olds news : List Line) : Comparison :=
  ⟨olds.toArray, news.toArray, ((table news olds []).map List.toArray).toArray⟩

namespace Comparison

def length (c : Comparison) (i j : Nat) : Nat := (c.lengths.getD i #[]).getD j 0

/-- The length in front of a place. In front of the first place of a row is the last place of the
row before it. -/
def lengthBefore (c : Comparison) (i j : Nat) : Nat :=
  if j = 0 then c.length (i - 1) (c.news.size - 1) else c.length i (j - 1)

/-- The common lines of the first `i` old and the first `j` new lines that the walk back meets,
last line first. -/
def walk (c : Comparison) : Nat → Nat → List Line
  | 0, _ => []
  | _ + 1, 0 => []
  | i + 1, j + 1 =>
    if c.olds.getD i [] = c.news.getD j [] then c.olds.getD i [] :: walk c i j
    else if i = 0 ∧ j = 0 then []
    else if i = 0 ∨ c.lengthBefore i j > c.length (i - 1) j then walk c (i + 1) j
    else walk c i (j + 1)
termination_by i j => i + j

def common (c : Comparison) : List Line := (c.walk c.olds.size c.news.size).reverse

end Comparison

inductive Mark where
  | kept
  | removed
  | added
deriving Repr, DecidableEq

def Mark.char : Mark → Char
  | .kept => ' '
  | .removed => '-'
  | .added => '+'

/-- Sorts the lines of two texts by their common lines. -/
def sortLines : List Line → List Line → List Line → List (Mark × Line)
  | old :: olds, new :: news, common =>
    if common.head? = some old then
      if common.head? = some new then (.kept, old) :: sortLines olds news common.tail
      else (.added, new) :: sortLines (old :: olds) news common
    else (.removed, old) :: sortLines olds (new :: news) common
  | old :: olds, [], common =>
    if common.head? = some old then [] else (.removed, old) :: sortLines olds [] common
  | [], new :: news, common =>
    if common.head? = some new then [] else (.added, new) :: sortLines [] news common
  | [], [], _ => []
termination_by olds news => olds.length + news.length

/-- The lines of a text; an empty text has none. -/
def linesOf (text : List Char) : List Line := if text.isEmpty then [] else lines text

/-- The lines of an old and a new text, each with its mark. The common lines are written as one
text before they are used, so a single empty line is not common. -/
def edits (old new : List Char) : List (Mark × Line) :=
  let common := (Comparison.of (lines old) (lines new)).common
  sortLines (linesOf old) (linesOf new) (linesOf (joinLines common))

/-- The edits as text, each line behind its mark. -/
def render (old new : String) : String :=
  String.ofList ((edits old.toList new.toList).flatMap fun (mark, line) => mark.char :: line ++ ['\n'])

end MacroEngine.Text.LineDiff
