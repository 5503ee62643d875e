import MacroEngine.Grammar.Rule

/-!
# Matching a parsing expression grammar

A grammar gives every rule a body and a style. The matcher reads a text from the left, with ordered
choice and without memory of failed alternatives, and yields the tree of rules that matched. In
loose style, blanks and comments may stand between any two elements of a sequence and between the
rounds of a repetition; they are skipped even where the next element then matches nothing.

Beside the match the matcher keeps `Attempts`: which rules were tried at the furthest place where a
rule was tried in vain. Attempts outlive the alternatives that made them, and they say what a
failed match reports.
-/

namespace MacroEngine.Grammar

/-- Whether blanks and comments may stand between the elements of a rule, and whether the rules
inside it are told apart. -/
inductive Style where
  /-- Gaps are allowed. -/
  | loose
  /-- No gaps; inner rules count. -/
  | compound
  /-- No gaps; inner rules leave no trace. -/
  | atomic
deriving Repr, DecidableEq

inductive Peg where
  | rule (r : Rule)
  | lit (text : List Char)
  | charIf (accepts : Char → Bool)
  | atEnd
  | seq (first second : Peg)
  | alt (first second : Peg)
  | opt (e : Peg)
  | star (e : Peg)
  /-- The second and later rounds of a repetition, each after a gap. -/
  | again (e : Peg)
  | not (e : Peg)

instance : Append Peg := ⟨.seq⟩

instance : OrElse Peg := ⟨fun a b => .alt a (b ())⟩

def text (t : String) : Peg := .lit t.toList

instance : Coe String Peg := ⟨text⟩

def Peg.plus (e : Peg) : Peg := e ++ Peg.star e

def anyChar : Peg := .charIf fun _ => true

/-- A place in the text: the bytes before it and the characters after it. -/
structure Cursor where
  offset : Nat
  rest : List Char
deriving Repr, DecidableEq

/-- A rule that matched: the bytes it covers, the text from its start on, and the rules inside. -/
inductive Pair where
  | mk (rule : Rule) (start stop : Nat) (source : List Char) (inner : List Pair)

namespace Pair

def rule : Pair → Rule
  | .mk r _ _ _ _ => r

def start : Pair → Nat
  | .mk _ i _ _ _ => i

def stop : Pair → Nat
  | .mk _ _ j _ _ => j

def inner : Pair → List Pair
  | .mk _ _ _ _ ps => ps

def text : Pair → String
  | .mk _ i j source _ => String.ofList (Text.takeBytes (j - i) source)

def span (p : Pair) : Span := ⟨p.start, p.stop⟩

end Pair

/-- The rules tried in vain at the furthest place, the latest first. -/
structure Attempts where
  offset : Nat
  expected : List Rule
  unexpected : List Rule
deriving Repr, DecidableEq

namespace Attempts

def none : Attempts := ⟨0, [], []⟩

def countAt (t : Attempts) (offset : Nat) : Nat :=
  if t.offset = offset then t.expected.length + t.unexpected.length else 0

def marksAt (t : Attempts) (offset : Nat) : Nat × Nat :=
  if t.offset = offset then (t.expected.length, t.unexpected.length) else (0, 0)

/-- The oldest `n` entries of a list that has the latest first. -/
def oldest (n : Nat) (rules : List Rule) : List Rule := rules.drop (rules.length - n)

/-- The attempts at `offset` and beyond, once those after `marks` are forgotten if they are there,
and all of them if they lie before. -/
def forget (t : Attempts) (offset : Nat) (marks : Nat × Nat) : Attempts :=
  if t.offset < offset then ⟨offset, [], []⟩
  else if offset = t.offset then
    ⟨offset, oldest marks.1 t.expected, oldest marks.2 t.unexpected⟩
  else t

/-- Adds a rule to the attempts, if they lie where it was tried. -/
def add (t : Attempts) (r : Rule) (offset : Nat) (negated : Bool) : Attempts :=
  if t.offset = offset then
    if negated then { t with unexpected := r :: t.unexpected }
    else { t with expected := r :: t.expected }
  else t

/-- Notes that rule `r` was tried in vain at `offset`, where there were `marks` attempts of either
kind before. The rule takes the place of the attempts made inside it, unless that was just one,
which says more than the rule does. -/
def note (t : Attempts) (r : Rule) (offset : Nat) (negated : Bool) (marks : Nat × Nat) :
    Attempts :=
  if t.countAt offset = marks.1 + marks.2 + 1 then t
  else (t.forget offset marks).add r offset negated

end Attempts

/-- How the surroundings of an expression are matched: the style, and whether it stands inside an
odd number of negations. -/
structure Mode where
  style : Style
  negated : Bool
deriving Repr, DecidableEq

/-- A grammar: the style and the body of each rule. -/
abbrev Definition := Rule → Style × Peg

/-- What is left of the second text after the first, if it starts with it. -/
def afterLit : List Char → Cursor → Option Cursor
  | [], c => some c
  | _ :: _, ⟨_, []⟩ => none
  | x :: xs, ⟨i, y :: ys⟩ => if x = y then afterLit xs ⟨i + y.utf8Size, ys⟩ else none

mutual

/-- Skips blanks and comments. A block comment without an end is not one. -/
def skipGap (i : Nat) : List Char → Cursor
  | [] => ⟨i, []⟩
  | '/' :: '/' :: rest => skipLine (i + 2) rest
  | '/' :: '*' :: rest => (skipComment (i + 2) rest).getD ⟨i, '/' :: '*' :: rest⟩
  | c :: rest =>
    if c = ' ' || c = '\t' || c = '\r' || c = '\n' then skipGap (i + 1) rest else ⟨i, c :: rest⟩

def skipLine (i : Nat) : List Char → Cursor
  | [] => ⟨i, []⟩
  | c :: rest => if c = '\n' then skipGap (i + 1) rest else skipLine (i + c.utf8Size) rest

def skipComment (i : Nat) : List Char → Option Cursor
  | [] => none
  | '*' :: '/' :: rest => some (skipGap (i + 2) rest)
  | c :: rest => skipComment (i + c.utf8Size) rest

end

/-- The place where the next element of a sequence begins. -/
def Mode.gap (m : Mode) (c : Cursor) : Cursor :=
  if m.style = .loose then skipGap c.offset c.rest else c

/-- The mode in which a rule of some style counts. -/
def Mode.around (m : Mode) : Style → Mode
  | .compound => { m with style := .compound }
  | _ => m

/-- The mode in which the body of a rule of some style is matched. -/
def Mode.inside (m : Mode) : Style → Mode
  | .compound => { m with style := .compound }
  | .atomic => { m with style := .atomic }
  | .loose => m

/-- What a match yields: the place behind it and the rules inside it, or nothing. -/
abbrev Match := Option (Cursor × List Pair)

/-- Matches an expression at a place. The first argument bounds the depth of the match. -/
def run (g : Definition) : Nat → Mode → Peg → Cursor → Attempts → Match × Attempts
  | 0, _, _, _, t => (none, t)
  | _ + 1, _, .lit text, c, t => ((afterLit text c).map fun c => (c, []), t)
  | _ + 1, _, .charIf accepts, c, t =>
    match c.rest with
    | [] => (none, t)
    | x :: xs => (if accepts x then some (⟨c.offset + x.utf8Size, xs⟩, []) else none, t)
  | _ + 1, _, .atEnd, c, t => (if c.rest.isEmpty then some (c, []) else none, t)
  | n + 1, m, .seq a b, c, t =>
    match run g n m a c t with
    | (none, t) => (none, t)
    | (some (c, ps), t) =>
      match run g n m b (m.gap c) t with
      | (none, t) => (none, t)
      | (some (c, qs), t) => (some (c, ps ++ qs), t)
  | n + 1, m, .alt a b, c, t =>
    match run g n m a c t with
    | (some r, t) => (some r, t)
    | (none, t) => run g n m b c t
  | n + 1, m, .opt e, c, t =>
    match run g n m e c t with
    | (some r, t) => (some r, t)
    | (none, t) => (some (c, []), t)
  | n + 1, m, .star e, c, t =>
    match run g n m e c t with
    | (none, t) => (some (c, []), t)
    | (some (c, ps), t) =>
      match run g n m (.again e) c t with
      | (none, t) => (none, t)
      | (some (c, qs), t) => (some (c, ps ++ qs), t)
  | n + 1, m, .again e, c, t =>
    match run g n m e (m.gap c) t with
    | (none, t) => (some (c, []), t)
    | (some (c, ps), t) =>
      match run g n m (.again e) c t with
      | (none, t) => (none, t)
      | (some (c, qs), t) => (some (c, ps ++ qs), t)
  | n + 1, m, .not e, c, t =>
    match run g n { m with negated := !m.negated } e c t with
    | (some _, t) => (none, t)
    | (none, t) => (some (c, []), t)
  | n + 1, m, .rule r, c, t =>
    let outer := m.around (g r).1
    let marks := t.marksAt c.offset
    let note := fun t : Attempts =>
      if outer.style = .atomic then t else t.note r c.offset m.negated marks
    match run g n (m.inside (g r).1) (g r).2 c t with
    | (none, t) => (none, if m.negated then t else note t)
    | (some (d, ps), t) =>
      (some (d, if outer.style = .atomic then [] else [.mk r c.offset d.offset c.rest ps]),
        if m.negated then note t else t)

end MacroEngine.Grammar
