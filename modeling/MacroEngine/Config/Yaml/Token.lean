import MacroEngine.Config.Yaml.Scalar

/-!
# Tokens of a configuration file

The text of a configuration file as a list of tokens. Outside brackets, collections are told by
their columns, so tokens for their beginnings and ends are put in. A key needs no mark in front of
it: that a scalar or a collection in brackets was one shows only when its colon comes, on the same
line and within 1024 bytes, and then the token for the key is put in where the key began.

Anchors, tags, block scalars and directives are no tokens; a text that has them has no tokens at
all.
-/

namespace MacroEngine

namespace Yaml

inductive Token where
  | documentStart
  | documentEnd
  | blockListStart
  | blockMapStart
  | blockEnd
  | flowListStart
  | flowListEnd
  | flowMapStart
  | flowMapEnd
  /-- The dash in front of an item. -/
  | dash
  | comma
  /-- A key follows. -/
  | key
  /-- The colon between a key and its value. -/
  | colon
  | scalar (value : String)
deriving DecidableEq

/-- A place where a key may have begun. -/
structure KeyStart where
  place : Place
  /-- The number of tokens before it. -/
  index : Nat
  /-- Whether nothing but a key may stand there. -/
  isRequired : Bool

/-- The longest distance in bytes between the beginning of a key and its colon. -/
def keyReach : Nat := 1024

/-- Whether a key that began at `start` may have its colon here. -/
def KeyStart.reaches (start : KeyStart) (here : Place) : Bool :=
  start.place.line = here.line && here.offset ≤ start.place.offset + keyReach

/-- A text that has been read up to a cursor. -/
structure Tokenizer where
  cursor : Cursor
  /-- The tokens so far, the last one first. -/
  tokens : List Token
  /-- The columns of the block collections around the cursor, the innermost first. -/
  blocks : List Nat
  /-- Where a key may have begun, in the innermost brackets. -/
  keyStart : Option KeyStart
  /-- The same for the brackets around them, and last for the text outside brackets. -/
  outerKeys : List (Option KeyStart)
  /-- Whether a key may begin at the cursor. -/
  keyAllowed : Bool

namespace Tokenizer

def start (text : List Char) : Tokenizer where
  cursor := ⟨text, .first⟩
  tokens := []
  blocks := []
  keyStart := none
  outerKeys := []
  keyAllowed := true

def inFlow (t : Tokenizer) : Bool := !t.outerKeys.isEmpty

/-- The leftmost column at which a line of a scalar may start. -/
def leastColumn (t : Tokenizer) : Nat := (t.blocks.head?.map (· + 1)).getD 0

def emit (token : Token) (t : Tokenizer) : Tokenizer := { t with tokens := token :: t.tokens }

def emitMark (token : Token) (width : Nat) (t : Tokenizer) : Tokenizer :=
  { t.emit token with cursor := width.repeat Cursor.next t.cursor }

def allowKey (allowed : Bool) (t : Tokenizer) : Tokenizer := { t with keyAllowed := allowed }

/-- No key has begun in the innermost brackets; one that had to be there is missed. -/
def dropKey (t : Tokenizer) : Option Tokenizer :=
  if t.keyStart.any (·.isRequired) then none else some { t with keyStart := none }

/-- A key may have begun at the cursor. At the column of a block collection it must have. -/
def saveKey (t : Tokenizer) : Option Tokenizer :=
  if t.keyAllowed then do
    let isRequired := !t.inFlow && t.blocks.head? = some t.cursor.place.column
    let begun : KeyStart := ⟨t.cursor.place, t.tokens.length, isRequired⟩
    return { ← t.dropKey with keyStart := some begun }
  else some t

/-- The key that may have begun, unless its colon can no longer come. -/
def liveKey (here : Place) : Option KeyStart → Option (Option KeyStart)
  | none => some none
  | some begun =>
    if begun.reaches here then some (some begun)
    else if begun.isRequired then none
    else some none

def dropStaleKeys (t : Tokenizer) : Option Tokenizer := do
  let here := t.cursor.place
  return { t with
    keyStart := ← liveKey here t.keyStart
    outerKeys := ← t.outerKeys.mapM (liveKey here) }

def insertAt (index : Nat) (added : List Token) (t : Tokenizer) : Tokenizer :=
  let later := t.tokens.length - index
  { t with tokens := t.tokens.take later ++ added.reverse ++ t.tokens.drop later }

/-- Whether a block collection begins at a column: outside brackets, right of the innermost one. -/
def opensBlock (column : Nat) (t : Tokenizer) : Bool := !t.inFlow && t.leastColumn ≤ column

/-- A block collection begins at the cursor, if none has at its column. -/
def openBlock (token : Token) (t : Tokenizer) : Tokenizer :=
  let column := t.cursor.place.column
  if t.opensBlock column then { t.emit token with blocks := column :: t.blocks } else t

/-- Ends the block collections to the right of a column, or all of them. -/
def closeBlocks (column : Option Nat) (t : Tokenizer) : Tokenizer :=
  if t.inFlow then t
  else
    let still := t.blocks.dropWhile fun block => column.all (· < block)
    let closed := t.blocks.length - still.length
    { t with
      blocks := still
      tokens := List.replicate closed .blockEnd ++ t.tokens }

def takeMarker (token : Token) (t : Tokenizer) : Option Tokenizer := do
  return ((← (t.closeBlocks none).dropKey).allowKey false).emitMark token 3

def takeOpening (token : Token) (t : Tokenizer) : Option Tokenizer := do
  let t ← t.saveKey
  let inner := { t with keyStart := none, outerKeys := t.keyStart :: t.outerKeys }
  return (inner.allowKey true).emitMark token 1

def takeClosing (token : Token) (t : Tokenizer) : Option Tokenizer := do
  let t ← t.dropKey
  let outer :=
    match t.outerKeys with
    | [] => t
    | keyStart :: outerKeys => { t with keyStart, outerKeys }
  return (outer.allowKey false).emitMark token 1

def takeComma (t : Tokenizer) : Option Tokenizer := do
  return ((← t.dropKey).allowKey true).emitMark .comma 1

def takeDash (t : Tokenizer) : Option Tokenizer := do
  if !t.inFlow && !t.keyAllowed then none
  else return ((← (t.openBlock .blockListStart).dropKey).allowKey true).emitMark .dash 1

def takeQuestion (t : Tokenizer) : Option Tokenizer := do
  if !t.inFlow && !t.keyAllowed then none
  else return ((← (t.openBlock .blockMapStart).dropKey).allowKey !t.inFlow).emitMark .key 1

/-- The colon behind a key, or in the place of one. -/
def takeColon (t : Tokenizer) : Option Tokenizer :=
  match t.keyStart with
  | some begun =>
    let column := begun.place.column
    let t :=
      if t.opensBlock column then
        { t.insertAt begun.index [.blockMapStart, .key] with blocks := column :: t.blocks }
      else t.insertAt begun.index [.key]
    some (({ t with keyStart := none }.allowKey false).emitMark .colon 1)
  | none =>
    if !t.inFlow && !t.keyAllowed then none
    else some (((t.openBlock .blockMapStart).allowKey !t.inFlow).emitMark .colon 1)

def takeScalar (read : Cursor → Option Scalar) (t : Tokenizer) : Option Tokenizer := do
  let t ← t.saveKey
  let scalar ← read t.cursor
  return { (t.allowKey scalar.isPastLine).emit (.scalar (String.ofList scalar.value)) with
    cursor := scalar.cursor }

def arrive (t : Tokenizer) : Option Tokenizer := do
  let ⟨cursor, keyAllowed⟩ := skip t.inFlow t.keyAllowed t.cursor
  let t ← { t with cursor, keyAllowed }.dropStaleKeys
  return t.closeBlocks (some cursor.place.column)

/-- Takes the token that starts with `c`, with `rest` behind it. -/
def take (c : Char) (rest : List Char) (t : Tokenizer) : Option Tokenizer :=
  let isPlain := startsPlain t.inFlow c
  let plainScalar := t.takeScalar (plain t.inFlow t.leastColumn)
  if t.cursor.isAtMarker then t.takeMarker (if c = '-' then .documentStart else .documentEnd)
  else match c with
    | '[' => t.takeOpening .flowListStart
    | ']' => t.takeClosing .flowListEnd
    | '\x7b' => t.takeOpening .flowMapStart
    | '\x7d' => t.takeClosing .flowMapEnd
    | ',' => t.takeComma
    | '\'' => t.takeScalar (quoted false)
    | '"' => t.takeScalar (quoted true)
    | '-' => if atGap rest then t.takeDash else plainScalar
    | '?' => if t.inFlow || atGap rest then t.takeQuestion else plainScalar
    | ':' => if t.inFlow || atGap rest then t.takeColon else plainScalar
    | _ => if isPlain then plainScalar else none

/-- All tokens of the text, if at most `bound` of them are left. -/
def finish : Nat → Tokenizer → Option (List Token)
  | 0, _ => none
  | bound + 1, t => do
    let t ← t.arrive
    match t.cursor.rest with
    | [] => return (← (t.closeBlocks none).dropKey).tokens.reverse
    | c :: rest => finish bound (← t.take c rest)

end Tokenizer

/-- The tokens of a text. Each takes a character at least. -/
def Token.ofText? (text : List Char) : Option (List Token) :=
  (Tokenizer.start text).finish (text.length + 1)

end Yaml

end MacroEngine
