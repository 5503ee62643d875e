import MacroEngine.Config.Data
import MacroEngine.Config.Yaml.Token

/-!
# Documents of a configuration file

The data that a list of tokens stands for: at most one document. Where a value may be left out,
nothing counts as one. Keys are scalars, and an item between square brackets has no key.

Each function that reads nested values takes a bound on the number of nested calls;
`ConfigData.ofTokens?` gives one that the number of tokens keeps out of reach.
-/

namespace MacroEngine

namespace Yaml

/-- Data that was read, and the tokens behind it. -/
abbrev Reading := Option (ConfigData × List Token)

/-- A value that is left out if one of `ends` follows, and is read otherwise. -/
def optional (ends : List Token) (read : List Token → Reading) (tokens : List Token) :
    Reading :=
  if tokens.head?.any (ends.contains ·) then some (.absent, tokens) else read tokens

/-- The value behind a key, if there is a colon. -/
def behindColon (ends : List Token) (read : List Token → Reading) :
    List Token → Reading
  | .colon :: rest => optional ends read rest
  | tokens => some (.absent, tokens)

/-- What may follow a key, or the colon behind it, where nothing is said. -/
def blockEntryEnds : List Token := [.key, .colon, .blockEnd]

mutual

/-- Reads a value. A list directly under a key need not be a block of its own. -/
def value : Nat → Bool → List Token → Reading
  | 0, _, _ => none
  | n + 1, underKey, tokens =>
    match tokens with
    | .scalar text :: rest => some (.text text, rest)
    | .flowListStart :: rest => flowList n [] rest
    | .flowMapStart :: rest => flowMap n [] rest
    | .blockListStart :: rest => blockList n [] rest
    | .blockMapStart :: rest => blockMap n [] rest
    | .dash :: _ => if underKey then looseList n [] tokens else none
    | _ => none

/-- Reads the rest of a list in brackets, after some of its items. -/
def flowList : Nat → List ConfigData → List Token → Reading
  | 0, _, _ => none
  | n + 1, items, tokens =>
    match tokens with
    | .flowListEnd :: rest => some (.list items, rest)
    | _ => do
      let (item, rest) ← value n false tokens
      match rest with
      | .comma :: rest => flowList n (items ++ [item]) rest
      | .flowListEnd :: rest => some (.list (items ++ [item]), rest)
      | _ => none

def flowMap : Nat → List (String × ConfigData) → List Token → Reading
  | 0, _, _ => none
  | n + 1, entries, tokens =>
    match tokens with
    | .flowMapEnd :: rest => some (.map entries, rest)
    | _ => do
      let ((key, data), rest) ←
        match tokens with
        | .key :: rest => do
          let (key, rest) ← optional [.colon, .comma, .flowMapEnd] (value n false) rest
          let (data, rest) ← behindColon [.comma, .flowMapEnd] (value n false) rest
          pure ((key, data), rest)
        | _ => do
          let (key, rest) ← value n false tokens
          pure ((key, .absent), rest)
      let entries := entries ++ [(← key.text?, data)]
      match rest with
      | .comma :: rest => flowMap n entries rest
      | .flowMapEnd :: rest => some (.map entries, rest)
      | _ => none

def blockList : Nat → List ConfigData → List Token → Reading
  | 0, _, _ => none
  | n + 1, items, tokens =>
    match tokens with
    | .dash :: rest => do
      let (item, rest) ← optional [.dash, .blockEnd] (value n false) rest
      blockList n (items ++ [item]) rest
    | .blockEnd :: rest => some (.list items, rest)
    | _ => none

/-- Reads the rest of a list directly under a key; it ends where no item follows. -/
def looseList : Nat → List ConfigData → List Token → Reading
  | 0, _, _ => none
  | n + 1, items, tokens =>
    match tokens with
    | .dash :: rest => do
      let (item, rest) ← optional (.dash :: blockEntryEnds) (value n false) rest
      looseList n (items ++ [item]) rest
    | _ => some (.list items, tokens)

def blockMap : Nat → List (String × ConfigData) → List Token → Reading
  | 0, _, _ => none
  | n + 1, entries, tokens =>
    match tokens with
    | .key :: rest => do
      let (key, rest) ← optional blockEntryEnds (value n true) rest
      let (data, rest) ← behindColon blockEntryEnds (value n true) rest
      blockMap n (entries ++ [(← key.text?, data)]) rest
    | .blockEnd :: rest => some (.map entries, rest)
    | _ => none

end

/-- Reads the value of a document. Behind a start marker it may be left out. -/
def document (n : Nat) : List Token → Reading
  | [] => some (.absent, [])
  | .documentStart :: [] => some (.absent, [])
  | .documentStart :: rest => optional [.documentStart, .documentEnd] (value n false) rest
  | tokens => value n false tokens

end Yaml

/-- The data in a list of tokens, if that is one document, with any number of end markers. -/
def ConfigData.ofTokens? (tokens : List Yaml.Token) : Option ConfigData := do
  let (data, rest) ← Yaml.document (2 * tokens.length + 2) tokens
  if rest.all (· == .documentEnd) then some data else none

end MacroEngine
