import MacroEngine.Proofs.Grammar.Terminals
import MacroEngine.TypeAnnotation

/-!
# Reading type annotations

The grammar of annotations: a factor is a name, a name with arguments, an object or a text in
parentheses, with any number of `[]` behind it; factors are joined by `&`, and what that gives is joined
by `|`. So `&` binds tighter than `|`, and both bind less tightly than what is written behind a factor.

A text has one reading at most. This is shown by a scanner that goes through a text once, from left to
right, with a level for every bracket that is open. It takes more texts than the grammar has, but what it
makes of a text of the grammar is what the grammar reads in it.
-/

namespace MacroEngine

open Printer (isNameStart isNameChar isPlainKey)

namespace IntrinsicType

def all : List IntrinsicType :=
  [.string, .number, .boolean, .any, .null, .undefined, .void, .never]

def ofLabel? (name : String) : Option IntrinsicType := all.find? (·.label = name)

@[simp] theorem ofLabel?_label (type : IntrinsicType) : ofLabel? type.label = some type := by
  cases type <;> decide

end IntrinsicType

namespace TypeAnnotation

def named (name : String) : TypeAnnotation :=
  match IntrinsicType.ofLabel? name with
  | some type => .intrinsic type
  | none => .reference name 0

/-- The type of factors that are joined by `&`. A factor alone stands for itself. -/
def meet : List TypeAnnotation → TypeAnnotation
  | [type] => type
  | factors => .intersection factors

/-- The type of terms that are joined by `|`. A term alone stands for itself. -/
def join : List TypeAnnotation → TypeAnnotation
  | [type] => type
  | terms => .union terms

def regroup (products : List (List TypeAnnotation)) : TypeAnnotation := join (products.map meet)

mutual

/-- The text is a factor and stands for the type. -/
inductive ReadsFactor : String → TypeAnnotation → Prop where
  | name {n} (hname : isPlainKey n = true) : ReadsFactor n (named n)
  | resolved (id : Nat) : ReadsFactor ("#" ++ toString id) (.resolved id)
  | generic {n} (hname : isPlainKey n = true) :
    ReadsFactor (n ++ "<" ++ ">") (.generic (.reference n 0) [])
  | arguments {n s args} (hname : isPlainKey n = true) (h : ReadsArguments s args) :
    ReadsFactor (n ++ "<" ++ s ++ ">") (.generic (.reference n 0) args)
  | empty : ReadsFactor "\x7b\x7d" (.object [])
  | object {s ms} (h : ReadsMembers s ms) : ReadsFactor ("\x7b " ++ s ++ " \x7d") (.object ms)
  | paren {s ps} (h : ReadsSum s ps) : ReadsFactor ("(" ++ s ++ ")") (regroup ps)
  | array {s type} (h : ReadsFactor s type) : ReadsFactor (s ++ "[]") (.array type)

inductive ReadsProduct : String → List TypeAnnotation → Prop where
  | one {s type} (h : ReadsFactor s type) : ReadsProduct s [type]
  | more {s s' type types} (h : ReadsFactor s type) (h' : ReadsProduct s' types) :
    ReadsProduct (s ++ " & " ++ s') (type :: types)

inductive ReadsSum : String → List (List TypeAnnotation) → Prop where
  | one {s p} (h : ReadsProduct s p) : ReadsSum s [p]
  | more {s s' p ps} (h : ReadsProduct s p) (h' : ReadsSum s' ps) :
    ReadsSum (s ++ " | " ++ s') (p :: ps)

inductive ReadsArguments : String → List TypeAnnotation → Prop where
  | one {s p} (h : ReadsSum s p) : ReadsArguments s [regroup p]
  | more {s s' p args} (h : ReadsSum s p) (h' : ReadsArguments s' args) :
    ReadsArguments (s ++ ", " ++ s') (regroup p :: args)

inductive ReadsMembers : String → List (String × TypeAnnotation × Bool) → Prop where
  | one {n o s p} (hname : isPlainKey n = true) (h : ReadsSum s p) :
    ReadsMembers (memberText n o s) [(n, regroup p, o)]
  | more {n o s s' p ms} (hname : isPlainKey n = true) (h : ReadsSum s p)
    (h' : ReadsMembers s' ms) :
    ReadsMembers (memberText n o s ++ "; " ++ s') ((n, regroup p, o) :: ms)

end

theorem ReadsProduct.ne_nil {s : String} {types : List TypeAnnotation} (h : ReadsProduct s types) :
    types ≠ [] := by
  cases h <;> exact List.cons_ne_nil _ _

/-- The text can be read as the type. -/
def Reads (s : String) (type : TypeAnnotation) : Prop := ∃ ps, ReadsSum s ps ∧ regroup ps = type

/-- What was read of a sum: its finished terms, and the factors of the term at hand. -/
structure Level where
  terms : List TypeAnnotation
  factors : List TypeAnnotation

namespace Level

def empty : Level := ⟨[], []⟩

def put (level : Level) (type : TypeAnnotation) : Level :=
  { level with factors := level.factors ++ [type] }

def type? (level : Level) : List TypeAnnotation :=
  if level.factors.isEmpty then [] else [join (level.terms ++ [meet level.factors])]

end Level

/-- What an open bracket is for, and what was read in it up to the part at hand. -/
inductive Opening where
  | paren
  | arguments (name : String) (args : List TypeAnnotation)
  | object (members : List (String × TypeAnnotation × Bool))
  /-- The type of a member with a name. -/
  | member (members : List (String × TypeAnnotation × Bool)) (name : String) (isOptional : Bool)

/-- The brackets that are open, each with what was read in front of it, what was read behind the last
one, and the letters of a word that may go on. -/
structure Scanner where
  outer : List (Level × Opening)
  level : Level
  word : List Char

/-- A character of a name or a number, or the mark of an optional member. -/
def isWordChar (c : Char) : Bool := isNameChar c || c = '#' || c = '?'

def wordType : List Char → TypeAnnotation
  | '#' :: digits => .resolved (Nat.ofDigitChars 10 digits 0)
  | word => named (String.ofList word)

namespace Scanner

def start : Scanner := ⟨[], .empty, []⟩

/-- The word at hand is over. -/
def flush (σ : Scanner) : Scanner :=
  match σ.word with
  | [] => σ
  | word => { σ with level := σ.level.put (wordType word), word := [] }

def finish (σ : Scanner) : Scanner :=
  match σ.outer with
  | (level, .arguments name args) :: outer =>
    ⟨(level, .arguments name (args ++ σ.level.type?)) :: outer, .empty, []⟩
  | (level, .member members name isOptional) :: outer =>
    let members := members ++ σ.level.type?.map fun type => (name, type, isOptional)
    ⟨(level, .object members) :: outer, .empty, []⟩
  | _ => σ

def close (σ : Scanner) : Scanner :=
  match σ.finish.outer with
  | (level, .paren) :: outer => ⟨outer, σ.level.type?.foldl Level.put level, []⟩
  | (level, .arguments name args) :: outer =>
    ⟨outer, level.put (.generic (.reference name 0) args), []⟩
  | (level, .object members) :: outer => ⟨outer, level.put (.object members), []⟩
  | _ => σ

/-- A sign behind a word that is over. -/
def sign (σ : Scanner) (c : Char) : Scanner :=
  match c with
  | '|' => { σ with level := ⟨σ.level.terms ++ [meet σ.level.factors], []⟩ }
  | '[' =>
    match σ.level.factors.getLast? with
    | some type => { σ with level := ⟨σ.level.terms, σ.level.factors.dropLast ++ [.array type]⟩ }
    | none => σ
  | '(' => ⟨(σ.level, .paren) :: σ.outer, .empty, []⟩
  | '\x7b' => ⟨(σ.level, .object []) :: σ.outer, .empty, []⟩
  | ',' | ';' => σ.finish
  | ')' | '>' | '\x7d' => σ.close
  | _ => σ

/-- The word at hand is the name of a member, with a mark behind it if the member is optional. -/
def describe (σ : Scanner) : Scanner :=
  match σ.outer with
  | (level, .object members) :: outer =>
    let isOptional := σ.word.getLast? = some '?'
    let name := String.ofList (if isOptional then σ.word.dropLast else σ.word)
    ⟨(level, .member members name isOptional) :: outer, .empty, []⟩
  | _ => σ

def step (σ : Scanner) (c : Char) : Scanner :=
  if isWordChar c then { σ with word := σ.word ++ [c] }
  else if c = '<' then ⟨(σ.level, .arguments (String.ofList σ.word) []) :: σ.outer, .empty, []⟩
  else if c = ':' then σ.describe
  else σ.flush.sign c

def run (σ : Scanner) (s : String) : Scanner := s.toList.foldl step σ

@[simp] theorem run_append (σ : Scanner) (s s' : String) : σ.run (s ++ s') = (σ.run s).run s' := by
  simp [run]

theorem run_words (σ : Scanner) {cs : List Char} (h : ∀ c ∈ cs, isWordChar c = true) :
    cs.foldl step σ = { σ with word := σ.word ++ cs } := by
  induction cs generalizing σ with
  | nil => simp
  | cons c cs ih =>
    obtain ⟨hc, hcs⟩ := List.forall_mem_cons.mp h
    rw [List.foldl_cons, ih _ hcs, step, if_pos hc]
    simp

@[simp] theorem word_flush (σ : Scanner) : σ.flush.word = [] := by
  unfold flush
  split
  · assumption
  · rfl

theorem flush_of_word {σ : Scanner} (h : σ.word = []) : σ.flush = σ := by
  unfold flush
  rw [h]

@[simp] theorem flush_flush (σ : Scanner) : σ.flush.flush = σ.flush := flush_of_word σ.word_flush

/-- A word that stands behind what was read. -/
theorem flush_word (outer : List (Level × Opening)) (level : Level) {word : List Char}
    (h : word ≠ []) : flush ⟨outer, level, word⟩ = ⟨outer, level.put (wordType word), []⟩ := by
  cases word with
  | nil => exact absurd rfl h
  | cons c cs => rfl

theorem run_amp (σ : Scanner) : σ.run " & " = σ.flush := by
  change σ.flush.flush.flush = σ.flush
  simp

theorem run_bar (σ : Scanner) : σ.run " | " = σ.flush.sign '|' := by
  change (σ.flush.flush.sign '|').flush = _
  rw [flush_flush]
  exact flush_of_word σ.word_flush

theorem run_comma (σ : Scanner) (level : Level) (name : String) (args : List TypeAnnotation)
    (outer : List (Level × Opening)) (h : σ.flush.finish = ⟨(level, .arguments name args) :: outer,
      .empty, []⟩) : σ.run ", " = ⟨(level, .arguments name args) :: outer, .empty, []⟩ := by
  change (σ.flush.finish).flush = _
  rw [h]
  rfl

theorem run_semicolon (σ : Scanner) (level : Level)
    (members : List (String × TypeAnnotation × Bool)) (outer : List (Level × Opening))
    (h : σ.flush.finish = ⟨(level, .object members) :: outer, .empty, []⟩) :
    σ.run "; " = ⟨(level, .object members) :: outer, .empty, []⟩ := by
  change (σ.flush.finish).flush = _
  rw [h]
  rfl

theorem run_brackets (outer : List (Level × Opening)) (level : Level) (type : TypeAnnotation)
    {σ : Scanner} (h : σ.flush = ⟨outer, level.put type, []⟩) :
    σ.run "[]" = ⟨outer, level.put (.array type), []⟩ := by
  change ((σ.flush.sign '[').flush).sign ']' = _
  rw [h]
  simp [sign, flush, Level.put]

end Scanner

open Scanner

section Words

variable {name : String}

/-- A name is a word, and the word stands for the type with this name. -/
theorem word_of_isPlainKey (h : isPlainKey name = true) : name.toList ≠ [] ∧
    (∀ c ∈ name.toList, isWordChar c = true) ∧ wordType name.toList = named name := by
  obtain ⟨c, cs, hname, hc, -⟩ := Grammar.isPlainKey_iff.mp h
  have hhash : c ≠ '#' := by
    rintro rfl
    exact absurd hc (by decide)
  refine ⟨hname ▸ List.cons_ne_nil c cs, fun c' hc' => ?_, ?_⟩
  · simp [isWordChar, Grammar.isRun_of_isPlainKey h c' hc']
  · rw [← String.ofList_toList (s := name), hname, String.toList_ofList]
    unfold wordType
    split
    · rename_i heq
      exact absurd (List.cons.inj heq).1 hhash
    · rfl

/-- A name does not end in the mark of an optional member. -/
theorem getLast?_of_isPlainKey (h : isPlainKey name = true) : name.toList.getLast? ≠ some '?' :=
  fun hlast => absurd (Grammar.isRun_of_isPlainKey h _ (List.mem_of_getLast? hlast)) (by decide)

theorem word_of_id (id : Nat) : (∀ c ∈ ("#" ++ toString id).toList, isWordChar c = true) ∧
    ("#" ++ toString id).toList ≠ [] ∧ wordType ("#" ++ toString id).toList = .resolved id := by
  have htext : ("#" ++ toString id).toList = '#' :: Nat.toDigits 10 id := by
    simp
  rw [htext]
  refine ⟨List.forall_mem_cons.mpr ⟨by decide, fun c hc => ?_⟩, List.cons_ne_nil _ _, ?_⟩
  · have hdigit := Nat.isDigit_of_mem_toDigits (by decide) (by decide) hc
    simp [isWordChar, isNameChar, Char.isAlphanum, hdigit]
  · rw [wordType, Nat.ofDigitChars_ten_toDigits]

end Words

section Scans

variable {s : String} {outer : List (Level × Opening)}

theorem run_name {name : String} (h : ∀ c ∈ name.toList, isWordChar c = true) (level : Level) :
    run ⟨outer, level, []⟩ name = ⟨outer, level, name.toList⟩ := by
  rw [run, run_words _ h]
  rfl

/-- The key of a member, up to its type. -/
theorem run_key {name : String} (hname : isPlainKey name = true) (isOptional : Bool) (level : Level)
    (members : List (String × TypeAnnotation × Bool)) :
    run ⟨(level, .object members) :: outer, .empty, []⟩
      (name ++ (if isOptional then "?" else "") ++ ": ") =
    ⟨(level, .member members name isOptional) :: outer, .empty, []⟩ := by
  obtain ⟨hne, hword, -⟩ := word_of_isPlainKey hname
  have hlast := getLast?_of_isPlainKey hname
  have hrun : ∀ σ : Scanner, σ.run ": " = σ.describe.flush := fun _ => rfl
  rw [run_append, run_append, hrun, run_name hword]
  cases isOptional with
  | false =>
    change (describe ⟨_, _, name.toList⟩).flush = _
    simp [describe, flush, hlast]
  | true =>
    change (describe ⟨_, _, name.toList ++ ['?']⟩).flush = _
    simp [describe, flush]

/-- Behind an open bracket, the text is scanned to a level that holds the type. -/
def ScansTo (s : String) (type : TypeAnnotation) : Prop := ∀ outer, ∃ level,
  (run ⟨outer, .empty, []⟩ s).flush = ⟨outer, level, []⟩ ∧ level.type? = [type]

theorem finish_argument {type : TypeAnnotation} (h : ScansTo s type)
    (outer : List (Level × Opening)) (level : Level) (name : String) (args : List TypeAnnotation) :
    (run ⟨(level, .arguments name args) :: outer, .empty, []⟩ s).flush.finish =
      ⟨(level, .arguments name (args ++ [type])) :: outer, .empty, []⟩ := by
  obtain ⟨inner, hscan, htype⟩ := h ((level, .arguments name args) :: outer)
  rw [hscan, finish, htype]

theorem finish_member {type : TypeAnnotation} (h : ScansTo s type)
    (outer : List (Level × Opening)) (level : Level) (members : List (String × TypeAnnotation × Bool))
    {name : String} (hname : isPlainKey name = true) (isOptional : Bool) :
    (run ⟨(level, .object members) :: outer, .empty, []⟩
      (memberText name isOptional s)).flush.finish =
        ⟨(level, .object (members ++ [(name, type, isOptional)])) :: outer, .empty, []⟩ := by
  obtain ⟨inner, hscan, htype⟩ := h ((level, .member members name isOptional) :: outer)
  rw [memberText, run_append, run_key hname, hscan, finish]
  simp only [htype]
  rfl

mutual

theorem ReadsFactor.scan : ∀ {s type}, ReadsFactor s type → ∀ outer level,
    (run ⟨outer, level, []⟩ s).flush = ⟨outer, level.put type, []⟩
  | _, _, .name hname, outer, level => by
    obtain ⟨hne, hword, htype⟩ := word_of_isPlainKey hname
    rw [run_name hword, flush_word outer level hne, htype]
  | _, _, .resolved id, outer, level => by
    obtain ⟨hword, hne, htype⟩ := word_of_id id
    rw [run_name hword, flush_word outer level hne, htype]
  | _, _, .generic (n := name) hname, outer, level => by
    obtain ⟨-, hword, -⟩ := word_of_isPlainKey hname
    rw [run_append, run_append, run_name hword]
    change (close ⟨(level, .arguments (String.ofList name.toList) []) :: outer, .empty, []⟩).flush = _
    rw [String.ofList_toList]
    rfl
  | _, _, .arguments (n := name) (s := s) hname hargs, outer, level => by
    obtain ⟨-, hword, -⟩ := word_of_isPlainKey hname
    have hscan := hargs.scan outer level name []
    rw [run_append, run_append, run_append, run_name hword]
    change ((run ⟨(level, .arguments (String.ofList name.toList) []) :: outer, .empty, []⟩
      s).flush.close).flush = _
    rw [String.ofList_toList, close, hscan]
    rfl
  | _, _, .empty, _, _ => rfl
  | _, _, .object (s := s) hms, outer, level => by
    have hscan := hms.scan outer level []
    rw [run_append, run_append]
    change ((run ⟨(level, .object []) :: outer, .empty, []⟩ s).flush.flush.close).flush = _
    rw [flush_flush, close, hscan]
    rfl
  | _, _, .paren (s := s) hsum, outer, level => by
    obtain ⟨inner, hscan, htype⟩ := hsum.scan ((level, .paren) :: outer) []
    rw [run_append, run_append]
    change ((run ⟨(level, .paren) :: outer, ⟨[], []⟩, []⟩ s).flush.close).flush = _
    rw [hscan]
    simp only [close, finish, htype]
    rfl
  | _, _, .array h, outer, level => by
    rw [run_append, run_brackets outer level _ (h.scan outer level)]
    rfl

theorem ReadsProduct.scan : ∀ {s types}, ReadsProduct s types → ∀ outer level,
    (run ⟨outer, level, []⟩ s).flush = ⟨outer, ⟨level.terms, level.factors ++ types⟩, []⟩
  | _, _, .one h, outer, level => h.scan outer level
  | _, _, .more h h', outer, level => by
    rw [run_append, run_append, run_amp, h.scan outer level, h'.scan outer _]
    simp [Level.put]

theorem ReadsSum.scan : ∀ {s ps}, ReadsSum s ps → ∀ outer terms, ∃ level,
    (run ⟨outer, ⟨terms, []⟩, []⟩ s).flush = ⟨outer, level, []⟩ ∧
      level.type? = [join (terms ++ ps.map meet)]
  | _, _, .one (p := p) h, outer, terms => by
    refine ⟨⟨terms, p⟩, h.scan outer ⟨terms, []⟩, ?_⟩
    rw [Level.type?, if_neg (by simpa using h.ne_nil)]
    rfl
  | _, _, .more (p := p) h h', outer, terms => by
    obtain ⟨level, hscan, htype⟩ := h'.scan outer (terms ++ [meet p])
    refine ⟨level, ?_, ?_⟩
    · rw [run_append, run_append, run_bar, h.scan outer ⟨terms, []⟩]
      exact hscan
    · rw [htype, List.append_assoc]
      rfl

theorem ReadsArguments.scan : ∀ {s args}, ReadsArguments s args → ∀ outer level name before,
    (run ⟨(level, .arguments name before) :: outer, .empty, []⟩ s).flush.finish =
      ⟨(level, .arguments name (before ++ args)) :: outer, .empty, []⟩
  | _, _, .one h, outer, level, name, before =>
    finish_argument (fun outer => h.scan outer []) outer level name before
  | _, _, .more h h', outer, level, name, before => by
    have hfirst := finish_argument (fun outer => h.scan outer []) outer level name before
    rw [run_append, run_append, run_comma _ _ _ _ _ hfirst, h'.scan, List.append_assoc]
    rfl

theorem ReadsMembers.scan : ∀ {s ms}, ReadsMembers s ms → ∀ outer level before,
    (run ⟨(level, .object before) :: outer, .empty, []⟩ s).flush.finish =
      ⟨(level, .object (before ++ ms)) :: outer, .empty, []⟩
  | _, _, .one hname h, outer, level, before =>
    finish_member (fun outer => h.scan outer []) outer level before hname _
  | _, _, .more (o := isOptional) hname h h', outer, level, before => by
    have hfirst := finish_member (fun outer => h.scan outer []) outer level before hname isOptional
    rw [run_append, run_append, run_semicolon _ _ _ _ hfirst, h'.scan, List.append_assoc]
    rfl

end

def scan (s : String) : List TypeAnnotation := (start.run s).flush.level.type?

theorem Reads.scan {type : TypeAnnotation} (h : Reads s type) : scan s = [type] := by
  obtain ⟨ps, hsum, rfl⟩ := h
  obtain ⟨level, hscan, htype⟩ := hsum.scan [] []
  unfold TypeAnnotation.scan
  rw [start, Level.empty, hscan]
  exact htype

/-- A text has one reading at most. -/
theorem Reads.unique {type type' : TypeAnnotation} (h : Reads s type) (h' : Reads s type') :
    type = type' := List.singleton_inj.mp (h.scan.symm.trans h'.scan)

end Scans

end TypeAnnotation

end MacroEngine
