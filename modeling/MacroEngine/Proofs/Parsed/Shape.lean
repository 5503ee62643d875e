import MacroEngine.Proofs.Parsed.Nodes
import MacroEngine.Proofs.Parsed.Readable

/-!
# The shape of parsed files

What the printer and the passes take for granted of a tree holds of whatever is parsed: names are
names, numbers are numbers, and every function, method and arrow has the body that the text gives it.
-/

namespace MacroEngine

open Grammar

/-- Letters, digits, `_` and `$`, all of them ASCII, not a digit first, and not a keyword. -/
structure IsIdentifier (name : String) : Prop where
  plain : Printer.isPlainKey name = true
  ascii : ∀ c ∈ name.toList, c.toNat < 128
  free : name ∉ Host.reserved

theorem toNat_lt_of_isNameChar {c : Char} (h : Printer.isNameChar c = true) : c.toNat < 128 := by
  simp only [Printer.isNameChar, Bool.or_eq_true, decide_eq_true_eq] at h
  rcases h with (h | rfl) | rfl
  · change ((decide ('A'.val ≤ c.val ∧ c.val ≤ 'Z'.val) ||
      decide ('a'.val ≤ c.val) && decide (c.val ≤ 'z'.val)) ||
      decide ('0'.val ≤ c.val) && decide (c.val ≤ '9'.val)) = true at h
    simp only [Bool.or_eq_true, Bool.and_eq_true, decide_eq_true_eq, UInt32.le_iff_toNat_le] at h
    have hc : c.toNat = c.val.toNat := rfl
    have hupper : 'Z'.val.toNat = 90 := rfl
    have hlower : 'z'.val.toNat = 122 := rfl
    have hdigit : '9'.val.toNat = 57 := rfl
    omega
  · decide
  · decide

theorem isIdentifier_of_whole {name : String} (h : Whole .identifier name) : IsIdentifier name := by
  obtain ⟨hplain, hfree⟩ := whole_identifier_iff.mp h
  exact ⟨hplain, fun c hc => toNat_lt_of_isNameChar (isRun_of_isPlainKey hplain c hc), hfree⟩

def FunctionHead.identifiers (head : FunctionHead) : List String := head.name.toList ++ head.params

def Member.identifiers : Member → List String
  | .field _ _ _ => []
  | .method _ head _ => head.params

/-- The identifiers that a node has itself: variables, parameters, tags, and the names of macros,
functions, classes, derives and imports. -/
def Item.identifiers : Item → List String
  | .expr (.ident _ name) => [name]
  | .expr (.tagged _ tag _) => [tag]
  | .expr (.invoke _ name _) => [name]
  | .expr (.arrow _ names _ _) | .expr (.arrowExpr _ names _ _) => names
  | .expr (.function _ head _) | .stmt (.function _ head _) => head.identifiers
  | .stmt (.importNames _ names _) => names
  | .stmt (.classDecl _ head members) =>
    head.name :: (head.derives ++ members.flatMap Member.identifiers)
  | .stmt (.binding _ _ name _ _) | .stmt (.forOf _ _ name _ _) => [name]
  | _ => []

def Member.name : Member → String
  | .field _ name _ => name
  | .method _ head _ => head.name

/-- The names of members that a node has itself. -/
def Item.memberNames : Item → List String
  | .expr (.member _ _ property) => [property]
  | .stmt (.classDecl _ _ members) => members.map Member.name
  | _ => []

/-- The text between the backticks of a template, with or without a tag. -/
def Item.raws : Item → List String
  | .expr (.template _ raw) | .expr (.tagged _ _ raw) => [raw]
  | _ => []

/-- What holds of every tree that a text is parsed to. -/
structure SourceFile.Shapely (text : String) (file : SourceFile) : Prop where
  identifiers : ∀ item ∈ file.items, ∀ name ∈ item.identifiers, IsIdentifier name
  memberNames : ∀ item ∈ file.items, ∀ name ∈ item.memberNames, Whole .propertyName name
  methods : ∀ s head members, Item.stmt (.classDecl s head members) ∈ file.items →
    ∀ s' head' body, Member.method s' head' body ∈ members → head'.name = "async" →
      head'.isAsync = true
  numbers : ∀ s digits, Item.expr (.number s digits) ∈ file.items → Whole .number digits
  raws : ∀ item ∈ file.items, ∀ raw ∈ item.raws, '`' ∉ raw.toList
  named : ∀ s head body, Item.stmt (.function s head body) ∈ file.items → head.name ≠ none
  internal : ∀ s head body, Item.expr (.function s head body) ∈ file.items →
    head.visibility = .internal
  alternatives : ∀ s condition consequence alternative,
    Item.stmt (.ifElse s condition consequence (some alternative)) ∈ file.items →
      (∃ s c t e, alternative = .ifElse s c t e) ∨ ∃ s b, alternative = .block s b
  /-- Every block, bodies of methods and arrows among them, is written in the text. -/
  written : ∀ o ∈ file.outline.nodes, o.kind = .block → o.span.IsBraced text

section Regular

theorem FunctionHead.Regular.isIdentifier {head : FunctionHead} (h : head.Regular) :
    ∀ name ∈ head.identifiers, IsIdentifier name := by
  intro name hname
  rcases List.mem_append.mp hname with hname | hname
  · exact isIdentifier_of_whole (h.1 name (Option.mem_toList.mp hname))
  · exact isIdentifier_of_whole (h.2 name hname)

theorem Item.Regular.isIdentifier {item : Item} (h : item.Regular) :
    ∀ name ∈ item.identifiers, IsIdentifier name := by
  intro name hname
  unfold Item.identifiers at hname
  split at hname
  · obtain rfl := List.mem_singleton.mp hname
    exact isIdentifier_of_whole h
  · obtain rfl := List.mem_singleton.mp hname
    exact isIdentifier_of_whole h.1
  · obtain rfl := List.mem_singleton.mp hname
    exact isIdentifier_of_whole h
  · exact isIdentifier_of_whole (h name hname)
  · exact isIdentifier_of_whole (h name hname)
  · exact h.1.isIdentifier name hname
  · exact h.1.isIdentifier name hname
  · exact isIdentifier_of_whole (h name hname)
  · obtain ⟨hclass, hderives, hmembers⟩ := h
    rcases List.mem_cons.mp hname with rfl | hname
    · exact isIdentifier_of_whole hclass
    rcases List.mem_append.mp hname with hname | hname
    · exact isIdentifier_of_whole (hderives name hname)
    · obtain ⟨m, hm, hname⟩ := List.mem_flatMap.mp hname
      have hm := hmembers m hm
      cases m with
      | field => cases hname
      | method => exact isIdentifier_of_whole (hm.2.2 name hname)
  · obtain rfl := List.mem_singleton.mp hname
    exact isIdentifier_of_whole h
  · obtain rfl := List.mem_singleton.mp hname
    exact isIdentifier_of_whole h
  · cases hname

theorem Item.Regular.memberNames {item : Item} (h : item.Regular) :
    ∀ name ∈ item.memberNames, Whole .propertyName name := by
  intro name hname
  unfold Item.memberNames at hname
  split at hname
  · obtain rfl := List.mem_singleton.mp hname
    exact h
  · obtain ⟨m, hm, rfl⟩ := List.mem_map.mp hname
    have hm := h.2.2 m hm
    cases m with
    | field => exact hm
    | method => exact hm.1
  · cases hname

theorem Item.Regular.raws {item : Item} (h : item.Regular) :
    ∀ raw ∈ item.raws, '`' ∉ raw.toList := by
  intro raw hraw
  unfold Item.raws at hraw
  split at hraw
  · obtain rfl := List.mem_singleton.mp hraw
    exact h
  · obtain rfl := List.mem_singleton.mp hraw
    exact h.2
  · cases hraw

end Regular

/-- Parsing a text refuses it for what does not match, and nothing else, or yields a tree of the shape
that the rest of the program relies on. -/
theorem SourceFile.parse_shapely (path : SourcePath) (text : String) (n : NodeId) :
    (∃ m, (SourceFile.parse path text).run n = (.error (.mismatch path m), n)) ∨
      ∃ file k, (SourceFile.parse path text).run n = (.ok file, k) ∧ file.Shapely text := by
  cases hp : recognize text.toList with
  | error m =>
    refine .inl ⟨m, ?_⟩
    unfold SourceFile.parse
    rw [hp]
    rfl
  | ok p =>
    obtain ⟨⟨file, k⟩, hfile⟩ := fileOf_succeeds hp path n
    have hparse := SourceFile.run_parse_eq_ok.mpr ⟨p, hp, hfile⟩
    have hregular := (SourceFile.parse_numbered hparse).1.regular
    have hbraced := (SourceFile.parse_inOrder hparse).2.braced
    rw [Outline.nodesAll_singleton] at hbraced
    refine .inr ⟨file, k, hparse, ?_, ?_, ?_, ?_, ?_, ?_, ?_, ?_, hbraced⟩
    · exact fun item hitem => (hregular item hitem).isIdentifier
    · exact fun item hitem => (hregular item hitem).memberNames
    · intro s head members hitem s' head' body hmember
      exact ((hregular _ hitem).2.2 _ hmember).2.1
    · exact fun s digits hitem => hregular _ hitem
    · exact fun item hitem => (hregular item hitem).raws
    · exact fun s head body hitem => (hregular _ hitem).2
    · exact fun s head body hitem => (hregular _ hitem).2
    · intro s condition consequence alternative hitem
      have halternative := hregular _ hitem alternative rfl
      cases alternative with
      | ifElse s c t e => exact .inl ⟨s, c, t, e, rfl⟩
      | block s b => exact .inr ⟨s, b, rfl⟩
      | _ => cases halternative

end MacroEngine
