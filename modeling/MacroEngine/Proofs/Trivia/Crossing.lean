import Mathlib.Data.List.Forall2
import MacroEngine.Proofs.Grammar.Places
import MacroEngine.Proofs.Trivia.Scanned

/-!
# Carrying matches over to another text

An expression that matches on one text may match on another one in the same way. A `Crossing` says how
the two texts are related where an expression begins and behind its match, and for which expressions;
if each literal, each character and each rule keeps to that, all of these expressions do, by
induction on the match. The pairs that come out are alike.

Two crossings are given here: from one place to another with the same text behind it, and between
texts that agree up to a point at which an expression without gaps stops.
-/

namespace MacroEngine.Grammar

open Text (byteLength)
open Printer (isNameChar isPlainKey)

/-- The texts of pairs of these rules may go into the tree: those of tokens without gaps. -/
def isSpelled (r : Rule) : Bool := (host r).1 = .atomic && r ≠ .exportDefault || r = .prefixOp

/-- Pairs of the same rule, with the same inside, and with the same text if it goes into the tree. -/
inductive Pair.Alike : Pair → Pair → Prop where
  | mk {r : Rule} {i j i' j' : Nat} {source source' : List Char} {ps ps' : List Pair}
    (text : isSpelled r = true → (Pair.mk r i j source ps).text = (Pair.mk r i' j' source' ps').text)
    (inside : List.Forall₂ Pair.Alike ps ps') :
    Pair.Alike (.mk r i j source ps) (.mk r i' j' source' ps')

/-- Two matches that both fail, or lead to related places with pairs that are alike. -/
inductive Match.Agree (R : List Char → List Char → Prop) : Match → Match → Prop where
  | none : Match.Agree R none none
  | some {d d' : Cursor} {ps ps' : List Pair} (rest : R d.rest d'.rest)
    (pairs : List.Forall₂ Pair.Alike ps ps') : Match.Agree R (some (d, ps)) (some (d', ps'))

theorem Match.Agree.mono {R R' : List Char → List Char → Prop} {o o' : Match} (h : Match.Agree R o o')
    (hR : ∀ cs cs', R cs cs' → R' cs cs') : Match.Agree R' o o' := by
  cases h with
  | none => exact .none
  | some rest pairs => exact .some (hR _ _ rest) pairs

namespace Peg

/-- The expressions that an expression consists of, the later rounds of a repetition among them. -/
def parts : Peg → List Peg
  | .seq a b | .alt a b => [a, b]
  | .opt e | .not e | .again e => [e]
  | .star e => [e, .again e]
  | _ => []

def isLeaf : Peg → Bool
  | .lit _ | .charIf _ | .atEnd => true
  | _ => false

def isSpaced : Peg → Bool
  | .seq _ _ | .again _ => true
  | _ => false

end Peg

/-- How two texts are related where an expression begins in some style, and behind what it matched,
and which expressions are carried over. -/
structure Crossing where
  ready : Style → List Char → List Char → Prop
  behind : List Char → List Char → Prop
  covers : Style → Peg → Prop

namespace Crossing

/-- The texts are related as they are where the expression begins: later rounds of a repetition begin
in front of the gap. -/
def Begins (x : Crossing) (s : Style) : Peg → List Char → List Char → Prop
  | .again _ => x.behind
  | _ => x.ready s

/-- Whatever the expression does is done on the other text as well. -/
def Carries (x : Crossing) (s : Style) (e : Peg) : Prop :=
  ∀ c c' o, x.ready s c.rest c'.rest → Matches s e c o → ∃ o', Matches s e c' o' ∧ o.Agree x.behind o'

/-- Places that are related and those behind a match are the same text apart. -/
def SameText (x : Crossing) (s : Style) : Prop :=
  ∀ {c c' d d' : Cursor}, x.ready s c.rest c'.rest → x.behind d.rest d'.rest → c.Before d →
    c'.Before d' → ∃ between, c.rest = between ++ d.rest ∧ c'.rest = between ++ d'.rest

/-- Expressions that read the text themselves are carried over, and so are rules, unless their bodies
are among the expressions that the crossing covers. -/
structure Sound (x : Crossing) : Prop where
  behind : ∀ {s cs cs'}, x.ready s cs cs' → x.behind cs cs'
  parts : ∀ {s e}, x.covers s e → ∀ a ∈ e.parts, x.covers s a
  gap : ∀ {s e c c'}, x.covers s e → e.isSpaced = true → x.behind c.rest c'.rest →
    x.ready s (s.gap c).rest (s.gap c').rest
  leaf : ∀ {s e}, x.covers s e → e.isLeaf = true → x.Carries s e
  rule : ∀ {s r}, x.covers s (.rule r) → x.Carries s (.rule r) ∨
    x.covers (s.within (host r).1) (host r).2 ∧
      (∀ cs cs', x.ready s cs cs' → x.ready (s.within (host r).1) cs cs') ∧
      (isSpelled r = true → x.SameText s)

variable {x : Crossing} {s : Style} {e : Peg} {r : Rule} {c c' d d' : Cursor} {ps ps' : List Pair}
  {o : Match}

theorem Sound.part (hx : x.Sound) {a : Peg} (h : x.covers s e)
    (ha : a ∈ e.parts := by simp [Peg.parts]) : x.covers s a := hx.parts h a ha

theorem Sound.begins (hx : x.Sound) {cs cs' : List Char} (h : x.ready s cs cs') :
    x.Begins s e cs cs' := by
  cases e with
  | again => exact hx.behind h
  | _ => exact h

/-- What a rule adds on one text and on the other one is alike. -/
theorem alike_traceOf (hinside : List.Forall₂ Pair.Alike ps ps')
    (htext : isSpelled r = true → ∃ between, c.rest = between ++ d.rest ∧ c'.rest = between ++ d'.rest)
    (hd : c.Before d) (hd' : c'.Before d') :
    List.Forall₂ Pair.Alike (traceOf s r c d ps) (traceOf s r c' d' ps') := by
  unfold traceOf
  split
  · exact .nil
  · refine .cons (.mk (fun hspelled => ?_) hinside) .nil
    obtain ⟨between, hc, hc'⟩ := htext hspelled
    have hstop {a b : Cursor} (hb : a.Before b) (ha : a.rest = between ++ b.rest) :
        b.offset = a.offset + byteLength between := by
      obtain ⟨between', ha', hb⟩ := hb
      rw [hb, List.append_cancel_right (ha'.symm.trans ha)]
    rw [hc, hc', hstop hd hc, hstop hd' hc', Pair.text_mk, Pair.text_mk]

theorem Sound.carries (hx : x.Sound) (h : Matches s e c o) (hcovers : x.covers s e)
    (hbegins : x.Begins s e c.rest c'.rest) :
    ∃ o', Matches s e c' o' ∧ o.Agree x.behind o' := by
  induction h generalizing c' with
  | lit => exact hx.leaf hcovers rfl _ _ _ hbegins .lit
  | charIf h => exact hx.leaf hcovers rfl _ _ _ hbegins (.charIf h)
  | charIfNot h => exact hx.leaf hcovers rfl _ _ _ hbegins (.charIfNot h)
  | charIfEnd => exact hx.leaf hcovers rfl _ _ _ hbegins .charIfEnd
  | atEnd => exact hx.leaf hcovers rfl _ _ _ hbegins .atEnd
  | atEndNot => exact hx.leaf hcovers rfl _ _ _ hbegins .atEndNot
  | seq _ _ ih ih' =>
    obtain ⟨_, first, hfirst⟩ := ih (hx.part hcovers) (hx.begins hbegins)
    cases hfirst with
    | some hrest hps =>
      obtain ⟨_, second, hsecond⟩ := ih' (hx.part hcovers) (hx.begins (hx.gap hcovers rfl hrest))
      cases hsecond with
      | some hrest' hqs => exact ⟨_, .seq first second, .some hrest' (List.rel_append hps hqs)⟩
  | seqFirst _ ih =>
    obtain ⟨_, first, hfirst⟩ := ih (hx.part hcovers) (hx.begins hbegins)
    cases hfirst with
    | none => exact ⟨_, .seqFirst first, .none⟩
  | seqSecond _ _ ih ih' =>
    obtain ⟨_, first, hfirst⟩ := ih (hx.part hcovers) (hx.begins hbegins)
    cases hfirst with
    | some hrest _ =>
      obtain ⟨_, second, hsecond⟩ := ih' (hx.part hcovers) (hx.begins (hx.gap hcovers rfl hrest))
      cases hsecond with
      | none => exact ⟨_, .seqSecond first second, .none⟩
  | altFirst _ ih =>
    obtain ⟨_, first, hfirst⟩ := ih (hx.part hcovers) (hx.begins hbegins)
    cases hfirst with
    | some hrest hps => exact ⟨_, .altFirst first, .some hrest hps⟩
  | altSecond _ _ ih ih' =>
    obtain ⟨_, first, hfirst⟩ := ih (hx.part hcovers) (hx.begins hbegins)
    cases hfirst with
    | none =>
      obtain ⟨_, second, hsecond⟩ := ih' (hx.part hcovers) (hx.begins hbegins)
      exact ⟨_, .altSecond first second, hsecond⟩
  | opt _ ih =>
    obtain ⟨_, h, hfirst⟩ := ih (hx.part hcovers) (hx.begins hbegins)
    cases hfirst with
    | some hrest hps => exact ⟨_, .opt h, .some hrest hps⟩
  | optNot _ ih =>
    obtain ⟨_, h, hfirst⟩ := ih (hx.part hcovers) (hx.begins hbegins)
    cases hfirst with
    | none => exact ⟨_, .optNot h, .some (hx.behind hbegins) .nil⟩
  | star _ _ ih ih' =>
    obtain ⟨_, first, hfirst⟩ := ih (hx.part hcovers) (hx.begins hbegins)
    cases hfirst with
    | some hrest hps =>
      obtain ⟨_, more, hmore⟩ := ih' (hx.part hcovers) hrest
      cases hmore with
      | some hrest' hqs => exact ⟨_, .star first more, .some hrest' (List.rel_append hps hqs)⟩
  | starNot _ ih =>
    obtain ⟨_, h, hfirst⟩ := ih (hx.part hcovers) (hx.begins hbegins)
    cases hfirst with
    | none => exact ⟨_, .starNot h, .some (hx.behind hbegins) .nil⟩
  | again _ _ ih ih' =>
    obtain ⟨_, first, hfirst⟩ := ih (hx.part hcovers) (hx.begins (hx.gap hcovers rfl hbegins))
    cases hfirst with
    | some hrest hps =>
      obtain ⟨_, more, hmore⟩ := ih' hcovers hrest
      cases hmore with
      | some hrest' hqs => exact ⟨_, .again first more, .some hrest' (List.rel_append hps hqs)⟩
  | againNot _ ih =>
    obtain ⟨_, h, hfirst⟩ := ih (hx.part hcovers) (hx.begins (hx.gap hcovers rfl hbegins))
    cases hfirst with
    | none => exact ⟨_, .againNot h, .some hbegins .nil⟩
  | not _ ih =>
    obtain ⟨_, h, hfirst⟩ := ih (hx.part hcovers) (hx.begins hbegins)
    cases hfirst with
    | none => exact ⟨_, .not h, .some (hx.behind hbegins) .nil⟩
  | notNot _ ih =>
    obtain ⟨_, h, hfirst⟩ := ih (hx.part hcovers) (hx.begins hbegins)
    cases hfirst with
    | some => exact ⟨_, .notNot h, .none⟩
  | rule body ih =>
    rcases hx.rule hcovers with hcarries | ⟨hbody, hready, htext⟩
    · exact hcarries _ _ _ hbegins (.rule body)
    · obtain ⟨_, body', hagree⟩ := ih hbody (hx.begins (hready _ _ hbegins))
      cases hagree with
      | some hrest hps =>
        refine ⟨_, .rule body', .some hrest ?_⟩
        exact alike_traceOf hps (fun hr => htext hr hbegins hrest body.before body'.before)
          body.before body'.before
  | ruleNot body ih =>
    rcases hx.rule hcovers with hcarries | ⟨hbody, hready, -⟩
    · exact hcarries _ _ _ hbegins (.ruleNot body)
    · obtain ⟨_, body', hagree⟩ := ih hbody (hx.begins (hready _ _ hbegins))
      cases hagree with
      | none => exact ⟨_, .ruleNot body', .none⟩

end Crossing

section Moved

variable {s : Style} {e : Peg} {c c' : Cursor} {o : Match}

theorem agree_lit {R : List Char → List Char → Prop} {t : List Char}
    (hsome : ∀ rest, c.rest = t ++ rest → ∃ rest', c'.rest = t ++ rest' ∧ R rest rest')
    (hnone : ¬ t <+: c.rest → ¬ t <+: c'.rest) :
    Match.Agree R ((afterLit t c).map fun c => (c, [])) ((afterLit t c').map fun c => (c, [])) := by
  obtain ⟨i, cs⟩ := c
  obtain ⟨i', cs'⟩ := c'
  by_cases hpre : t <+: cs
  · obtain ⟨rest, rfl⟩ := hpre
    obtain ⟨rest', hrest', hR⟩ := hsome rest rfl
    obtain rfl : cs' = t ++ rest' := hrest'
    rw [afterLit_append, afterLit_append]
    exact .some hR .nil
  · rw [afterLit_eq_none hpre, afterLit_eq_none (hnone hpre)]
    exact .none

def moved : Crossing where
  ready _ := Eq
  behind := Eq
  covers _ _ := True

theorem moved_sound : moved.Sound where
  behind h := h
  parts _ _ _ := trivial
  gap {s e c c'} _ _ h := by
    change (s.gap c).rest = (s.gap c').rest
    unfold Style.gap
    split
    · rw [show c'.rest = c.rest from h.symm]
      exact rest_skipGap _ _ _
    · exact h
  leaf {s e} _ hleaf c c' o h hmatch := by
    obtain ⟨i, cs⟩ := c
    obtain ⟨i', _⟩ := c'
    obtain rfl : cs = _ := h
    cases hmatch with
    | lit => exact ⟨_, .lit, agree_lit (fun rest hrest => ⟨rest, hrest, rfl⟩) id⟩
    | charIf h => exact ⟨_, .charIf h, .some rfl .nil⟩
    | charIfNot h => exact ⟨_, .charIfNot h, .none⟩
    | charIfEnd => exact ⟨_, .charIfEnd, .none⟩
    | atEnd => exact ⟨_, .atEnd, .some rfl .nil⟩
    | atEndNot => exact ⟨_, .atEndNot, .none⟩
    | _ => cases hleaf
  rule {s r} _ := by
    refine .inr ⟨trivial, fun _ _ h => h, fun _ c c' d d' hc hd hbefore _ => ?_⟩
    obtain ⟨between, hbetween, -⟩ := hbefore
    have hc : c.rest = c'.rest := hc
    have hd : d.rest = d'.rest := hd
    exact ⟨between, hbetween, by rw [← hc, ← hd, hbetween]⟩

/-- Where an expression begins in the text counts for nothing but offsets. -/
theorem Matches.moved (h : Matches s e c o) (hrest : c.rest = c'.rest) :
    ∃ o', Matches s e c' o' ∧ o.Agree Eq o' :=
  moved_sound.carries h trivial (moved_sound.begins hrest)

end Moved

section Tight

/-- The rules whose bodies read ordinary characters only, without gaps between them. -/
def isPlainRule : Rule → Bool
  | .word w => w.toList.all isOrdinary
  | .keyword | .identifier | .propertyName | .exportNamed | .asyncWord | .varConst | .varLet
  | .macroTemplate | .macroDerive | .prefixOp | .awaitWord | .voidWord | .typeofWord | .number
  | .boolean | .nullLit | .thisLit => true
  | _ => false

def Plain : Peg → Prop
  | .rule r => isPlainRule r = true
  | .lit t => ∀ c ∈ t, isOrdinary c = true
  | .charIf accepts => ∀ c, accepts c = true → isOrdinary c = true
  | .atEnd => False
  | .seq a b | .alt a b => Plain a ∧ Plain b
  | .opt e | .star e | .again e | .not e => Plain e

/-- The expression is one of several tokens, so that no gap is skipped in it in any style. -/
def isCompact : Peg → Bool
  | .alt a b => isCompact a && isCompact b
  | .rule _ | .lit _ | .charIf _ => true
  | _ => false

theorem atomic_of_isPlainRule {r : Rule} (h : isPlainRule r = true) :
    (host r).1 = .atomic ∨ r = .prefixOp := by
  cases r with
  | prefixOp => exact .inr rfl
  | _ => first | exact .inl rfl | cases h

theorem plain_choice {es : List Peg} (h : ∀ e ∈ es, Plain e) : Plain (Host.choice es) := by
  induction es with
  | nil => exact fun _ hc => by cases hc
  | cons e es ih =>
    obtain ⟨he, hes⟩ := List.forall_mem_cons.mp h
    cases es with
    | nil => exact he
    | cons => exact ⟨he, ih hes⟩

theorem plain_text {w : String} (h : isPlainKey w = true) : Plain (text w) :=
  fun c hc => isOrdinary_of_isNameChar (isRun_of_isPlainKey h c hc)

theorem plain_nameChar : Plain Host.nameChar := fun _ hc => isOrdinary_of_isNameChar hc

theorem plain_nameStart : Plain Host.nameStart :=
  fun _ hc => isOrdinary_of_isNameChar (isNameChar_of_isNameStart hc)

theorem plain_digit : Plain Host.digit := fun _ hc => isOrdinary_of_isDigit hc

theorem plain_body {r : Rule} (h : isPlainRule r = true) : Plain (host r).2 := by
  have hword {w : String} (hw : w.toList.all isOrdinary = true) : Plain (Host.wholeWord w) :=
    ⟨List.all_eq_true.mp hw, plain_nameChar⟩
  cases r with
  | word w => exact hword h
  | keyword =>
    refine ⟨plain_choice fun e he => ?_, plain_nameChar⟩
    obtain ⟨w, hw, rfl⟩ := List.mem_map.mp he
    exact plain_text (isPlainKey_of_mem_reserved w hw)
  | identifier => exact ⟨⟨rfl, plain_nameStart⟩, plain_nameChar⟩
  | propertyName => exact ⟨plain_nameStart, plain_nameChar⟩
  | number =>
    exact ⟨⟨plain_digit, plain_digit⟩, List.all_eq_true.mp (by decide), plain_digit,
      plain_digit⟩
  | boolean => exact ⟨⟨plain_text (by decide), plain_text (by decide)⟩, plain_nameChar⟩
  | prefixOp =>
    exact ⟨List.all_eq_true.mp (by decide), List.all_eq_true.mp (by decide), rfl, rfl, rfl⟩
  | exportNamed | asyncWord | varConst | varLet | macroTemplate | macroDerive | awaitWord | voidWord
  | typeofWord | nullLit | thisLit => exact hword rfl
  | _ => cases h

variable {u x x' : List Char}

/-- Two texts that have the same end of `u` in front of this text and that one. -/
def SameFront (u x x' cs cs' : List Char) : Prop :=
  ∃ w, w <:+ u ∧ Scanned x w ∧ cs = w ++ x ∧ cs' = w ++ x'

def tight (u x x' : List Char) : Crossing where
  ready _ := SameFront u x x'
  behind := SameFront u x x'
  covers s e := Plain e ∧ (s = .loose → isCompact e = true)

/-- Ordinary characters in front of others are all in what comes before these. -/
theorem exists_front_of_append_eq {t w rest : List Char} (ht : ∀ c ∈ t, isOrdinary c = true)
    (hx : ∀ c ∈ x.head?, isOrdinary c = false) (h : w ++ x = t ++ rest) :
    ∃ w', w = t ++ w' ∧ rest = w' ++ x := by
  rcases List.append_eq_append_iff.mp h with ⟨u, rfl, rfl⟩ | ⟨w', rfl, rfl⟩
  · cases u with
    | nil => exact ⟨[], by simp⟩
    | cons c u =>
      have hordinary := ht c (by simp)
      rw [hx c rfl] at hordinary
      cases hordinary
  · exact ⟨w', rfl, rfl⟩

theorem Matches.charIf_none_iff {s : Style} {accepts : Char → Bool} {c : Cursor} :
    Matches s (.charIf accepts) c none ↔ ∀ a ∈ c.rest.head?, accepts a = false := by
  obtain ⟨i, cs⟩ := c
  constructor
  · intro h
    cases h with
    | charIfNot ha =>
      intro a hmem
      obtain rfl := Option.some.inj hmem
      exact ha
    | charIfEnd => exact fun _ hmem => by cases hmem
  · intro h
    cases cs with
    | nil => exact .charIfEnd
    | cons a cs => exact .charIfNot (h a rfl)

section Leaves

variable {s : Style} (hx : ∀ c ∈ x.head?, isOrdinary c = false)
  (hx' : ∀ c ∈ x'.head?, isOrdinary c = false)

include hx hx'

theorem tight_lit {t : List Char} (ht : ∀ c ∈ t, isOrdinary c = true) :
    (tight u x x').Carries s (.lit t) := by
  rintro ⟨i, _⟩ ⟨i', _⟩ o ⟨w, hu, hw, rfl, rfl⟩ hmatch
  cases hmatch
  refine ⟨_, .lit, agree_lit (fun rest hrest => ?_) (fun hnot => ?_)⟩
  · obtain ⟨w', rfl, rfl⟩ := exists_front_of_append_eq ht hx hrest
    exact ⟨w' ++ x', by simp, w', (List.suffix_append t w').trans hu,
      hw.drop fun c hc => .inl (ht c hc), rfl, rfl⟩
  · rintro ⟨rest, hrest⟩
    obtain ⟨w', rfl, -⟩ := exists_front_of_append_eq ht hx' hrest.symm
    exact hnot ⟨w' ++ x, by simp⟩

theorem tight_charIf {accepts : Char → Bool} (haccepts : ∀ c, accepts c = true → isOrdinary c = true) :
    (tight u x x').Carries s (.charIf accepts) := by
  rintro ⟨i, _⟩ ⟨i', _⟩ o ⟨w, hu, hw, rfl, rfl⟩ hmatch
  have hstops {y : List Char} (hy : ∀ c ∈ y.head?, isOrdinary c = false) :
      ∀ c ∈ y.head?, accepts c = false := fun c hc => by
    cases hc' : accepts c with
    | false => rfl
    | true => rw [← hy c hc, haccepts c hc']
  cases w with
  | nil =>
    obtain rfl := hmatch.unique (Matches.charIf_none_iff.mpr (hstops hx))
    exact ⟨_, Matches.charIf_none_iff.mpr (hstops hx'), .none⟩
  | cons c w =>
    cases hc : accepts c with
    | true =>
      obtain rfl := hmatch.unique (.charIf hc)
      exact ⟨_, .charIf hc, .some ⟨w, (List.suffix_cons c w).trans hu,
        hw.tail (.inl (haccepts c hc)), rfl, rfl⟩ .nil⟩
    | false =>
      obtain rfl := hmatch.unique (.charIfNot hc)
      exact ⟨_, .charIfNot hc, .none⟩

end Leaves

theorem tight_sound (hx : ∀ c ∈ x.head?, isOrdinary c = false)
    (hx' : ∀ c ∈ x'.head?, isOrdinary c = false) : (tight u x x').Sound where
  behind h := h
  parts {s e} h a ha := by
    obtain ⟨hplain, hcompact⟩ := h
    cases e with
    | seq a b =>
      rcases List.mem_pair.mp ha with rfl | rfl
      · exact ⟨hplain.1, fun hs => by cases hcompact hs⟩
      · exact ⟨hplain.2, fun hs => by cases hcompact hs⟩
    | alt a b =>
      rcases List.mem_pair.mp ha with rfl | rfl
      · exact ⟨hplain.1, fun hs => (Bool.and_eq_true_iff.mp (hcompact hs)).1⟩
      · exact ⟨hplain.2, fun hs => (Bool.and_eq_true_iff.mp (hcompact hs)).2⟩
    | opt e | again e | not e =>
      obtain rfl := List.mem_singleton.mp ha
      exact ⟨hplain, fun hs => by cases hcompact hs⟩
    | star e =>
      rcases List.mem_pair.mp ha with rfl | rfl
      · exact ⟨hplain, fun hs => by cases hcompact hs⟩
      · exact ⟨hplain, fun hs => by cases hcompact hs⟩
    | _ => cases ha
  gap {s e c c'} h hspaced hrest := by
    have hs : s ≠ .loose := by
      rintro rfl
      have hcompact := h.2 rfl
      cases e with
      | seq | again => cases hcompact
      | _ => cases hspaced
    change SameFront u x x' (s.gap c).rest (s.gap c').rest
    rwa [Style.gap, Style.gap, if_neg hs, if_neg hs]
  leaf {s e} h hleaf := by
    cases e with
    | lit t => exact tight_lit hx hx' h.1
    | charIf accepts => exact tight_charIf hx hx' h.1
    | atEnd => exact h.1.elim
    | _ => cases hleaf
  rule {s r} h := by
    refine .inr ⟨⟨plain_body h.1, fun hs => ?_⟩, fun _ _ hready => hready, fun _ => ?_⟩
    · rcases atomic_of_isPlainRule h.1 with hatomic | rfl
      · rw [hatomic] at hs
        have hstyle : Style.atomic = Style.loose := hs
        cases hstyle
      · rfl
    · rintro c c' d d' ⟨w, -, -, hc, hc'⟩ ⟨w', -, -, hd, hd'⟩ ⟨between, hbetween, -⟩ -
      have hw : w = between ++ w' := by
        rw [hc, hd, ← List.append_assoc] at hbetween
        exact List.append_cancel_right hbetween
      exact ⟨between, hbetween, by rw [hc', hd', hw, List.append_assoc]⟩

/-- Up to where they differ, a token of ordinary characters is read in the same way from two texts. -/
theorem Matches.tight {r : Rule} {w : List Char} (hr : isPlainRule r = true) (hu : w <:+ u)
    (hw : Scanned x w) (hx : ∀ c ∈ x.head?, isOrdinary c = false)
    (hx' : ∀ c ∈ x'.head?, isOrdinary c = false) {i j : Nat} {o : Match}
    (h : Matches .loose (.rule r) ⟨i, w ++ x⟩ o) :
    ∃ o', Matches .loose (.rule r) ⟨j, w ++ x'⟩ o' ∧ o.Agree (SameFront u x x') o' :=
  (tight_sound hx hx').carries h ⟨hr, fun _ => rfl⟩ ⟨w, hu, hw, rfl, rfl⟩

end Tight

end MacroEngine.Grammar
