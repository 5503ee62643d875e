import MacroEngine.Proofs.Parsed.Grown
import MacroEngine.Proofs.Trivia.Literals

/-!
# One gap in place of another

A text matches the grammar in the same way when blanks and comments between two of its tokens give
way to others that begin with a blank. There is one place where the two are not as good as each other:
between `export` and `default` the grammar takes blanks, and no comments.
-/

namespace MacroEngine.Grammar

open Text (byteLength)
open Printer (isNameChar)

/-- A text that ends in the word `export`, in front of the word `default`. -/
structure Junction (u v : List Char) : Prop where
  left : "export".toList <:+ u
  right : ∃ rest, v = "default".toList ++ rest ∧ ∀ c ∈ rest.head?, isNameChar c = false

/-- Blanks and comments, at least one of them, that reach up to `v`. -/
structure IsGap (g v : List Char) : Prop where
  trivia : Trivia g
  ne_nil : g ≠ []
  trim_behind : trim v = v

/-- The gap `g` stands between `u` and `v`, outside literals, and no blank comes before it. Another one
takes its place that begins with a blank. -/
structure Exchange (u g g' v : List Char) : Prop where
  scanned : Scanned (g ++ v) u
  no_space : ∀ c ∈ u.getLast?, isSpace c = false
  gap : IsGap g v
  trivia : Trivia g'
  space : ∃ c ∈ g'.head?, isSpace c = true

section Gaps

variable {g v : List Char}

theorem IsGap.trim_eq (h : IsGap g v) : trim (g ++ v) = v := by
  rw [h.trivia.trim_append, h.trim_behind]

theorem IsGap.head (h : IsGap g v) : ∀ c ∈ (g ++ v).head?, isOrdinary c = false :=
  h.trivia.not_isOrdinary_head h.ne_nil v

theorem IsGap.ne_trim (h : IsGap g v) : trim (g ++ v) ≠ g ++ v := by
  rw [h.trim_eq]
  exact fun heq => h.ne_nil (List.append_left_eq_self.mp heq.symm)

end Gaps

namespace Exchange

variable {u g g' v : List Char}

theorem gap' (h : Exchange u g g' v) : IsGap g' v where
  trivia := h.trivia
  ne_nil := by
    obtain ⟨c, hc, -⟩ := h.space
    rintro rfl
    cases hc
  trim_behind := h.gap.trim_behind

/-- The other gap makes no comment of a slash before it. -/
theorem head' (h : Exchange u g g' v) : ∀ c ∈ (g' ++ v).head?, c ≠ '/' ∧ c ≠ '*' := by
  obtain ⟨c, hc, hspace⟩ := h.space
  intro d hd
  cases g' with
  | nil => cases hc
  | cons x g' =>
    obtain rfl := Option.some.inj hc
    obtain rfl := Option.some.inj hd
    constructor <;> rintro rfl <;> cases hspace

end Exchange

section ExportDefault

variable {g g' v w x rest : List Char} {c d : Cursor} {ps : List Pair}

/-- The text begins with the words `export` and `default`, with blanks between them. -/
def ExportsDefault (cs rest : List Char) : Prop :=
  ∃ spaces, spaces ≠ [] ∧ (∀ c ∈ spaces, isSpace c = true) ∧
    cs = "export".toList ++ (spaces ++ ("default".toList ++ rest)) ∧
    ∀ c ∈ rest.head?, isNameChar c = false

theorem Matches.blanks {spaces : List Char} (hspaces : ∀ c ∈ spaces, isSpace c = true)
    (hne : spaces ≠ []) (hrest : ∀ c ∈ rest.head?, isSpace c = false) (i : Nat) :
    Matches .atomic Host.blank.plus ⟨i, spaces ++ rest⟩
      (some (⟨i + byteLength spaces, rest⟩, [])) := by
  cases spaces with
  | nil => exact absurd rfl hne
  | cons c spaces =>
    obtain ⟨hc, hspaces⟩ := List.forall_mem_cons.mp hspaces
    have hfirst : Matches .atomic Host.blank ⟨i, c :: (spaces ++ rest)⟩ _ := .charIf hc
    have hmore := (Matches.chars hspaces hrest (i + c.utf8Size)).star_of_again
    have h := Matches.seq hfirst hmore
    rw [Nat.add_assoc] at h
    exact h

theorem ExportsDefault.matches {cs : List Char} (h : ExportsDefault cs rest) (i : Nat) :
    ∃ j, Matches .loose (.rule .exportDefault) ⟨i, cs⟩
      (some (⟨j, rest⟩, [.mk .exportDefault i j cs []])) := by
  obtain ⟨spaces, hne, hspaces, rfl, hrest⟩ := h
  have hexport := Matches.lit_append (s := .atomic) "export" i (spaces ++ ("default".toList ++ rest))
  have hdefault : ∀ c ∈ ("default".toList ++ rest).head?, isSpace c = false := by
    intro c hc
    obtain rfl := Option.some.inj hc
    rfl
  have hblanks := Matches.blanks hspaces hne hdefault (i + byteLength "export".toList)
  have hword := Matches.wholeWord (w := "default")
    (i := i + byteLength "export".toList + byteLength spaces) hrest
  exact ⟨_, .rule_some host_exportDefault (.seq (.seq hexport hblanks) hword)⟩

theorem Matches.exportDefault_inv (h : Matches .loose (.rule .exportDefault) c (some (d, ps))) :
    ExportsDefault c.rest d.rest := by
  obtain ⟨_, -, body⟩ := h.rule_inv
  have body : Matches .atomic (text "export" ++ Host.blank.plus ++ Host.wholeWord "default") c
    (some (d, _)) := body
  obtain ⟨b, _, _, -, first, word⟩ := body.seq_inv
  obtain ⟨a, _, _, -, word', blanks⟩ := first.seq_inv
  obtain ⟨d', _, _, -, default, last⟩ := word.seq_inv
  obtain ⟨-, hexport⟩ := word'.lit_inv
  obtain ⟨-, hdefault⟩ := default.lit_inv
  obtain ⟨spaces, rest, hrest, hspaces, hend⟩ := exists_run_rest isSpace a.rest
  have blanks : Matches .atomic Host.blank.plus ⟨a.offset, a.rest⟩ (some (b, _)) := blanks
  rw [hrest] at blanks hexport
  have hne : spaces ≠ [] := by
    rintro rfl
    exact absurd (blanks.unique (.seqFirst (Matches.charIf_none_iff.mpr hend))) (by simp)
  obtain ⟨rfl, -⟩ := Prod.mk.inj (Option.some.inj (blanks.unique (.blanks hspaces hne hend _)))
  have hdefault : rest = "default".toList ++ d'.rest := hdefault
  cases last with
  | not hname =>
    refine ⟨spaces, hne, hspaces, ?_, Matches.charIf_none_iff.mp hname⟩
    rw [hexport, hdefault]
    rfl

theorem ExportsDefault.append (h : ExportsDefault w rest)
    (hx : ∀ c ∈ x.head?, isOrdinary c = false) : ExportsDefault (w ++ x) (rest ++ x) := by
  obtain ⟨spaces, hne, hspaces, rfl, hrest⟩ := h
  refine ⟨spaces, hne, hspaces, by simp, ?_⟩
  cases rest with
  | nil =>
    intro c hc
    cases hname : isNameChar c with
    | false => rfl
    | true => rw [← hx c hc, isOrdinary_of_isNameChar hname]
  | cons => exact hrest

theorem ExportsDefault.suffix (h : ExportsDefault w rest) : rest <:+ w := by
  obtain ⟨spaces, -, -, rfl, -⟩ := h
  exact ⟨"export".toList ++ (spaces ++ "default".toList), by simp⟩

theorem ExportsDefault.scanned (h : ExportsDefault w rest) (hw : Scanned x w) : Scanned x rest := by
  obtain ⟨spaces, -, hspaces, rfl, -⟩ := h
  have hwords (w : String) (hw : w.toList.all isOrdinary = true) :
      ∀ c ∈ w.toList, isOrdinary c = true ∨ isSpace c = true :=
    fun c hc => .inl (List.all_eq_true.mp hw c hc)
  have hdefault := (hw.drop (hwords "export" (by decide))).drop fun c hc => .inr (hspaces c hc)
  exact hdefault.drop (hwords "default" (by decide))

/-- The words stand in front of the gap, or the gap stands between them. -/
theorem ExportsDefault.cases (h : ExportsDefault (w ++ (g ++ v)) rest) (hg : IsGap g v) :
    (∃ w', ExportsDefault w w' ∧ rest = w' ++ (g ++ v)) ∨
      ∃ front, w = "export".toList ++ front ∧ (∀ c ∈ front ++ g, isSpace c = true) ∧
        v = "default".toList ++ rest ∧ ∀ c ∈ rest.head?, isNameChar c = false := by
  obtain ⟨spaces, hne, hspaces, htext, hrest⟩ := h
  obtain ⟨w₁, rfl, hfront⟩ := exists_front_of_append_eq (List.all_eq_true.mp (by decide)) hg.head htext
  rcases List.append_eq_append_iff.mp hfront with ⟨w₂, rfl, hback⟩ | ⟨g', rfl, hback⟩
  · have hdefault : ∀ c ∈ "default".toList, isOrdinary c = true := List.all_eq_true.mp (by decide)
    obtain ⟨w', rfl, rfl⟩ := exists_front_of_append_eq hdefault hg.head hback.symm
    refine .inl ⟨w', ⟨spaces, hne, hspaces, rfl, fun c hc => hrest c ?_⟩, rfl⟩
    cases w' with
    | nil => cases hc
    | cons => exact hc
  · obtain ⟨-, hg'⟩ := List.forall_mem_append.mp hspaces
    have hv : v = "default".toList ++ rest := by
      rw [← hg.trim_eq, hback, (Trivia.spaces hg').trim_append]
      exact trim_of_isOrdinary (by decide) _
    obtain rfl : g = g' := by
      rw [← hv] at hback
      exact List.append_cancel_right hback
    exact .inr ⟨w₁, rfl, hspaces, hv, hrest⟩

end ExportDefault

/-- Texts that differ in the gap, with the same end of `u` before it, or not at all. -/
inductive Exchanged (u g g' v : List Char) : List Char → List Char → Prop where
  | before {w : List Char} (hu : w <:+ u) (scanned : Scanned (g ++ v) w) :
    Exchanged u g g' v (w ++ (g ++ v)) (w ++ (g' ++ v))
  | same (cs : List Char) : Exchanged u g g' v cs cs

def isToken (r : Rule) : Bool :=
  isPlainRule r || r = .exportDefault || r = .string || r = .template

def isLoose : Peg → Bool
  | .rule r => isToken r || (host r).1 = .loose
  | .lit t => t = ['/'] || t.all isOrdinary
  | .charIf _ => false
  | .atEnd => true
  | .seq a b | .alt a b => isLoose a && isLoose b
  | .opt e | .star e | .again e | .not e => isLoose e

theorem isLoose_body {r : Rule} (h : (host r).1 = .loose) : isLoose (host r).2 = true := by
  cases r with
  | op o => cases o <;> decide
  | _ => first | decide | cases h

def exchange (u g g' v : List Char) : Crossing where
  ready _ cs cs' := Exchanged u g g' v cs cs' ∧ trim cs = cs ∧ trim cs' = cs'
  behind := Exchanged u g g' v
  covers s e := s = .loose ∧ isLoose e = true

namespace Exchange

variable {u g g' v : List Char} {cs cs' : List Char}

theorem trim (h : Exchange u g g' v) (hcs : Exchanged u g g' v cs cs') :
    Exchanged u g g' v (Grammar.trim cs) (Grammar.trim cs') := by
  cases hcs with
  | before hu scanned =>
    rcases scanned.trim_append h.head' with ⟨heq, heq'⟩ | ⟨w', hw', scanned', heq, heq'⟩
    · rw [heq, heq', h.gap.trim_eq, h.gap'.trim_eq]
      exact .same v
    · rw [heq, heq']
      exact .before (hw'.trans hu) scanned'
  | same cs => exact .same _

end Exchange

section Tokens

variable {u g g' v w rest : List Char} {r : Rule}

/-- Where the two words are read on one text, they are read on the other one. -/
theorem ExportsDefault.exchange (h : ExportsDefault (w ++ (g ++ v)) rest) (hu : w <:+ u)
    (hlast : ∀ c ∈ u.getLast?, isSpace c = false) (hg : IsGap g v) (hg' : IsGap g' v)
    (hjoin : Junction u v → (∀ c ∈ g, isSpace c = true) → ∀ c ∈ g', isSpace c = true) :
    ∃ rest', ExportsDefault (w ++ (g' ++ v)) rest' ∧
      (Scanned (g ++ v) w → Exchanged u g g' v rest rest') := by
  rcases h.cases hg with ⟨w', hw', rfl⟩ | ⟨front, rfl, hspaces, rfl, hrest⟩
  · exact ⟨_, hw'.append hg'.head, fun hw => .before (hw'.suffix.trans hu) (hw'.scanned hw)⟩
  · obtain ⟨hfront, hspaces⟩ := List.forall_mem_append.mp hspaces
    -- A blank behind `export` would be the last character in front of the gap.
    obtain rfl : front = [] := by
      rcases List.eq_nil_or_concat front with hnil | ⟨blanks, c, rfl⟩
      · exact hnil
      · obtain ⟨before, rfl⟩ := hu
        rw [List.concat_eq_append, ← List.append_assoc, ← List.append_assoc,
          List.getLast?_concat] at hlast
        have hblank := hlast c rfl
        rw [hfront c (by simp)] at hblank
        cases hblank
    have hexports := hjoin ⟨by simpa using hu, rest, rfl, hrest⟩ hspaces
    exact ⟨rest, ⟨g', hg'.ne_nil, hexports, by simp, hrest⟩, fun _ => .same rest⟩

/-- Every rule matches something, or fails. -/
theorem exists_matches (s : Style) (r : Rule) (c : Cursor) : ∃ o, Matches s (.rule r) c o :=
  ⟨_, run_matches _ ⟨s, false⟩ (.rule r) c .none rfl (Nat.le_refl _)⟩

/-- No literal begins with another character than a quote. -/
theorem Matches.literal_none {c : Char} (hr : r = .string ∨ r = .template)
    (hc : c ≠ '"' ∧ c ≠ '\'' ∧ c ≠ '`') (i : Nat) (cs : List Char) :
    Matches .loose (.rule r) ⟨i, c :: cs⟩ none := by
  rcases hr with rfl | rfl
  · refine .initial_none rfl fun d hd => ?_
    obtain rfl := Option.some.inj hd
    simp [hc]
  · refine .initial_none rfl fun d hd => ?_
    obtain rfl := Option.some.inj hd
    simp [hc]

end Tokens

namespace Exchange

variable {u g g' v w : List Char} {r : Rule} {i i' : Nat} {o : Match}

theorem plain (h : Exchange u g g' v) (hr : isPlainRule r = true) (hu : w <:+ u)
    (hw : Scanned (g ++ v) w) (hmatch : Matches .loose (.rule r) ⟨i, w ++ (g ++ v)⟩ o) :
    ∃ o', Matches .loose (.rule r) ⟨i', w ++ (g' ++ v)⟩ o' ∧ o.Agree (Exchanged u g g' v) o' := by
  obtain ⟨o', hmatch', hagree⟩ := Matches.tight hr hu hw h.gap.head h.gap'.head hmatch
  refine ⟨o', hmatch', hagree.mono ?_⟩
  rintro _ _ ⟨w', hu', hw', rfl, rfl⟩
  exact .before hu' hw'

theorem exportDefault (h : Exchange u g g' v)
    (hjoin : Junction u v → ((∀ c ∈ g, isSpace c = true) ↔ ∀ c ∈ g', isSpace c = true))
    (hu : w <:+ u) (hw : Scanned (g ++ v) w)
    (hmatch : Matches .loose (.rule .exportDefault) ⟨i, w ++ (g ++ v)⟩ o) :
    ∃ o', Matches .loose (.rule .exportDefault) ⟨i', w ++ (g' ++ v)⟩ o' ∧
      o.Agree (Exchanged u g g' v) o' := by
  cases o with
  | some found =>
    obtain ⟨d, ps⟩ := found
    have hexports := hmatch.exportDefault_inv
    obtain ⟨rest', hexports', hrest⟩ :=
      hexports.exchange hu h.no_space h.gap h.gap' fun hj => (hjoin hj).mp
    obtain ⟨j, hj⟩ := hexports.matches i
    obtain ⟨j', hj'⟩ := hexports'.matches i'
    rw [hmatch.unique hj]
    exact ⟨_, hj', .some (hrest hw) (.cons (.mk (fun hspelled => by cases hspelled) .nil) .nil)⟩
  | none =>
    obtain ⟨o', hmatch'⟩ := exists_matches .loose .exportDefault ⟨i', w ++ (g' ++ v)⟩
    cases o' with
    | none => exact ⟨none, hmatch', .none⟩
    | some found =>
      have hexports := hmatch'.exportDefault_inv
      obtain ⟨rest, hexports', -⟩ :=
        hexports.exchange hu h.no_space h.gap' h.gap fun hj => (hjoin hj).mpr
      obtain ⟨j, hj⟩ := hexports'.matches i
      exact absurd (hmatch.unique hj) (by simp)

theorem literal (h : Exchange u g g' v) (hr : r = .string ∨ r = .template) (hu : w <:+ u)
    (hw : Scanned (g ++ v) w) (hready : Grammar.trim (w ++ (g ++ v)) = w ++ (g ++ v))
    (hmatch : Matches .loose (.rule r) ⟨i, w ++ (g ++ v)⟩ o) :
    ∃ o', Matches .loose (.rule r) ⟨i', w ++ (g' ++ v)⟩ o' ∧ o.Agree (Exchanged u g g' v) o' := by
  rcases hw.literal_cases hready h.gap.ne_trim with ⟨l, w, hl, more, rfl⟩ | ⟨c, w, rfl, hc⟩
  · obtain ⟨o₁, o₂, hleft, hright, hagree⟩ := hl.agree hr i i' (w ++ (g ++ v)) (w ++ (g' ++ v))
    rw [← List.append_assoc] at hleft hright
    obtain rfl := hmatch.unique hleft
    refine ⟨o₂, hright, hagree.mono ?_⟩
    rintro _ _ ⟨rfl, rfl⟩
    exact .before ((List.suffix_append l w).trans hu) more
  · obtain rfl := hmatch.unique (.literal_none hr hc i _)
    exact ⟨none, .literal_none hr hc i' _, .none⟩

theorem token (h : Exchange u g g' v)
    (hjoin : Junction u v → ((∀ c ∈ g, isSpace c = true) ↔ ∀ c ∈ g', isSpace c = true))
    (hr : isToken r = true) : (exchange u g g' v).Carries .loose (.rule r) := by
  rintro ⟨i, cs⟩ ⟨i', cs'⟩ o ⟨hcs, hready, -⟩ hmatch
  have hcs : Exchanged u g g' v cs cs' := hcs
  cases hcs with
  | same =>
    have hrest : (⟨i, cs⟩ : Cursor).rest = (⟨i', cs⟩ : Cursor).rest := rfl
    obtain ⟨o', hmatch', hagree⟩ := hmatch.moved hrest
    refine ⟨o', hmatch', hagree.mono ?_⟩
    rintro cs _ rfl
    exact .same cs
  | before hu hw =>
    simp only [isToken, Bool.or_eq_true, decide_eq_true_eq] at hr
    rcases hr with ((hr | rfl) | hr) | hr
    · exact h.plain hr hu hw hmatch
    · exact h.exportDefault hjoin hu hw hmatch
    · exact h.literal (.inl hr) hu hw hready hmatch
    · exact h.literal (.inr hr) hu hw hready hmatch

/-- A slash and what is made of ordinary characters. -/
theorem lit (h : Exchange u g g' v) {t : List Char}
    (ht : t = ['/'] ∨ ∀ c ∈ t, isOrdinary c = true) :
    (exchange u g g' v).Carries .loose (.lit t) := by
  rintro ⟨i, cs⟩ ⟨i', cs'⟩ o ⟨hcs, hready, -⟩ hmatch
  have hcs : Exchanged u g g' v cs cs' := hcs
  have hready : Grammar.trim cs = cs := hready
  cases hmatch
  cases hcs with
  | same cs => exact ⟨_, .lit, agree_lit (fun rest hrest => ⟨rest, hrest, .same rest⟩) id⟩
  | @before w hu hw =>
    rcases ht with rfl | ht
    · cases w with
      | nil => exact absurd hready h.gap.ne_trim
      | cons c w =>
        refine ⟨_, .lit, agree_lit (fun rest hrest => ?_) fun hnot => ?_⟩
        · obtain ⟨rfl, rfl⟩ := List.cons.inj hrest
          exact ⟨w ++ (g' ++ v), rfl, .before ((List.suffix_cons _ w).trans hu)
            (hw.behind_slash hready)⟩
        · rintro ⟨rest, hrest⟩
          obtain ⟨rfl, rfl⟩ := List.cons.inj hrest
          exact hnot ⟨w ++ (g ++ v), rfl⟩
    · refine ⟨_, .lit, agree_lit (fun rest hrest => ?_) fun hnot => ?_⟩
      · obtain ⟨w', rfl, rfl⟩ := exists_front_of_append_eq ht h.gap.head hrest
        exact ⟨w' ++ (g' ++ v), by simp, .before ((List.suffix_append t w').trans hu)
          (hw.drop fun c hc => .inl (ht c hc))⟩
      · rintro ⟨rest, hrest⟩
        obtain ⟨w', rfl, -⟩ := exists_front_of_append_eq ht h.gap'.head hrest.symm
        exact hnot ⟨w' ++ (g ++ v), by simp⟩

theorem atEnd (h : Exchange u g g' v) : (exchange u g g' v).Carries .loose .atEnd := by
  have hfails {g w : List Char} (hg : IsGap g v) (i : Nat) :
      Matches .loose .atEnd ⟨i, w ++ (g ++ v)⟩ none := by
    cases hcs : w ++ (g ++ v) with
    | nil => exact absurd (List.append_eq_nil_iff.mp (List.append_eq_nil_iff.mp hcs).2).1 hg.ne_nil
    | cons => exact .atEndNot
  rintro ⟨i, cs⟩ ⟨i', cs'⟩ o ⟨hcs, -, -⟩ hmatch
  have hcs : Exchanged u g g' v cs cs' := hcs
  cases hcs with
  | before =>
    obtain rfl := hmatch.unique (hfails h.gap i)
    exact ⟨none, hfails h.gap' i', .none⟩
  | same =>
    cases hmatch with
    | atEnd => exact ⟨_, .atEnd, .some (.same []) .nil⟩
    | atEndNot => exact ⟨_, .atEndNot, .none⟩

theorem sound (h : Exchange u g g' v)
    (hjoin : Junction u v → ((∀ c ∈ g, isSpace c = true) ↔ ∀ c ∈ g', isSpace c = true)) :
    (exchange u g g' v).Sound where
  behind hready := hready.1
  parts {s e} hcovers a ha := by
    obtain ⟨rfl, hloose⟩ := hcovers
    refine ⟨rfl, ?_⟩
    cases e with
    | seq a b | alt a b =>
      obtain ⟨hleft, hright⟩ := Bool.and_eq_true_iff.mp hloose
      rcases List.mem_pair.mp ha with rfl | rfl
      · exact hleft
      · exact hright
    | opt e | not e | again e =>
      obtain rfl := List.mem_singleton.mp ha
      exact hloose
    | star e => rcases List.mem_pair.mp ha with rfl | rfl <;> exact hloose
    | _ => cases ha
  gap {s e c c'} hcovers _ hrest := by
    obtain ⟨rfl, -⟩ := hcovers
    obtain ⟨j, hj⟩ := gap_loose c
    obtain ⟨j', hj'⟩ := gap_loose c'
    rw [hj, hj']
    exact ⟨h.trim hrest, trim_trim _, trim_trim _⟩
  leaf {s e} hcovers hleaf := by
    obtain ⟨rfl, hloose⟩ := hcovers
    cases e with
    | lit t =>
      refine h.lit ?_
      simpa [isLoose] using hloose
    | atEnd => exact h.atEnd
    | charIf => cases hloose
    | _ => cases hleaf
  rule {s r} hcovers := by
    obtain ⟨rfl, hr⟩ := hcovers
    by_cases htoken : isToken r = true
    · exact .inl (h.token hjoin htoken)
    · have hloose : (host r).1 = .loose := by simpa [isLoose, htoken] using hr
      refine .inr ⟨⟨?_, isLoose_body hloose⟩, fun _ _ hready => hready, fun hspelled => ?_⟩
      · rw [hloose]
        rfl
      · simp only [isSpelled, hloose] at hspelled
        obtain rfl : r = .prefixOp := by simpa using hspelled
        exact absurd rfl htoken

end Exchange

/-- A text with another gap in one place is matched as before, with pairs that are alike. -/
theorem Exchange.recognize {u g g' v : List Char} {p : Pair} (h : Exchange u g g' v)
    (hjoin : Junction u v → ((∀ c ∈ g, isSpace c = true) ↔ ∀ c ∈ g', isSpace c = true))
    (hp : recognize (u ++ (g ++ v)) = .ok p) :
    ∃ p', Grammar.recognize (u ++ (g' ++ v)) = .ok p' ∧ p.Alike p' := by
  have hsound := h.sound hjoin
  obtain ⟨b, d, ps, q, stmts, last, -, rfl⟩ := program_of_recognize hp
  have hcovers : (exchange u g g' v).covers .loose
      (.seq (Peg.star Host.statement) (.rule .endOfInput)) := ⟨rfl, by decide⟩
  have hbegin : (exchange u g g' v).ready .loose (Style.loose.gap ⟨0, u ++ (g ++ v)⟩).rest
      (Style.loose.gap ⟨0, u ++ (g' ++ v)⟩).rest :=
    hsound.gap hcovers rfl (.before List.suffix_rfl h.scanned)
  obtain ⟨_, stmts', hagree⟩ := hsound.carries stmts (hsound.part hcovers) hbegin
  cases hagree with
  | some hrest hqs =>
    obtain ⟨_, last', hagree'⟩ := hsound.carries last (hsound.part hcovers)
      (hsound.gap hcovers rfl hrest)
    cases hagree' with
    | some _ hqs' =>
      have start' : Matches .loose (text "") ⟨0, u ++ (g' ++ v)⟩
        (some (⟨0, u ++ (g' ++ v)⟩, [])) := .lit
      have hmatch' := Matches.rule_some (r := .program) rfl (.seq (.seq start' stmts') last')
      refine ⟨_, (recognize_eq_ok_iff _ _).mpr ⟨_, hmatch'⟩, ?_⟩
      exact .mk (fun hspelled => by cases hspelled) (List.rel_append hqs hqs')

end MacroEngine.Grammar
