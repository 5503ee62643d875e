import MacroEngine.Metaprogram
import MacroEngine.Proofs.Registry.Imports

/-!
# The place of a declaration file

The declaration file of a module stands in the directory of the module. Its name is the name of the
module with a `d` in front of the extension, or behind the name if that has none. So modules that are not
the same file do not share a declaration file, whatever slashes and dots their paths end with.
-/

namespace MacroEngine

namespace SourcePath

section Components

/-- The components that segments spell. Empty segments and `.` do not count. -/
def spelled (segments : List (List Char)) : List PathComponent :=
  ((segments.map String.ofList).filter fun s => s ≠ "" && s ≠ ".").map .ofSegment

theorem spelled_nil : spelled [] = [] := rfl

theorem spelled_append (segments more : List (List Char)) :
    spelled (segments ++ more) = spelled segments ++ spelled more := by
  rw [spelled, List.map_append, List.filter_append, List.map_append]
  rfl

/-- In front, a slash and a dot count. -/
theorem componentsOf_eq {text first : List Char} {rest : List (List Char)}
    (h : Text.splitAt '/' text = first :: rest) : componentsOf text =
      (if text.head? = some '/' then [.root]
        else if String.ofList first = "." then [.current] else spelled [first]) ++ spelled rest := by
  rw [componentsOf, h, List.map_cons]
  dsimp only
  split
  · rfl
  · split
    · rfl
    · exact spelled_append [first] rest

def componentsBefore (text : List Char) : List PathComponent :=
  if text = [] then [.root] else componentsOf text

theorem componentsOf_append_cons (front back : List Char) : componentsOf (front ++ '/' :: back) =
    componentsBefore front ++ spelled (Text.splitAt '/' back) := by
  cases front with
  | nil => rw [componentsBefore, if_pos rfl, componentsOf_eq (Text.splitAt_append_cons '/' [] back)]; rfl
  | cons c front =>
    obtain ⟨first, rest, hsplit⟩ := List.exists_cons_of_ne_nil (Text.splitAt_ne_nil '/' (c :: front))
    have hlonger : Text.splitAt '/' (c :: front ++ '/' :: back) =
        first :: (rest ++ Text.splitAt '/' back) := by
      rw [Text.splitAt_append_cons, hsplit, List.cons_append]
    rw [componentsBefore, if_neg (List.cons_ne_nil _ _), componentsOf_eq hsplit,
      componentsOf_eq hlonger, spelled_append, List.append_assoc, List.cons_append, List.head?_cons,
      List.head?_cons]

variable {s name : String}

theorem spelled_stem (hs : IsStem s) : spelled [s.toList] = [.normal s] := by
  simp [spelled, hs.nonempty, hs.ne_current, ofSegment_stem hs]

theorem componentsOf_stem (hs : IsStem s) : componentsOf s.toList = [.normal s] := by
  have hhead : s.toList.head? ≠ some '/' := fun h => hs.unbroken (List.mem_of_head? h)
  rw [componentsOf_eq (Text.splitAt_of_not_mem hs.unbroken), if_neg hhead, String.ofList_toList,
    if_neg hs.ne_current, spelled_stem hs, spelled_nil, List.append_nil]

theorem spelled_singleton (segment : List Char) : spelled [segment] =
    if segment = [] ∨ segment = ['.'] then [] else [.ofSegment (String.ofList segment)] := by
  have hdot : String.ofList segment = "." ↔ segment = ['.'] := by
    rw [← String.toList_inj, String.toList_ofList]
    rfl
  by_cases hempty : segment = [] <;> by_cases hcurrent : segment = ['.'] <;>
    simp [spelled, hdot, hempty, hcurrent]

/-- A segment that spells a name is that name. -/
theorem isStem_of_spelled {segment : List Char} (hsegment : '/' ∉ segment)
    (h : (spelled [segment]).getLast? = some (.normal name)) :
    segment = name.toList ∧ IsStem name := by
  rw [spelled_singleton] at h
  split at h
  · cases h
  · rename_i hkept
    rw [not_or] at hkept
    rw [List.getLast?_singleton, Option.some.injEq, PathComponent.ofSegment] at h
    split at h
    · cases h
    · rename_i hcurrent
      split at h
      · cases h
      · rename_i hparent
        obtain rfl := PathComponent.normal.inj h
        refine ⟨String.toList_ofList.symm, ?_, ?_, hcurrent, hparent⟩
        · simpa using hkept.1
        · rwa [String.toList_ofList]

/-- Only the root stands in front of a slash without standing there alone. -/
theorem componentsBefore_of_name {text : List Char}
    (h : (componentsBefore text).getLast? = some (.normal name)) :
    componentsBefore text = componentsOf text := by
  rw [componentsBefore] at h ⊢
  split
  · rename_i hnil
    rw [if_pos hnil] at h
    cases h
  · rfl

/-- The components of a text that is given from its end, up to its last slash. -/
theorem componentsOf_reverse {last : List Char} (h : '/' ∉ last) (front : List Char) :
    componentsOf (last ++ '/' :: front).reverse =
      componentsBefore front.reverse ++ spelled [last.reverse] := by
  have hlist : (last ++ '/' :: front).reverse = front.reverse ++ '/' :: last.reverse := by simp
  rw [hlist, componentsOf_append_cons,
    Text.splitAt_of_not_mem fun hmem => h (List.mem_reverse.mp hmem)]

/-- What is dropped from the end of a text does not count. -/
theorem componentsOf_dropTrail (reversed : List Char)
    (h : (componentsOf reversed.reverse).getLast? = some (.normal name)) :
    componentsOf (dropTrail reversed).reverse = componentsOf reversed.reverse := by
  have hdropped : ∀ last rest : List Char, '/' ∉ last → spelled [last.reverse] = [] →
      (componentsOf (last ++ '/' :: rest).reverse).getLast? = some (.normal name) →
        componentsOf (last ++ '/' :: rest).reverse = componentsOf rest.reverse := by
    intro last rest hlast hspelled h
    rw [componentsOf_reverse hlast, hspelled, List.append_nil] at h ⊢
    exact componentsBefore_of_name h
  induction reversed using dropTrail.induct with
  | case1 rest ih =>
    have hsame := hdropped [] rest List.not_mem_nil rfl h
    rw [List.nil_append] at hsame
    rw [hsame] at h ⊢
    exact ih h
  | case2 rest ih =>
    have hsame := hdropped ['.'] rest (by decide) rfl h
    rw [List.singleton_append] at hsame
    rw [hsame] at h ⊢
    exact ih h
  | case3 text hslash hdot =>
    rw [dropTrail]
    · exact hslash
    · exact hdot

/-- What is left ends with a name or is a single segment. -/
theorem dropTrail_ne (reversed rest : List Char) :
    dropTrail reversed ≠ '/' :: rest ∧ dropTrail reversed ≠ '.' :: '/' :: rest := by
  induction reversed using dropTrail.induct with
  | case1 more ih => rwa [dropTrail]
  | case2 more ih => rwa [dropTrail]
  | case3 text hslash hdot =>
    rw [dropTrail]
    · exact ⟨hslash rest, hdot rest⟩
    · exact hslash
    · exact hdot

/-- The name stands at the end of a text once slashes and dots behind it are dropped: alone, or behind
a slash. -/
theorem exists_front (reversed : List Char)
    (h : (componentsOf reversed.reverse).getLast? = some (.normal name)) :
    IsStem name ∧
      ((dropTrail reversed = name.toList.reverse ∧ (componentsOf reversed.reverse).dropLast = []) ∨
        ∃ front : List Char, dropTrail reversed = (front ++ '/' :: name.toList).reverse ∧
          (componentsOf reversed.reverse).dropLast = componentsBefore front) := by
  have hkept := dropTrail_ne reversed
  have hsame := componentsOf_dropTrail reversed h
  rw [← hsame] at h ⊢
  generalize dropTrail reversed = text at h hkept ⊢
  by_cases hmem : '/' ∈ text
  · obtain ⟨last, front, rfl, hlast⟩ := List.eq_append_cons_of_mem hmem
    have hunbroken : '/' ∉ last.reverse := fun h => hlast (List.mem_reverse.mp h)
    have hspelled : (spelled [last.reverse]).getLast? = some (.normal name) := by
      rw [componentsOf_reverse hlast, List.getLast?_append, spelled_singleton] at h
      rw [spelled_singleton]
      split at h
      · rename_i hskipped
        simp only [List.reverse_eq_iff, List.reverse_nil, List.reverse_singleton] at hskipped
        rcases hskipped with rfl | rfl
        · exact absurd rfl (hkept front).1
        · exact absurd rfl (hkept front).2
      · rename_i hnamed
        rw [if_neg hnamed]
        exact h
    obtain ⟨hname, hstem⟩ := isStem_of_spelled hunbroken hspelled
    refine ⟨hstem, .inr ⟨front.reverse, by simp [← hname], ?_⟩⟩
    rw [componentsOf_reverse hlast, hname, spelled_stem hstem, List.dropLast_concat]
  · have hunbroken : '/' ∉ text.reverse := fun h => hmem (List.mem_reverse.mp h)
    have hhead : text.reverse.head? ≠ some '/' := fun h => hunbroken (List.mem_of_head? h)
    have hspelled : (spelled [text.reverse]).getLast? = some (.normal name) := by
      rw [componentsOf_eq (Text.splitAt_of_not_mem hunbroken), if_neg hhead] at h
      split at h
      · cases h
      · rwa [spelled_nil, List.append_nil] at h
    obtain ⟨hname, hstem⟩ := isStem_of_spelled hunbroken hspelled
    refine ⟨hstem, .inl ⟨by rw [← hname, List.reverse_reverse], ?_⟩⟩
    rw [hname, componentsOf_stem hstem]
    rfl

/-- Another name in the place of the last one changes nothing else. -/
theorem exists_base (reversed : List Char)
    (h : (componentsOf reversed.reverse).getLast? = some (.normal name)) :
    ∃ base : List Char, dropTrail reversed = (base ++ name.toList).reverse ∧
      ∀ s, IsStem s → componentsOf (base ++ s.toList) =
        (componentsOf reversed.reverse).dropLast ++ [.normal s] := by
  obtain ⟨-, ⟨hdrop, hfront⟩ | ⟨front, hdrop, hfront⟩⟩ := exists_front reversed h
  · refine ⟨[], hdrop, fun s hs => ?_⟩
    rw [hfront, List.nil_append, componentsOf_stem hs, List.nil_append]
  · refine ⟨front ++ ['/'], by simp [hdrop], fun s hs => ?_⟩
    rw [hfront, List.append_assoc, List.singleton_append, componentsOf_append_cons,
      Text.splitAt_of_not_mem hs.unbroken, spelled_stem hs]

end Components

section Names

/-- A name is split at its last dot, unless that is its first character. -/
theorem splitName_cases (name : String) :
    (∃ s e, splitName name = (s, some e) ∧ name = s ++ "." ++ e ∧ s ≠ "" ∧ '.' ∉ e.toList) ∨
      splitName name = (name, none) ∧ Undotted name := by
  have hsplit := List.takeWhile_append_dropWhile (p := (· ≠ '.')) (l := name.toList.reverse)
  have hlast : '.' ∉ name.toList.reverse.takeWhile (· ≠ '.') := fun hmem => by
    simpa using List.mem_takeWhile_imp hmem
  unfold splitName
  dsimp only
  generalize name.toList.reverse.takeWhile (· ≠ '.') = last at hsplit hlast ⊢
  generalize hrest : name.toList.reverse.dropWhile (· ≠ '.') = rest at hsplit ⊢
  have hname : name.toList = rest.reverse ++ last.reverse := by
    rw [← List.reverse_append, hsplit, List.reverse_reverse]
  rcases rest with - | ⟨c, - | ⟨c', stem⟩⟩
  · refine .inr ⟨rfl, fun hmem => hlast (List.mem_reverse.mp ?_)⟩
    rw [hname] at hmem
    exact List.mem_of_mem_tail hmem
  · refine .inr ⟨rfl, fun hmem => hlast (List.mem_reverse.mp ?_)⟩
    rwa [hname] at hmem
  · have hc : c = '.' := by
      have hfirst := List.head?_dropWhile_not (· ≠ '.') name.toList.reverse
      rw [hrest] at hfirst
      simpa using hfirst
    refine .inl ⟨_, _, rfl, ?_, ?_, ?_⟩
    · rw [← String.toList_inj, hname, hc]
      simp
    · simp
    · simpa using hlast

def declarationName (name : String) : String :=
  (splitName name).1 ++ "." ++ match (splitName name).2 with
    | some extension => "d." ++ extension
    | none => "d"

variable {name other s e : String}

/-- A text determines its last dot. -/
theorem append_dot_inj {front front' back back' : List Char}
    (h : front ++ '.' :: back = front' ++ '.' :: back') (hback : '.' ∉ back) (hback' : '.' ∉ back') :
    front = front' ∧ back = back' := by
  rcases List.append_eq_append_iff.mp h with ⟨cs, rfl, hrest⟩ | ⟨cs, rfl, hrest⟩ <;>
    rcases cs with - | ⟨c, cs⟩
  · exact ⟨(List.append_nil _).symm, (List.cons.inj hrest).2⟩
  · exact absurd ((List.cons.inj hrest).2 ▸ by simp) hback
  · exact ⟨List.append_nil _, (List.cons.inj hrest).2.symm⟩
  · exact absurd ((List.cons.inj hrest).2 ▸ by simp) hback'

/-- A name with an extension and one without do not share a declaration file. -/
theorem extended_ne_undotted (hs : s ≠ "") (he : '.' ∉ e.toList) (hother : Undotted other) :
    s ++ "." ++ ("d." ++ e) ≠ other ++ "." ++ "d" := by
  intro h
  have hlist : (s.toList ++ ['.', 'd']) ++ '.' :: e.toList = other.toList ++ '.' :: ['d'] := by
    simpa using congrArg String.toList h
  obtain ⟨hfront, -⟩ := append_dot_inj hlist he (by decide)
  obtain ⟨c, rest, hcs⟩ := List.exists_cons_of_ne_nil fun hnil => hs (String.toList_eq_nil_iff.mp hnil)
  rw [Undotted, ← hfront, hcs] at hother
  exact hother (by simp)

theorem declarationName_injective : Function.Injective declarationName := by
  intro name other h
  unfold declarationName at h
  rcases splitName_cases name with ⟨s, e, hsplit, rfl, hs, he⟩ | ⟨hsplit, hname⟩ <;>
    rcases splitName_cases other with ⟨s', e', hsplit', rfl, hs', he'⟩ | ⟨hsplit', hother⟩ <;>
      rw [hsplit, hsplit'] at h <;> dsimp only at h
  · have hlist : (s.toList ++ ['.', 'd']) ++ '.' :: e.toList =
        (s'.toList ++ ['.', 'd']) ++ '.' :: e'.toList := by
      simpa using congrArg String.toList h
    obtain ⟨hfront, hback⟩ := append_dot_inj hlist he he'
    rw [String.toList_inj.mp (List.append_cancel_right hfront), String.toList_inj.mp hback]
  · exact absurd h (extended_ne_undotted hs he hother)
  · exact absurd h.symm (extended_ne_undotted hs' he' hname)
  · have hlist : name.toList ++ ['.', 'd'] = other.toList ++ ['.', 'd'] := by
      simpa using congrArg String.toList h
    exact String.toList_inj.mp (List.append_cancel_right hlist)

theorem isStem_declarationName (hname : IsStem name) : IsStem (declarationName name) := by
  have hd : 'd' ∈ (declarationName name).toList := by
    unfold declarationName
    cases (splitName name).2 <;> simp
  have hne : ∀ s : String, 'd' ∉ s.toList → declarationName name ≠ s := fun s hs heq => hs (heq ▸ hd)
  refine ⟨hne _ (by decide), ?_, hne _ (by decide), hne _ (by decide)⟩
  have hunbroken := hname.unbroken
  unfold declarationName
  rcases splitName_cases name with ⟨s, e, hsplit, rfl, -, -⟩ | ⟨hsplit, -⟩ <;> rw [hsplit] <;>
    simpa using hunbroken

end Names

section Declaration

variable {p q : SourcePath} {name : String}

theorem getLast?_components (h : p.fileName? = some name) :
    p.components.getLast? = some (.normal name) := by
  unfold fileName? at h
  split at h
  · rename_i heq
    rw [heq, Option.some.inj h]
  · cases h

theorem isStem_of_fileName? (h : p.fileName? = some name) : IsStem name := by
  have hlast := getLast?_components h
  rw [components, ← List.reverse_reverse p.text.toList] at hlast
  exact (exists_front _ hlast).1

/-- What stands in front of the name at the end of a reversed text. -/
theorem drop_name {text base : List Char} (h : text = (base ++ name.toList).reverse) :
    (text.drop name.length).reverse = base := by
  have hlength : name.toList.reverse.length = name.length := by
    rw [List.length_reverse, String.length_toList]
  rw [h, List.reverse_append, List.drop_left' hlength, List.reverse_reverse]

/-- With another extension, only the name changes. -/
theorem components_withExtension (h : p.fileName? = some name) {e : String} (he : e ≠ "")
    (hstem : IsStem ((splitName name).1 ++ "." ++ e)) : (p.withExtension e).components =
      p.components.dropLast ++ [.normal ((splitName name).1 ++ "." ++ e)] := by
  have hlast := getLast?_components h
  rw [components, ← List.reverse_reverse p.text.toList] at hlast
  obtain ⟨base, hdrop, hbase⟩ := exists_base _ hlast
  rw [List.reverse_reverse] at hbase
  have hfront := drop_name hdrop
  have hrenamed : p.withExtension e = ⟨String.ofList base ++ (splitName name).1 ++ ("." ++ e)⟩ := by
    unfold withExtension
    rw [h]
    dsimp only
    rw [hfront, if_neg he]
  have hlist : (String.ofList base ++ (splitName name).1 ++ ("." ++ e)).toList =
      base ++ ((splitName name).1 ++ "." ++ e).toList := by
    simp
  rw [hrenamed, components, hlist, hbase _ hstem]
  rfl

/-- The declaration file stands in the directory of the module. -/
theorem components_declarationPath (h : p.fileName? = some name) :
    p.declarationPath.components = p.components.dropLast ++ [.normal (declarationName name)] := by
  have hstem := isStem_declarationName (isStem_of_fileName? h)
  have hextension : p.extension? = (splitName name).2 := by
    rw [extension?, h]
    rfl
  unfold declarationPath
  unfold declarationName at hstem ⊢
  rw [hextension]
  cases hsplit : (splitName name).2 with
  | none =>
    rw [hsplit] at hstem
    exact components_withExtension h (by decide) hstem
  | some e =>
    rw [hsplit] at hstem
    exact components_withExtension h (by simp) hstem

/-- A path that names no file is its own declaration path. -/
theorem declarationPath_of_fileName?_eq_none (h : p.fileName? = none) : p.declarationPath = p := by
  have hextension : p.extension? = none := by
    rw [extension?, h]
    rfl
  rw [declarationPath, hextension, withExtension, h]

/-- Modules that share a declaration file are one file. -/
theorem beq_of_declarationPath (hp : ¬(p == p.declarationPath)) (hq : ¬(q == q.declarationPath))
    (h : p.declarationPath == q.declarationPath) : p == q := by
  have hnamed : ∀ p : SourcePath, ¬(p == p.declarationPath) → ∃ name, p.fileName? = some name := by
    intro p hp
    refine Option.ne_none_iff_exists'.mp fun hnone => hp ?_
    rw [declarationPath_of_fileName?_eq_none hnone]
    exact BEq.rfl
  obtain ⟨name, hname⟩ := hnamed p hp
  obtain ⟨other, hother⟩ := hnamed q hq
  rw [beq_iff, components_declarationPath hname, components_declarationPath hother] at h
  obtain ⟨hfront, hback⟩ := List.append_inj' h rfl
  obtain rfl := declarationName_injective (PathComponent.normal.inj (List.singleton_inj.mp hback))
  rw [beq_iff, ← List.dropLast_append_getLast? _ (getLast?_components hname),
    ← List.dropLast_append_getLast? _ (getLast?_components hother), hfront]

end Declaration

end SourcePath

end MacroEngine
