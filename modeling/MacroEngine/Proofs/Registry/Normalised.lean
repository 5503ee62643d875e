import MacroEngine.Proofs.Announcement.Beside

/-!
# Keys and normal forms of paths

In the normal form of a relative path `..` takes back the name in front of it and stays where no
name is left, so it is some `..` followed by names. The key of a module takes back any component,
a `..` that was kept too. So two `..` in a row cancel each other: of the `..` of the normal form the
key has one if their number is odd and none if it is even.
-/

namespace MacroEngine

namespace SourcePath

/-- One step of lexical normalisation; the components kept so far are in reverse order. `..` takes
back a name and nothing else. -/
def lexicalStep (kept : List PathComponent) : PathComponent → List PathComponent
  | .current => kept
  | .parent =>
    match kept with
    | .normal _ :: rest => rest
    | _ => .parent :: kept
  | c => c :: kept

def lexical (cs : List PathComponent) : List PathComponent := (cs.foldl lexicalStep []).reverse

/-- The number of levels by which a path leaves the directory it starts from. -/
def climb (cs : List PathComponent) : Nat := ((lexical cs).takeWhile (· = .parent)).length

/-- Where a path leads from the directory up to which it climbs. -/
def descent (cs : List PathComponent) : List PathComponent := (lexical cs).dropWhile (· = .parent)

def stripped (path : SourcePath) : List PathComponent := (path.withExtension "").components

def target (path : SourcePath) (specifier : String) : List PathComponent :=
  stripExtension ((path.directory ++ componentsOf specifier.toList).filter (· ≠ .current))

def Rootless (path : SourcePath) : Prop := path.text.toList.head? ≠ some '/'

instance (path : SourcePath) : Decidable path.Rootless := inferInstanceAs (Decidable (¬ _))

/-! ## The two normalisations side by side -/

def up (levels : Nat) : List PathComponent := List.replicate levels .parent

def down (names : List String) : List PathComponent := names.map .normal

/-- What is kept when some `..` and behind them some names were kept, the last name first. -/
def keptAs (parents : Nat) (names : List String) : List PathComponent := down names ++ up parents

/-- While the normal form keeps a number of `..`, the key keeps its remainder by two. -/
theorem step_keptAs {c : PathComponent} (hc : c ≠ .root) (parents : Nat) (names : List String) :
    ∃ parents' names', lexicalStep (keptAs parents names) c = keptAs parents' names' ∧
      keyStep (keptAs (parents % 2) names) c = keptAs (parents' % 2) names' := by
  cases c with
  | root => exact absurd rfl hc
  | current => exact ⟨parents, names, rfl, rfl⟩
  | normal name => exact ⟨parents, name :: names, rfl, rfl⟩
  | parent =>
    cases names with
    | cons name names => exact ⟨parents, names, rfl, rfl⟩
    | nil =>
      refine ⟨parents + 1, [], by cases parents <;> rfl, ?_⟩
      obtain heven | hodd := Nat.mod_two_eq_zero_or_one parents
      · rw [heven, show (parents + 1) % 2 = 1 by omega]
        rfl
      · rw [hodd, show (parents + 1) % 2 = 0 by omega]
        rfl

theorem foldl_keptAs {cs : List PathComponent} (hcs : .root ∉ cs) (parents : Nat)
    (names : List String) :
    ∃ parents' names', cs.foldl lexicalStep (keptAs parents names) = keptAs parents' names' ∧
      cs.foldl keyStep (keptAs (parents % 2) names) = keptAs (parents' % 2) names' := by
  induction cs generalizing parents names with
  | nil => exact ⟨parents, names, rfl, rfl⟩
  | cons c cs ih =>
    rw [List.mem_cons, not_or] at hcs
    obtain ⟨parents', names', hlexical, hkey⟩ := step_keptAs (Ne.symm hcs.1) parents names
    rw [List.foldl_cons, List.foldl_cons, hlexical, hkey]
    exact ih hcs.2 parents' names'

theorem reverse_keptAs (parents : Nat) (names : List String) :
    (keptAs parents names).reverse = up parents ++ down names.reverse := by
  simp [keptAs, up, down]

theorem takeWhile_up_down (parents : Nat) (names : List String) :
    (up parents ++ down names).takeWhile (· = .parent) = up parents ∧
      (up parents ++ down names).dropWhile (· = .parent) = down names := by
  have hparents : ∀ c ∈ up parents, decide (c = .parent) = true := fun c hc =>
    decide_eq_true (List.eq_of_mem_replicate hc)
  rw [List.takeWhile_append_of_pos hparents, List.dropWhile_append_of_pos hparents]
  cases names <;> simp [down]

/-- What goes up can be told apart from what goes down. -/
theorem up_append_down_inj {parents parents' : Nat} {names names' : List String} :
    up parents ++ down names = up parents' ++ down names' ↔
      parents = parents' ∧ down names = down names' := by
  constructor
  · intro h
    obtain ⟨htake, hdrop⟩ := takeWhile_up_down parents names
    obtain ⟨htake', hdrop'⟩ := takeWhile_up_down parents' names'
    rw [h, htake'] at htake
    rw [h, hdrop'] at hdrop
    exact ⟨by simpa [up] using (congrArg List.length htake).symm, hdrop.symm⟩
  · rintro ⟨rfl, h⟩
    rw [h]

/-- The normal form and the key of components without a root. -/
theorem lexical_and_key {cs : List PathComponent} (hcs : .root ∉ cs) :
    (∃ names, descent cs = down names) ∧ lexical cs = up (climb cs) ++ descent cs ∧
      (cs.foldl keyStep []).reverse = up (climb cs % 2) ++ descent cs := by
  obtain ⟨parents, names, hlexical, hkey⟩ := foldl_keptAs hcs 0 []
  change cs.foldl lexicalStep [] = _ at hlexical
  change cs.foldl keyStep [] = _ at hkey
  have hnormal : lexical cs = up parents ++ down names.reverse := by
    rw [lexical, hlexical, reverse_keptAs]
  obtain ⟨htake, hdrop⟩ := takeWhile_up_down parents names.reverse
  have hclimb : climb cs = parents := by
    rw [climb, hnormal, htake, up, List.length_replicate]
  have hdescent : descent cs = down names.reverse := by rw [descent, hnormal, hdrop]
  rw [hclimb, hdescent, hkey, reverse_keptAs]
  exact ⟨⟨_, rfl⟩, hnormal, rfl⟩

/-! ## Paths without their extension -/

/-- `.` does not count for a key. -/
theorem foldl_keyStep_filter (cs kept : List PathComponent) :
    (cs.filter (· ≠ .current)).foldl keyStep kept = cs.foldl keyStep kept := by
  rw [List.foldl_filter]
  congr 1
  funext kept c
  cases c <;> simp [keyStep]

theorem keyOf_eq (cs : List PathComponent) :
    keyOf cs = ((stripExtension (cs.filter (· ≠ .current))).foldl keyStep []).reverse := rfl

/-- `.` stands in front or nowhere. -/
theorem componentsOf_eq_append_spelled (text : List Char) : ∃ front segments,
    componentsOf text = front ++ spelled segments ∧
      (front = [.root] ∨ front = [.current] ∨ front = []) := by
  obtain ⟨first, rest, hsplit⟩ := List.exists_cons_of_ne_nil (Text.splitAt_ne_nil '/' text)
  rw [componentsOf_eq hsplit]
  split
  · exact ⟨[.root], rest, rfl, .inl rfl⟩
  · split
    · exact ⟨[.current], rest, rfl, .inr (.inl rfl)⟩
    · exact ⟨[], first :: rest, (spelled_append [first] rest).symm, .inr (.inr rfl)⟩

theorem ne_current_of_mem_spelled {segments : List (List Char)} {c : PathComponent}
    (h : c ∈ spelled segments) : c ≠ .current ∧ c ≠ .root := by
  obtain ⟨s, hs, rfl⟩ := List.mem_map.mp h
  have hdot : s ≠ "." := by
    have hkept := (List.mem_filter.mp hs).2
    simp only [Bool.and_eq_true, decide_eq_true_eq] at hkept
    exact hkept.2
  rw [PathComponent.ofSegment, if_neg hdot]
  split <;> simp

theorem root_notMem_components {p : SourcePath} (hp : p.Rootless) : .root ∉ p.components := by
  obtain ⟨first, rest, hsplit⟩ := List.exists_cons_of_ne_nil (Text.splitAt_ne_nil '/' p.text.toList)
  have hspelled : ∀ segments, .root ∉ spelled segments := fun segments h =>
    (ne_current_of_mem_spelled h).2 rfl
  rw [components, componentsOf_eq hsplit, if_neg hp]
  split <;> simp [hspelled]

/-- Without `.` the last component is the same, unless it is the only one. -/
theorem getLast?_filter_components (p : SourcePath) (name : String) :
    (p.components.filter (· ≠ .current)).getLast? = some (.normal name) ↔
      p.components.getLast? = some (.normal name) := by
  obtain ⟨front, segments, heq, hfront⟩ := componentsOf_eq_append_spelled p.text.toList
  have hkept : (spelled segments).filter (· ≠ .current) = spelled segments :=
    List.filter_eq_self.mpr fun c hc => by simpa using (ne_current_of_mem_spelled hc).1
  rw [components, heq, List.filter_append, hkept, List.getLast?_append, List.getLast?_append]
  cases (spelled segments).getLast? with
  | some c => rfl
  | none => obtain rfl | rfl | rfl := hfront <;> simp

variable {p : SourcePath} {name : String}

theorem splitName_fst_unbroken (hname : IsStem name) :
    (splitName name).1 ≠ "" ∧ '/' ∉ (splitName name).1.toList := by
  have hunbroken := hname.unbroken
  obtain ⟨s, e, hsplit, rfl, hs, -⟩ | ⟨hsplit, -⟩ := splitName_cases name <;> rw [hsplit]
  · simp only [String.toList_append, List.mem_append, not_or] at hunbroken
    exact ⟨hs, hunbroken.1.1⟩
  · exact ⟨hname.nonempty, hunbroken⟩

/-- A path that names a file loses the extension of the name. -/
theorem filter_stripped_of_fileName? (h : p.fileName? = some name) :
    p.stripped.filter (· ≠ .current) =
      (p.components.dropLast ++ [PathComponent.ofSegment (splitName name).1]).filter
        (· ≠ .current) := by
  have hlast := getLast?_components h
  rw [components, ← List.reverse_reverse p.text.toList] at hlast
  obtain ⟨hstem, hplace⟩ := exists_front _ hlast
  obtain ⟨hne, hunbroken⟩ := splitName_fst_unbroken hstem
  have hsplit := Text.splitAt_of_not_mem hunbroken
  -- a stem may be a dot, which does not count
  have hsegment : (spelled [(splitName name).1.toList]).filter (· ≠ .current) =
      [PathComponent.ofSegment (splitName name).1].filter (· ≠ .current) := by
    rw [spelled_singleton]
    split
    · rename_i hskipped
      obtain hempty | hdot := hskipped
      · exact absurd (String.toList_eq_nil_iff.mp hempty) hne
      · rw [String.toList_inj.mp (show (splitName name).1.toList = ".".toList from hdot)]
        rfl
    · rw [String.ofList_toList]
  have hstripped : ∀ base : List Char,
      dropTrail p.text.toList.reverse = (base ++ name.toList).reverse →
        p.stripped = componentsOf (base ++ (splitName name).1.toList) := by
    intro base hbase
    rw [stripped, withExtension, h, components]
    dsimp only
    rw [drop_name hbase]
    simp
  rw [List.reverse_reverse] at hplace
  rw [components]
  obtain ⟨hdrop, hfront⟩ | ⟨front, hdrop, hfront⟩ := hplace
  · have hhead : (splitName name).1.toList.head? ≠ some '/' := fun h =>
      hunbroken (List.mem_of_head? h)
    rw [hstripped [] hdrop, hfront, List.nil_append, List.nil_append, componentsOf_eq hsplit,
      if_neg hhead, spelled_nil, List.append_nil]
    split
    · rename_i hdot
      rw [String.ofList_toList] at hdot
      rw [hdot]
      rfl
    · exact hsegment
  · rw [hstripped (front ++ ['/']) (by simp [hdrop]), hfront, List.append_assoc,
      List.singleton_append, componentsOf_append_cons, hsplit, List.filter_append,
      List.filter_append, hsegment]

theorem stripExtension_filter_components (p : SourcePath) :
    (stripExtension (p.components.filter (· ≠ .current))).filter (· ≠ .current) =
      p.stripped.filter (· ≠ .current) := by
  cases h : p.fileName? with
  | some name =>
    have hlast := getLast?_components h
    have hfilter := (getLast?_filter_components p name).mpr hlast
    rw [filter_stripped_of_fileName? h, stripExtension, hfilter]
    have hsplit := List.dropLast_append_getLast? _ hlast
    generalize p.components.dropLast = front at hsplit
    rw [← hsplit]
    simp [List.filter_append]
  | none =>
    have hlast : ∀ name, p.components.getLast? ≠ some (.normal name) := by
      intro name hname
      rw [fileName?, hname] at h
      cases h
    have hstripped : p.stripped = p.components := by rw [stripped, withExtension, h]
    have hsame : stripExtension (p.components.filter (· ≠ .current)) =
        p.components.filter (· ≠ .current) := by
      unfold stripExtension
      split
      · rename_i name hname
        exact absurd ((getLast?_filter_components p name).mp hname) (hlast name)
      · rfl
    rw [hsame, hstripped, List.filter_filter]
    simp

/-- The key of a module goes over the components of its path without the extension. -/
theorem moduleKey_eq_foldl (p : SourcePath) : p.moduleKey = (p.stripped.foldl keyStep []).reverse := by
  rw [moduleKey, keyOf_eq, ← foldl_keyStep_filter, stripExtension_filter_components,
    foldl_keyStep_filter]

theorem root_notMem_stripExtension {cs : List PathComponent} (hcs : .root ∉ cs) :
    .root ∉ stripExtension cs := by
  unfold stripExtension
  split
  · simp only [List.mem_append, List.mem_singleton, not_or]
    refine ⟨fun h => hcs (List.mem_of_mem_dropLast h), ?_⟩
    unfold PathComponent.ofSegment
    split
    · simp
    · split <;> simp
  · exact hcs

theorem root_notMem_stripped (hp : p.Rootless) : .root ∉ p.stripped := by
  intro hmem
  have hroot : .root ∈ p.stripped.filter (· ≠ .current) := List.mem_filter.mpr ⟨hmem, rfl⟩
  rw [← stripExtension_filter_components] at hroot
  refine root_notMem_stripExtension (fun hfilter => ?_) (List.mem_filter.mp hroot).1
  exact root_notMem_components hp (List.mem_filter.mp hfilter).1

theorem root_notMem_target (hp : p.Rootless) {specifier : String}
    (hspecifier : Rootless ⟨specifier⟩) : .root ∉ p.target specifier := by
  refine root_notMem_stripExtension fun hfilter => ?_
  have hdirectory : .root ∉ p.directory := by
    unfold directory
    split
    · exact List.not_mem_nil
    · exact List.not_mem_nil
    · exact fun h => root_notMem_components hp (List.mem_of_mem_dropLast h)
  obtain h | h := List.mem_append.mp (List.mem_filter.mp hfilter).1
  · exact hdirectory h
  · exact root_notMem_components hspecifier h

theorem rootless_of_isRelative {specifier : String} (h : isRelative specifier = true) :
    Rootless ⟨specifier⟩ := by
  rw [isRelative, String.startsWith_string_iff] at h
  obtain ⟨rest, hrest⟩ := h
  change specifier.toList.head? ≠ some '/'
  rw [← hrest]
  simp

/-! ## Keys against normal forms -/

/-- The key of components without a root is their normal form if they climb by one level at most. -/
theorem key_eq_lexical_iff {cs : List PathComponent} (hcs : .root ∉ cs) :
    (cs.foldl keyStep []).reverse = lexical cs ↔ climb cs ≤ 1 := by
  obtain ⟨⟨names, hnames⟩, hlexical, hkey⟩ := lexical_and_key hcs
  rw [hkey, hlexical, hnames, up_append_down_inj, and_iff_left rfl]
  omega

/-- Two keys agree if the paths lead to the same place and climb by numbers of levels that differ by
an even number. -/
theorem key_eq_iff {cs cs' : List PathComponent} (hcs : .root ∉ cs) (hcs' : .root ∉ cs') :
    (cs.foldl keyStep []).reverse = (cs'.foldl keyStep []).reverse ↔
      descent cs = descent cs' ∧ climb cs % 2 = climb cs' % 2 := by
  obtain ⟨⟨names, hnames⟩, -, hkey⟩ := lexical_and_key hcs
  obtain ⟨⟨names', hnames'⟩, -, hkey'⟩ := lexical_and_key hcs'
  rw [hkey, hkey', hnames, hnames', up_append_down_inj, and_comm]

/-- The key of a module against the normal form of its path. Of the levels by which the path climbs
the key keeps the remainder by two, so it is the normal form of paths that climb by one level at
most, and among these it tells apart what the normal forms tell apart. Imports are compared the same
way. -/
theorem moduleKey_of_rootless {p q : SourcePath} (hp : p.Rootless) (hq : q.Rootless) :
    (∃ names, descent p.stripped = down names) ∧
      lexical p.stripped = up (climb p.stripped) ++ descent p.stripped ∧
      p.moduleKey = up (climb p.stripped % 2) ++ descent p.stripped ∧
      (p.moduleKey = lexical p.stripped ↔ climb p.stripped ≤ 1) ∧
      (p.moduleKey = q.moduleKey ↔ descent p.stripped = descent q.stripped ∧
        climb p.stripped % 2 = climb q.stripped % 2) ∧
      (climb p.stripped ≤ 1 → climb q.stripped ≤ 1 →
        (p.moduleKey = q.moduleKey ↔ lexical p.stripped = lexical q.stripped)) ∧
      ∀ specifier, isRelative specifier = true →
        (p.importKey specifier = q.moduleKey ↔
          descent (p.target specifier) = descent q.stripped ∧
            climb (p.target specifier) % 2 = climb q.stripped % 2) := by
  have hroot := root_notMem_stripped hp
  have hroot' := root_notMem_stripped hq
  obtain ⟨hnames, hlexical, hkey⟩ := lexical_and_key hroot
  rw [moduleKey_eq_foldl p, moduleKey_eq_foldl q]
  refine ⟨hnames, hlexical, hkey, key_eq_lexical_iff hroot, key_eq_iff hroot hroot',
    fun hclimb hclimb' => ?_, fun specifier hspecifier => ?_⟩
  · rw [(key_eq_lexical_iff hroot).mpr hclimb, (key_eq_lexical_iff hroot').mpr hclimb']
  · exact key_eq_iff (root_notMem_target hp (rootless_of_isRelative hspecifier)) hroot'

/-- Two levels up is no level up: a file two directories above has the key of a file beside, and
an import of it names the file beside. -/
theorem moduleKey_two_levels_up :
    Rootless ⟨"../../m.kn"⟩ ∧ Rootless ⟨"m.kn"⟩ ∧ Rootless ⟨"main.kn"⟩ ∧
      moduleKey ⟨"../../m.kn"⟩ = moduleKey ⟨"m.kn"⟩ ∧
      importKey ⟨"main.kn"⟩ "../../m" = moduleKey ⟨"m.kn"⟩ := by
  have hup : Rootless ⟨"../../m.kn"⟩ := by decide +kernel
  have hbeside : Rootless ⟨"m.kn"⟩ := by decide +kernel
  have hmain : Rootless ⟨"main.kn"⟩ := by decide +kernel
  obtain ⟨-, -, -, -, hkeys, -⟩ := moduleKey_of_rootless hup hbeside
  obtain ⟨-, -, -, -, -, -, himports⟩ := moduleKey_of_rootless hmain hbeside
  refine ⟨hup, hbeside, hmain, hkeys.mpr ?_, (himports "../../m" ?_).mpr ?_⟩
  all_goals decide +kernel

/-- Keys do not tell relative paths apart as their normal forms do, nor are they normal forms. -/
theorem not_moduleKey_lexical :
    (¬ ∀ p : SourcePath, p.Rootless → p.moduleKey = lexical p.stripped) ∧
      ¬ ∀ p q : SourcePath, p.Rootless → q.Rootless →
        (p.moduleKey = q.moduleKey ↔ lexical p.stripped = lexical q.stripped) := by
  constructor
  · intro h
    have hkey := h ⟨"../../m.kn"⟩ (by decide +kernel)
    revert hkey
    decide +kernel
  · intro h
    have hkeys := h ⟨"../../m.kn"⟩ ⟨"m.kn"⟩ (by decide +kernel) (by decide +kernel)
    revert hkeys
    decide +kernel

end SourcePath

end MacroEngine
