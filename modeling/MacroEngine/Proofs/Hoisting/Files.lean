import MacroEngine.Proofs.Hoisting.Lowered
import MacroEngine.Proofs.Hoisting.Walk
import MacroEngine.Proofs.Placement

/-!
# Where the hoisted constants of a file stand

The constants that a walk asks for come right after the first import of the file, in the order of
their numbers, or on top of it if there is none. So each of them stands in front of all statements
that have its name, unless these stand in front of the first import. Lowering changes nothing about
that.
-/

namespace MacroEngine

def Stmt.declares (name : String) (s : Stmt) : Bool := s.constant? == some name

/-- The number of statements in front of the first import; zero if there is none. -/
def leadingCount (ss : List Stmt) : ℕ := (ss.findIdx? Stmt.isImport).getD 0

/-- One statement declares a constant of the name, and those in front of it do not have the name,
some of the first statements apart. -/
structure DefinedFirst (name : String) (apart : ℕ) (ss : List Stmt) : Prop where
  once : ss.countP (Stmt.declares name) = 1
  first : ∀ s ∈ (ss.takeWhile fun s => !s.declares name).drop apart, name ∉ s.names

instance (name : String) (apart : ℕ) (ss : List Stmt) : Decidable (DefinedFirst name apart ss) :=
  decidable_of_iff (ss.countP (Stmt.declares name) = 1 ∧
      ∀ s ∈ (ss.takeWhile fun s : Stmt => !s.declares name).drop apart, name ∉ s.names)
    ⟨fun h => ⟨h.1, h.2⟩, fun h => ⟨h.once, h.first⟩⟩

/-- If the `n`-th hoisted name is one of those with numbers from `first` on and below `next`, then it
is defined before it is used, statements in front of the first import apart; if not, then no statement
has it. -/
structure Hoists (n first next : ℕ) (ss : List Stmt) : Prop where
  defined : first ≤ n → n < next → DefinedFirst (Standard.hoistedName n) (leadingCount ss) ss
  given : Standard.hoistedName n ∈ Stmt.namesAll ss → first ≤ n ∧ n < next

section Lists

variable {name : String} {apart : ℕ} {ss ss' front rest : List Stmt} {s : Stmt}

theorem Stmt.declares_iff : s.declares name = true ↔ s.constant? = some name := beq_iff_eq

theorem Stmt.declares_eq_false (h : name ∉ s.names) : s.declares name = false :=
  Bool.eq_false_iff.mpr fun hdeclares =>
    h (Stmt.mem_names_of_constant? (Stmt.declares_iff.mp hdeclares))

theorem leadingCount_eq_length (hfront : ∀ t ∈ front, t.isImport = false)
    (hs : s.isImport = true) : leadingCount (front ++ s :: rest) = front.length := by
  have hnone : front.findIdx? Stmt.isImport = none := List.findIdx?_eq_none_iff.mpr hfront
  simp [leadingCount, List.findIdx?_append, List.findIdx?_cons, hnone, hs]

theorem leadingCount_eq_zero (h : ∀ t ∈ ss, t.isImport = false) : leadingCount ss = 0 := by
  rw [leadingCount, List.findIdx?_eq_none_iff.mpr h]
  rfl

/-- The constant stands behind some statements and in front of all others. -/
theorem DefinedFirst.of_split (hs : s.declares name = true)
    (hfront : ∀ t ∈ front, t.declares name = false) (hrest : ∀ t ∈ rest, t.declares name = false)
    (hnames : ∀ t ∈ front.drop apart, name ∉ t.names) :
    DefinedFirst name apart (front ++ s :: rest) where
  once := by
    rw [List.countP_append, List.countP_cons_of_pos hs,
      List.countP_eq_zero.mpr fun t ht => by simp [hfront t ht],
      List.countP_eq_zero.mpr fun t ht => by simp [hrest t ht]]
  first := by
    rw [List.takeWhile_append_of_pos fun t ht => by simp [hfront t ht],
      List.takeWhile_cons_of_neg (by simp [hs]), List.append_nil]
    exact hnames

end Lists

/-- What stands in a place stood for something. -/
theorem exists_of_mem_forall₂ {α β : Type} {R : α → β → Prop} {as : List α} {bs : List β}
    (h : List.Forall₂ R as bs) {b : β} (hb : b ∈ bs) : ∃ a ∈ as, R a b := by
  induction h with
  | nil => cases hb
  | cons hab _ ih =>
    rcases List.mem_cons.mp hb with rfl | hb
    · exact ⟨_, List.mem_cons_self, hab⟩
    · obtain ⟨a, ha, hab⟩ := ih hb
      exact ⟨a, List.mem_cons_of_mem _ ha, hab⟩

section Grown

variable {words : List String} {name : String} {apart : ℕ} {ss ss' : List Stmt}

theorem Stmt.Grows.declares {s s' : Stmt} (h : s.Grows words s') :
    s'.declares name = s.declares name := by
  rw [Stmt.declares, h.constant, Stmt.declares]

theorem leadingCount_of_grows (h : List.Forall₂ (Stmt.Grows words) ss ss') :
    leadingCount ss' = leadingCount ss := by
  have hindex : ss'.findIdx? Stmt.isImport = ss.findIdx? Stmt.isImport := by
    induction h with
    | nil => rfl
    | cons hs _ ih => rw [List.findIdx?_cons, List.findIdx?_cons, hs.isImport, ih]
  rw [leadingCount, hindex, leadingCount]

theorem takeWhile_grows {p : Stmt → Bool} (hp : ∀ s s', s.Grows words s' → p s' = p s)
    (h : List.Forall₂ (Stmt.Grows words) ss ss') :
    List.Forall₂ (Stmt.Grows words) (ss.takeWhile p) (ss'.takeWhile p) := by
  induction h with
  | nil => exact .nil
  | cons hs _ ih =>
    rw [List.takeWhile_cons, List.takeWhile_cons, hp _ _ hs]
    split
    · exact .cons hs ih
    · exact .nil

theorem DefinedFirst.grows (hdefined : DefinedFirst name apart ss) (hname : name ∉ words)
    (h : List.Forall₂ (Stmt.Grows words) ss ss') : DefinedFirst name apart ss' where
  once := by
    rw [← hdefined.once]
    clear hdefined
    induction h with
    | nil => rfl
    | cons hs _ ih => rw [List.countP_cons, List.countP_cons, ih, hs.declares]
  first := by
    intro s' hs'
    have hfront := takeWhile_grows (p := fun s => !s.declares name)
      (fun _ _ hs => by rw [hs.declares]) h
    obtain ⟨s, hs, hgrows⟩ := exists_of_mem_forall₂ (List.forall₂_drop apart hfront) hs'
    intro hmem
    rcases List.mem_append.mp (hgrows.names hmem) with hown | hword
    · exact hdefined.first s hs hown
    · exact hname hword

/-- Statements that stay in their places and get other names define what they defined. -/
theorem Hoists.grows {n first next : ℕ} (hhoists : Hoists n first next ss)
    (hname : Standard.hoistedName n ∉ words) (h : List.Forall₂ (Stmt.Grows words) ss ss') :
    Hoists n first next ss' where
  defined hfirst hnext := by
    rw [leadingCount_of_grows h]
    exact (hhoists.defined hfirst hnext).grows hname h
  given hmem := by
    obtain ⟨s', hs', hmem⟩ := Stmt.mem_namesAll.mp hmem
    obtain ⟨s, hs, hgrows⟩ := exists_of_mem_forall₂ h hs'
    exact hhoists.given (Stmt.mem_namesAll.mpr
      ⟨s, hs, (List.mem_append.mp (hgrows.names hmem)).resolve_right hname⟩)

end Grown

namespace Patcher

variable {former present ds front rest : List Stmt} {first : Stmt} {anchor : Stmt → Bool}

/-- Statements that are put on top of a file one after the other. -/
theorem patchAgainst_prepends (former present ds : List Stmt) :
    ((ds.map Edit.prepend).foldl Edit.patch .empty).patchAgainst former present =
      ⟨ds.reverse ++ present, []⟩ := by
  obtain ⟨htop, hbefore, hend, hafter⟩ := foldl_patch_empty (ds.map Edit.prepend)
  have hnone {α : Type} {f : Edit → Option α} (hf : ∀ s, f (.prepend s) = none) :
      (ds.map Edit.prepend).filterMap f = [] := by
    simp [List.filterMap_map, hf]
  have hall : (ds.map Edit.prepend).filterMap Edit.atTop? = ds := by
    simp [List.filterMap_map, Function.comp_def, Edit.atTop?]
  rw [patchAgainst, htop, hbefore, hend, hafter, hall, hnone fun _ => rfl, hnone fun _ => rfl,
    hnone fun _ => rfl, foldl_cons_eq]
  simp [applyBefore, applyAfter]

/-- Statements with one anchor stand after it, in their order, and nowhere else. -/
theorem arranged_anchor (hanchor : isAnchor former anchor first = true)
    (hnodup : ((front ++ first :: rest).map Stmt.id).Nodup) :
    arranged former (front ++ first :: rest) [] (ds.map fun d => (d, anchor)) =
      front ++ first :: (ds ++ rest) := by
  simp only [List.map_append, List.map_cons, List.nodup_append, List.nodup_cons, List.mem_map,
    List.mem_cons] at hnodup
  obtain ⟨-, ⟨hrest, -⟩, hfront⟩ := hnodup
  have hself : nextTo former (ds.map fun d => (d, anchor)) first = ds := by
    simp [nextTo, List.filter_map, Function.comp_def, hanchor]
  have hother (ts : List Stmt) (hts : ∀ t ∈ ts, t.id ≠ first.id) :
      arranged former ts [] (ds.map fun d => (d, anchor)) = ts := by
    refine (arranged_congr (fun _ _ => rfl) fun t ht => ?_).trans (arranged_nil former ts)
    simp [nextTo, List.filter_map, Function.comp_def, isAnchor_eq_false_of_ne hanchor (hts t ht)]
  rw [arranged_append, arranged_cons, hself,
    hother front fun t ht => hfront t.id ⟨t, ht, rfl⟩ first.id (.inl rfl),
    hother rest fun t ht heq => hrest ⟨t, ht, heq⟩]
  rfl

/-- Statements that are put after one of the statements of a file. -/
theorem patchAgainst_insertAfters (hanchor : isAnchor former anchor first = true)
    (hnodup : ((front ++ first :: rest).map Stmt.id).Nodup) (hds : Foreign former ds) :
    ((ds.map (Edit.insertAfter · anchor)).foldl Edit.patch .empty).patchAgainst former
      (front ++ first :: rest) = ⟨front ++ first :: (ds ++ rest), []⟩ := by
  obtain ⟨htop, hbefore, hend, hafter⟩ := foldl_patch_empty (ds.map (Edit.insertAfter · anchor))
  have hnone {α : Type} {f : Edit → Option α} (hf : ∀ s, f (.insertAfter s anchor) = none) :
      (ds.map (Edit.insertAfter · anchor)).filterMap f = [] := by
    simp [List.filterMap_map, hf]
  have hall : (ds.map (Edit.insertAfter · anchor)).filterMap Edit.afterAnchor? =
      ds.map fun d => (d, anchor) := by
    simp [List.filterMap_map, Function.comp_def, Edit.afterAnchor?]
  have hnil : Foreign former [] := List.forall_mem_nil _
  have hplaced := @applyAfter_arranged former _ hnodup [] [] [] hnil hnil hnil
    (ds.map fun d => (d, anchor)) [] [] [] (by simpa [Function.comp_def] using hds) fun s _ => rfl
  have hadrift : adrift former (front ++ first :: rest) (ds.map fun d => (d, anchor)) = [] := by
    simp [adrift, hanchor]
  simp only [arranged_nil, List.nil_append, List.append_nil, hadrift,
    arranged_anchor hanchor hnodup] at hplaced
  rw [patchAgainst, htop, hbefore, hend, hafter, hall, hnone fun _ => rfl, hnone fun _ => rfl,
    hnone fun _ => rfl]
  simp only [List.foldl_nil, applyBefore, List.append_nil]
  exact hplaced

end Patcher

namespace Standard

section Declarations

variable {first n : ℕ} {values : List (Stamp × Expr)} {d : Stmt}

theorem mem_declarations (hd : d ∈ declarations first values) :
    ∃ m, first ≤ m ∧ m < first + values.length ∧ ∃ value ∈ values,
      d = declaration value.1 m value.2 := by
  induction values generalizing first with
  | nil => cases hd
  | cons value values ih =>
    rcases List.mem_cons.mp hd with rfl | hd
    · refine ⟨first, Nat.le_refl _, ?_, value, List.mem_cons_self, rfl⟩
      simp
    · obtain ⟨m, hfirst, hlt, v, hv, rfl⟩ := ih hd
      refine ⟨m, Nat.le_of_succ_le hfirst, ?_, v, List.mem_cons_of_mem _ hv, rfl⟩
      rw [List.length_cons]
      omega

theorem declares_declaration (stamp : Stamp) (value : Expr) :
    (declaration stamp n value).declares (hoistedName n) = true := beq_self_eq_true _

section Apart

variable (hvalues : ∀ value ∈ values, hoistedName n ∉ value.2.names)

include hvalues

/-- A constant that has the name declares it. -/
theorem of_mem_names_declarations (hd : d ∈ declarations first values)
    (hname : hoistedName n ∈ d.names) : first ≤ n ∧ n < first + values.length := by
  obtain ⟨m, hfirst, hlt, value, hvalue, rfl⟩ := mem_declarations hd
  rcases List.mem_cons.mp hname with heq | hname
  · rw [hoistedName_injective heq]
    exact ⟨hfirst, hlt⟩
  · exact absurd hname (hvalues value hvalue)

/-- Each number has its constant, and no other constant has the name. -/
theorem exists_declarations_eq (hfirst : first ≤ n) (hlt : n < first + values.length) :
    ∃ earlier stamp value later,
      declarations first values = earlier ++ declaration stamp n value :: later ∧
        (∀ d ∈ earlier, hoistedName n ∉ d.names) ∧ ∀ d ∈ later, hoistedName n ∉ d.names := by
  have hindex : n - first < values.length := by omega
  have hlength : first + (values.take (n - first)).length = n := by
    rw [List.length_take]
    omega
  have hsplit : values.take (n - first) ++ values[n - first] :: values.drop (n - first + 1) =
      values := by rw [List.getElem_cons_drop, List.take_append_drop]
  refine ⟨declarations first (values.take (n - first)), values[n - first].1, values[n - first].2,
    declarations (n + 1) (values.drop (n - first + 1)), ?_, fun d hd hname => ?_,
    fun d hd hname => ?_⟩
  · conv_lhs => rw [← hsplit, declarations_append, hlength, declarations]
  · have hbelow := (of_mem_names_declarations
      (fun v hv => hvalues v (List.mem_of_mem_take hv)) hd hname).2
    omega
  · have habove := (of_mem_names_declarations
      (fun v hv => hvalues v (List.mem_of_mem_drop hv)) hd hname).1
    omega

end Apart

theorem isImport_declarations : ∀ d ∈ declarations first values, d.isImport = false := by
  intro d hd
  obtain ⟨m, -, -, value, -, rfl⟩ := mem_declarations hd
  rfl

end Declarations

end Standard

/-- Statements of a file that was walked through: they declare no hoisted constant, and they have its
name only if it was given meanwhile. Imports never do. -/
structure Uses (n first next : ℕ) (ss : List Stmt) : Prop where
  declares : ∀ s ∈ ss, s.declares (Standard.hoistedName n) = false
  imports : ∀ s ∈ ss, s.isImport = true → Standard.hoistedName n ∉ s.names
  given : Standard.hoistedName n ∈ Stmt.namesAll ss → first ≤ n ∧ n < next

section Placed

variable {n first : ℕ} {values : List (Stamp × Expr)} {front rest present : List Stmt} {s : Stmt}
  (hvalues : ∀ value ∈ values, Standard.hoistedName n ∉ value.2.names)

include hvalues

/-- Nothing but the constants comes to the names. -/
theorem Uses.given_of_placed {ss : List Stmt} (h : Uses n first (first + values.length) present)
    (hss : ∀ t ∈ ss, t ∈ present ∨ t ∈ Standard.declarations first values)
    (hmem : Standard.hoistedName n ∈ Stmt.namesAll ss) : first ≤ n ∧ n < first + values.length := by
  obtain ⟨t, ht, hname⟩ := Stmt.mem_namesAll.mp hmem
  rcases hss t ht with hpresent | hd
  · exact h.given (Stmt.mem_namesAll.mpr ⟨t, hpresent, hname⟩)
  · exact Standard.of_mem_names_declarations hvalues hd hname

/-- The constants stand after the first import. -/
theorem Uses.hoists_after (h : Uses n first (first + values.length) (front ++ s :: rest))
    (hfront : ∀ t ∈ front, t.isImport = false) (hs : s.isImport = true) :
    Hoists n first (first + values.length)
      (front ++ s :: (Standard.declarations first values ++ rest)) where
  defined hfirst hnext := by
    obtain ⟨earlier, stamp, value, later, hsplit, hearlier, hlater⟩ :=
      Standard.exists_declarations_eq hvalues hfirst hnext
    obtain ⟨hfronts, hrests⟩ := List.forall_mem_append.mp h.declares
    obtain ⟨hself, hrests⟩ := List.forall_mem_cons.mp hrests
    have hlist : front ++ s :: (Standard.declarations first values ++ rest) =
        (front ++ s :: earlier) ++ Standard.declaration stamp n value :: (later ++ rest) := by
      rw [hsplit]
      simp
    rw [leadingCount_eq_length hfront hs, hlist]
    refine .of_split (Standard.declares_declaration _ _) ?_ ?_ ?_
    · refine List.forall_mem_append.mpr ⟨hfronts, List.forall_mem_cons.mpr ⟨hself, fun d hd => ?_⟩⟩
      exact Stmt.declares_eq_false (hearlier d hd)
    · exact List.forall_mem_append.mpr ⟨fun d hd => Stmt.declares_eq_false (hlater d hd), hrests⟩
    · rw [List.drop_left]
      refine List.forall_mem_cons.mpr ⟨?_, hearlier⟩
      exact h.imports s (List.mem_append_right _ List.mem_cons_self) hs
  given := h.given_of_placed hvalues fun t ht => by
    simp only [List.mem_append, List.mem_cons] at ht ⊢
    tauto

/-- Without an import they stand on top, the last one first. -/
theorem Uses.hoists_top (h : Uses n first (first + values.length) present)
    (hpresent : ∀ t ∈ present, t.isImport = false) : Hoists n first (first + values.length)
      ((Standard.declarations first values).reverse ++ present) where
  defined hfirst hnext := by
    have hnone : ∀ t ∈ (Standard.declarations first values).reverse ++ present,
        t.isImport = false :=
      List.forall_mem_append.mpr
        ⟨fun d hd => Standard.isImport_declarations d (List.mem_reverse.mp hd), hpresent⟩
    rw [leadingCount_eq_zero hnone]
    obtain ⟨earlier, stamp, value, later, hsplit, hearlier, hlater⟩ :=
      Standard.exists_declarations_eq hvalues hfirst hnext
    have hlist : (Standard.declarations first values).reverse ++ present =
        later.reverse ++ Standard.declaration stamp n value :: (earlier.reverse ++ present) := by
      rw [hsplit]
      simp
    rw [hlist]
    refine .of_split (Standard.declares_declaration _ _) (fun d hd => ?_) ?_ fun d hd => ?_
    · exact Stmt.declares_eq_false (hlater d (List.mem_reverse.mp hd))
    · refine List.forall_mem_append.mpr ⟨fun d hd => ?_, h.declares⟩
      exact Stmt.declares_eq_false (hearlier d (List.mem_reverse.mp hd))
    · exact hlater d (List.mem_reverse.mp hd)
  given := h.given_of_placed hvalues fun t ht => by
    simp only [List.mem_append, List.mem_reverse] at ht
    tauto

end Placed

section Expanded

variable (file : SourceFile) (registry : Registry) (config : Config)
  (environment : Standard.Environment) (shop : Workshop)

/-- The walk through a file; the names that the file does not have are told apart. -/
def SourceFile.hoisting : Hoisting where
  setting := file.setting registry config
  environment := environment
  spared := { n | Standard.hoistedName n ∉ file.names }
  bound := shop.nextId
  first := shop.hoisted

theorem SourceFile.clean_names :
    (file.hoisting registry config environment shop).Clean (Stmt.namesAll file.statements) :=
  fun _ hname _ hn heq => hn (heq ▸ hname)

variable {file registry config environment shop} {hooks : HookCache} {depth : ℕ} {n : ℕ}

variable (file registry config shop depth) in
/-- What a walk through a file leads to. -/
theorem SourceFile.walk_tidy (hhooks : hooks.Standard environment) :
    (file.hoisting registry config environment shop).Reaches
        (file.walk registry config shop hooks depth).2 ∧
      shop.hoisted ≤ (file.walk registry config shop hooks depth).2.shop.hoisted ∧
      (file.hoisting registry config environment shop).Given
        (file.walk registry config shop hooks depth).2
        (Stmt.namesAll (file.walk registry config shop hooks depth).1) :=
  have hclean := file.clean_names registry config environment shop
  (Hoisting.expand_tidy depth).2.2 file.statements hclean _
    (.start hhooks (Nat.le_refl _) rfl) (hclean.given _)

/-- What stands in the places of the statements of a file. -/
theorem SourceFile.walk_uses (hhooks : hooks.Standard environment)
    (hhalted : (file.walk registry config shop hooks depth).2.halted = none)
    (hn : Standard.hoistedName n ∉ file.names) :
    List.Forall₂ Stmt.SameHead file.statements (file.walk registry config shop hooks depth).1 ∧
      Uses n shop.hoisted (file.walk registry config shop hooks depth).2.shop.hoisted
        (file.walk registry config shop hooks depth).1 := by
  have hheads : List.Forall₂ Stmt.SameHead file.statements
      (file.walk registry config shop hooks depth).1 :=
    Hoisting.expandStmts_sameHead depth (file.clean_names registry config environment shop)
      (.start hhooks (Nat.le_refl _) rfl) hhalted
  have hown (s : Stmt) (hs : s ∈ file.statements) : Standard.hoistedName n ∉ s.names :=
    fun hname => hn (Stmt.mem_namesAll.mpr ⟨s, hs, hname⟩)
  refine ⟨hheads, fun s' hs' => ?_, fun s' hs' himport => ?_, fun hmem => ?_⟩
  · obtain ⟨s, hs, hhead⟩ := exists_of_mem_forall₂ hheads hs'
    rw [Stmt.declares, hhead.constant]
    exact Stmt.declares_eq_false (hown s hs)
  · obtain ⟨s, hs, hhead⟩ := exists_of_mem_forall₂ hheads hs'
    rw [hhead.imports (hhead.isImport ▸ himport)]
    exact hown s hs
  · exact (walk_tidy file registry config shop depth hhooks).2.2 _ hmem n hn rfl

theorem find?_isImport_of_sameHead {ss ss' : List Stmt} (h : List.Forall₂ Stmt.SameHead ss ss') :
    ss'.find? Stmt.isImport = ss.find? Stmt.isImport := by
  induction h with
  | nil => rfl
  | @cons s s' ss ss' hs _ ih =>
    rw [List.find?_cons, List.find?_cons, hs.isImport, ih]
    cases himport : s.isImport with
    | true => rw [hs.imports himport]
    | false => rfl

theorem map_id_of_sameHead {ss ss' : List Stmt} (h : List.Forall₂ Stmt.SameHead ss ss') :
    ss'.map Stmt.id = ss.map Stmt.id := by
  induction h with
  | nil => rfl
  | cons hs _ ih => rw [List.map_cons, List.map_cons, hs.id, ih]

theorem SourceFile.shop_conclude {walked : List Stmt × Expansion} :
    (file.conclude config walked).final.shop = walked.2.shop := by
  unfold conclude
  split
  · rfl
  · dsimp only
    split <;> rfl

/-- What the patches make of a file that was walked through. -/
theorem hoists_of_patches {former present : List Stmt} {first : ℕ} {values : List (Stamp × Expr)}
    (hheads : List.Forall₂ Stmt.SameHead former present)
    (huses : Uses n first (first + values.length) present)
    (hvalues : ∀ value ∈ values, Standard.hoistedName n ∉ value.2.names)
    (hnodup : (former.map Stmt.id).Nodup)
    (hforeign : Patcher.Foreign former (Standard.declarations first values)) :
    Hoists n first (first + values.length)
      ((((Standard.declarations first values).map (Standard.place former)).foldl Edit.patch
        .empty).patchAgainst former present).statements := by
  have hfound := find?_isImport_of_sameHead hheads
  rw [← map_id_of_sameHead hheads] at hnodup
  cases hfind : former.find? Stmt.isImport with
  | none =>
    have hplace : Standard.place former = Edit.prepend := by
      funext s
      rw [Standard.place, hfind]
    rw [hplace, Patcher.patchAgainst_prepends]
    rw [hfind, List.find?_eq_none] at hfound
    exact huses.hoists_top hvalues fun t ht => Bool.eq_false_of_not_eq_true (hfound t ht)
  | some first =>
    have hplace : Standard.place former = (Edit.insertAfter · fun s => s.id = first.id) := by
      funext s
      rw [Standard.place, hfind]
    have hanchor : Patcher.isAnchor former (fun s => s.id = first.id) first = true := by
      have hmem := List.mem_of_find?_eq_some hfind
      cases ho : former.find? fun s => s.id = first.id with
      | none => exact absurd (decide_eq_true rfl) (List.find?_eq_none.mp ho first hmem)
      | some o =>
        have hid := List.find?_some ho
        exact Patcher.isAnchor_iff.mpr ⟨o, ho, of_decide_eq_true hid⟩
    rw [hfind, List.find?_eq_some_iff_append] at hfound
    obtain ⟨hfirst, front, rest, rfl, hfront⟩ := hfound
    rw [hplace, Patcher.patchAgainst_insertAfters hanchor hnodup hforeign]
    exact huses.hoists_after hvalues (fun t ht => by simpa using hfront t ht) hfirst

/-- In an expanded file the hoisted names that were given meanwhile are defined before they are used,
statements in front of the first import apart, and there are no others. -/
theorem SourceFile.expand_hoists (hhooks : hooks.Standard environment)
    (hnodup : (file.statements.map Stmt.id).Nodup)
    (hbelow : ∀ s ∈ file.statements, s.id < shop.nextId)
    (hn : Standard.hoistedName n ∉ file.names) {counts : ExpansionCounts}
    (hok : (file.expand registry config depth shop hooks).outcome = .ok counts) :
    Hoists n shop.hoisted (file.expand registry config depth shop hooks).final.shop.hoisted
      (file.expand registry config depth shop hooks).file.statements := by
  rw [expand_eq_conclude] at hok ⊢
  have hhalted := halted_of_conclude_ok hok
  obtain ⟨hheads, huses⟩ := walk_uses hhooks hhalted hn
  have hreaches := (walk_tidy file registry config shop depth hhooks).1
  obtain ⟨values, hnumber, hvalues, hpatcher⟩ := hreaches.patches
  have hnumber : (file.walk registry config shop hooks depth).2.shop.hoisted =
      shop.hoisted + values.length := hnumber
  rw [shop_conclude, (conclude_of_awake file config hhalted).1, hpatcher, hnumber]
  rw [hnumber] at huses
  refine hoists_of_patches hheads huses (fun value hv hname => ?_) hnodup fun d hd s hs => ?_
  · exact (hvalues value hv).2 _ hname n hn rfl
  · obtain ⟨m, -, -, value, hv, rfl⟩ := Standard.mem_declarations hd
    exact Nat.ne_of_lt (Nat.lt_of_lt_of_le (hbelow s hs) (hvalues value hv).1)

end Expanded

end MacroEngine
