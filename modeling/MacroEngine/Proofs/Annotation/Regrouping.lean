import MacroEngine.Proofs.Annotation.Reading

/-!
# What the text of an annotation stands for

The text of a type has exactly one reading, a sum of products. It is the type that was described, up to
nested unions and nested intersections, just if no union stands directly in an intersection: such a
union gets no parentheses, so `&` takes its last member away from it, and its first member if something
stands in front.
-/

namespace MacroEngine.TypeAnnotation

open Printer (isPlainKey)

def isUnion : TypeAnnotation → Bool
  | .union _ => true
  | _ => false

def IsTypeName (name : String) : Prop :=
  isPlainKey name = true ∧ IntrinsicType.ofLabel? name = none

mutual

/-- Types that a text can stand for: built-in, given by a name or a number, objects whose members have
names, arrays, named types with arguments, unions and intersections of two members at least. -/
def Plain : TypeAnnotation → Prop
  | .intrinsic _ => True
  | .object ms => PlainMembers ms
  | .objectMember _ _ _ => False
  | .array element => element.Plain
  | .union ts => 2 ≤ ts.length ∧ PlainAll ts
  | .intersection ts => 2 ≤ ts.length ∧ PlainAll ts
  | .generic base args => (∃ name arity, base = .reference name arity ∧ IsTypeName name) ∧ PlainAll args
  | .reference name _ => IsTypeName name
  | .resolved _ => True

def PlainAll : List TypeAnnotation → Prop
  | [] => True
  | t :: ts => t.Plain ∧ PlainAll ts

def PlainMembers : List (String × TypeAnnotation × Bool) → Prop
  | [] => True
  | (name, t, _) :: ms => isPlainKey name = true ∧ t.Plain ∧ PlainMembers ms

end

/-- The members of a union, and any other type alone. -/
def summands : TypeAnnotation → List TypeAnnotation
  | .union ts => ts
  | t => [t]

def factors : TypeAnnotation → List TypeAnnotation
  | .intersection ts => ts
  | t => [t]

mutual

/-- The type with no union directly in a union, no intersection directly in an intersection, and without
the arities of references. -/
def flat : TypeAnnotation → TypeAnnotation
  | .intrinsic type => .intrinsic type
  | .object ms => .object (flatMembers ms)
  | .objectMember name t isOptional => .objectMember name t.flat isOptional
  | .array element => .array element.flat
  | .union ts => .union (flatSummands ts)
  | .intersection ts => .intersection (flatFactors ts)
  | .generic base args => .generic base.flat (flatAll args)
  | .reference name _ => .reference name 0
  | .resolved id => .resolved id

def flatSummands : List TypeAnnotation → List TypeAnnotation
  | [] => []
  | t :: ts => t.flat.summands ++ flatSummands ts

def flatFactors : List TypeAnnotation → List TypeAnnotation
  | [] => []
  | t :: ts => t.flat.factors ++ flatFactors ts

def flatAll : List TypeAnnotation → List TypeAnnotation
  | [] => []
  | t :: ts => t.flat :: flatAll ts

def flatMembers : List (String × TypeAnnotation × Bool) → List (String × TypeAnnotation × Bool)
  | [] => []
  | (name, t, isOptional) :: ms => (name, t.flat, isOptional) :: flatMembers ms

end

/-- Sums of products written one behind the other with `&` between them: the last product of the first
one and the first product of the second one become one product. -/
def times : List (List TypeAnnotation) → List (List TypeAnnotation) → List (List TypeAnnotation)
  | [], qs => qs
  | [p], [] => [p]
  | [p], q :: qs => (p ++ q) :: qs
  | p :: p' :: ps, qs => p :: times (p' :: ps) qs

mutual

/-- The sum of products that the text of a type is. -/
def products : TypeAnnotation → List (List TypeAnnotation)
  | .intrinsic type => [[.intrinsic type]]
  | .object ms => [[.object (regroupMembers ms)]]
  | .objectMember name t isOptional => [[.objectMember name (regroup t.products) isOptional]]
  | .array element => [[.array (regroup element.products)]]
  | .union ts => productsOfUnion ts
  | .intersection ts => productsOfIntersection ts
  | .generic base args => [[.generic base.flat (regroupAll args)]]
  | .reference name _ => [[.reference name 0]]
  | .resolved id => [[.resolved id]]

def productsOfUnion : List TypeAnnotation → List (List TypeAnnotation)
  | [] => []
  | t :: ts => t.products ++ productsOfUnion ts

def productsOfIntersection : List TypeAnnotation → List (List TypeAnnotation)
  | [] => []
  | t :: ts => times t.products (productsOfIntersection ts)

def regroupAll : List TypeAnnotation → List TypeAnnotation
  | [] => []
  | t :: ts => regroup t.products :: regroupAll ts

def regroupMembers : List (String × TypeAnnotation × Bool) → List (String × TypeAnnotation × Bool)
  | [] => []
  | (name, t, isOptional) :: ms => (name, regroup t.products, isOptional) :: regroupMembers ms

end

/-- The type that the text of a type stands for. -/
def regrouped (t : TypeAnnotation) : TypeAnnotation := regroup t.products

section Reading

theorem named_label (type : IntrinsicType) : named type.label = .intrinsic type := by
  rw [named, IntrinsicType.ofLabel?_label]

theorem named_of_isTypeName {name : String} (h : IsTypeName name) : named name = .reference name 0 := by
  rw [named, h.2]

theorem isPlainKey_label (type : IntrinsicType) : isPlainKey type.label = true := by
  cases type <;> decide

theorem times_singleton (p q : List TypeAnnotation) (qs : List (List TypeAnnotation)) :
    times [p] (q :: qs) = (p ++ q) :: qs := rfl

theorem times_cons_cons (p p' : List TypeAnnotation) (ps qs : List (List TypeAnnotation)) :
    times (p :: p' :: ps) qs = p :: times (p' :: ps) qs := rfl

@[simp] theorem times_nil : ∀ ps : List (List TypeAnnotation), times ps [] = ps
  | [] => rfl
  | [_] => rfl
  | p :: p' :: ps => congrArg (p :: ·) (times_nil (p' :: ps))

theorem ReadsProduct.append {s' : String} {us : List TypeAnnotation} (h' : ReadsProduct s' us) :
    ∀ {s ts}, ReadsProduct s ts → ReadsProduct (s ++ " & " ++ s') (ts ++ us)
  | _, _, .one h => .more h h'
  | _, _, .more h hmore => by
    simpa only [String.append_assoc, List.cons_append] using
      ReadsProduct.more h (ReadsProduct.append h' hmore)

theorem ReadsSum.append {s' : String} {qs : List (List TypeAnnotation)} (h' : ReadsSum s' qs) :
    ∀ {s ps}, ReadsSum s ps → ReadsSum (s ++ " | " ++ s') (ps ++ qs)
  | _, _, .one h => .more h h'
  | _, _, .more h hmore => by
    simpa only [String.append_assoc, List.cons_append] using ReadsSum.more h (ReadsSum.append h' hmore)

theorem ReadsSum.times {s' : String} {qs : List (List TypeAnnotation)} (h' : ReadsSum s' qs) :
    ∀ {s ps}, ReadsSum s ps → ReadsSum (s ++ " & " ++ s') ( TypeAnnotation.times ps qs)
  | _, _, .one h => by
    cases h' with
    | one hq => exact .one (hq.append h)
    | more hq hmore =>
      simpa only [String.append_assoc, times_singleton] using ReadsSum.more (hq.append h) hmore
  | _, _, .more h hmore => by
    have htimes := ReadsSum.times h' hmore
    cases hmore <;> simpa only [String.append_assoc, times_cons_cons] using ReadsSum.more h htimes

/-- A factor is a sum as well. -/
theorem ReadsFactor.sum {s : String} {t : TypeAnnotation} {p : Prop} (h : ReadsFactor s t) :
    ReadsSum s [[t]] ∧ (p → ∃ f, [[t]] = [[f]] ∧ ReadsFactor s f) :=
  ⟨.one (.one h), fun _ => ⟨t, rfl, h⟩⟩

mutual

/-- The text of a type is read as the sum of its products, and as one factor unless it is a union or an
intersection. -/
theorem products_read : ∀ t : TypeAnnotation, t.Plain → ReadsSum t.text t.products ∧
    (t.isCompound = false → ∃ f, t.products = [[f]] ∧ ReadsFactor t.text f)
  | .intrinsic type, _ => by
    have h := ReadsFactor.name (isPlainKey_label type)
    rw [named_label] at h
    exact h.sum
  | .object [], _ => ReadsFactor.empty.sum
  | .object (m :: ms), h =>
    (ReadsFactor.object (members_read (m :: ms) (List.cons_ne_nil m ms) h)).sum
  | .array element, h => by
    obtain ⟨hsum, hfactor⟩ := products_read element h
    have harray : ReadsFactor (array element).text (.array (regroup element.products)) := by
      rw [text]
      cases hc : element.isCompound with
      | true => exact .array (.paren hsum)
      | false =>
        obtain ⟨f, hf, hread⟩ := hfactor hc
        rw [hf]
        exact .array hread
    exact harray.sum
  | .union ts, h => ⟨summands_read ts (List.ne_nil_of_length_pos (Nat.lt_of_lt_of_le Nat.two_pos h.1))
    h.2, fun hc => by cases hc⟩
  | .intersection ts, h =>
    ⟨factors_read ts (List.ne_nil_of_length_pos (Nat.lt_of_lt_of_le Nat.two_pos h.1)) h.2,
      fun hc => by cases hc⟩
  | .generic base args, h => by
    obtain ⟨⟨name, arity, rfl, hname⟩, hargs⟩ := h
    cases args with
    | nil =>
      have htext : (generic (.reference name arity) []).text = name ++ "<" ++ ">" := by
        simp [text, texts, String.append_assoc]
      rw [htext]
      exact (ReadsFactor.generic hname.1).sum
    | cons a as =>
      exact (ReadsFactor.arguments hname.1
        (arguments_read (a :: as) (List.cons_ne_nil a as) hargs)).sum
  | .reference name _, h => by
    have hread := ReadsFactor.name h.1
    rw [named_of_isTypeName h] at hread
    exact hread.sum
  | .resolved id, _ => (ReadsFactor.resolved id).sum

theorem summands_read : ∀ ts : List TypeAnnotation, ts ≠ [] → PlainAll ts →
    ReadsSum (" | ".intercalate (texts ts)) (productsOfUnion ts)
  | [], hne, _ => absurd rfl hne
  | [t], _, h => by
    simpa [texts, productsOfUnion] using (products_read t h.1).1
  | t :: u :: ts, _, h => by
    have hread := (summands_read (u :: ts) (List.cons_ne_nil u ts) h.2).append (products_read t h.1).1
    rwa [texts, texts, String.intercalate_cons_cons]

theorem factors_read : ∀ ts : List TypeAnnotation, ts ≠ [] → PlainAll ts →
    ReadsSum (" & ".intercalate (texts ts)) (productsOfIntersection ts)
  | [], hne, _ => absurd rfl hne
  | [t], _, h => by
    simpa [texts, productsOfIntersection] using (products_read t h.1).1
  | t :: u :: ts, _, h => by
    have hread := (factors_read (u :: ts) (List.cons_ne_nil u ts) h.2).times (products_read t h.1).1
    rwa [texts, texts, String.intercalate_cons_cons]

theorem arguments_read : ∀ ts : List TypeAnnotation, ts ≠ [] → PlainAll ts →
    ReadsArguments (", ".intercalate (texts ts)) (regroupAll ts)
  | [], hne, _ => absurd rfl hne
  | [t], _, h => by
    simpa [texts, regroupAll] using ReadsArguments.one (products_read t h.1).1
  | t :: u :: ts, _, h => by
    have hread := ReadsArguments.more (products_read t h.1).1
      (arguments_read (u :: ts) (List.cons_ne_nil u ts) h.2)
    rwa [texts, texts, String.intercalate_cons_cons]

theorem members_read : ∀ ms : List (String × TypeAnnotation × Bool), ms ≠ [] → PlainMembers ms →
    ReadsMembers ("; ".intercalate (memberTexts ms)) (regroupMembers ms)
  | [], hne, _ => absurd rfl hne
  | [(_, t, isOptional)], _, h => by
    simpa [memberTexts, regroupMembers] using
      ReadsMembers.one (o := isOptional) h.1 (products_read t h.2.1).1
  | (_, t, isOptional) :: (name, u, isOptional') :: ms, _, h => by
    have hread := ReadsMembers.more (o := isOptional) h.1 (products_read t h.2.1).1
      (members_read ((name, u, isOptional') :: ms) (List.cons_ne_nil _ ms) h.2.2)
    rwa [memberTexts, memberTexts, String.intercalate_cons_cons]

end

/-- The text of a type can be read in one way only. -/
theorem reads_text_iff {t r : TypeAnnotation} (h : t.Plain) : Reads t.text r ↔ r = t.regrouped := by
  have hread : Reads t.text t.regrouped := ⟨_, (products_read t h).1, rfl⟩
  exact ⟨fun hr => hr.unique hread, fun hr => hr ▸ hread⟩

end Reading

mutual

/-- No union stands directly in an intersection, at any depth. -/
def Grouped : TypeAnnotation → Prop
  | .intrinsic _ | .reference _ _ | .resolved _ => True
  | .object ms => GroupedMembers ms
  | .objectMember _ t _ => t.Grouped
  | .array element => element.Grouped
  | .union ts => GroupedAll ts
  | .intersection ts => (∀ t ∈ ts, t.isUnion = false) ∧ GroupedAll ts
  | .generic _ args => GroupedAll args

def GroupedAll : List TypeAnnotation → Prop
  | [] => True
  | t :: ts => t.Grouped ∧ GroupedAll ts

def GroupedMembers : List (String × TypeAnnotation × Bool) → Prop
  | [] => True
  | (_, t, _) :: ms => t.Grouped ∧ GroupedMembers ms

end

section Grouped

theorem groupedAll_iff {ts : List TypeAnnotation} : GroupedAll ts ↔ ∀ t ∈ ts, t.Grouped := by
  induction ts with
  | nil => simp [GroupedAll]
  | cons t ts ih => simp [GroupedAll, ih]

theorem meet_of_two_le {ts : List TypeAnnotation} (h : 2 ≤ ts.length) : meet ts = .intersection ts := by
  match ts, h with
  | _ :: _ :: _, _ => rfl

theorem join_of_two_le {ts : List TypeAnnotation} (h : 2 ≤ ts.length) : join ts = .union ts := by
  match ts, h with
  | _ :: _ :: _, _ => rfl

theorem isUnion_flat (t : TypeAnnotation) : t.flat.isUnion = t.isUnion := by cases t <;> rfl

mutual

/-- Flattening takes no member away. -/
theorem length_flat : ∀ t : TypeAnnotation, t.Plain →
    1 ≤ t.flat.summands.length ∧ 1 ≤ t.flat.factors.length
  | .union ts, h => ⟨Nat.le_trans (Nat.le_of_lt h.1) (length_flatAll ts h.2).1, Nat.le_refl 1⟩
  | .intersection ts, h => ⟨Nat.le_refl 1, Nat.le_trans (Nat.le_of_lt h.1) (length_flatAll ts h.2).2⟩
  | .intrinsic _, _ | .object _, _ | .objectMember _ _ _, _ | .array _, _ | .generic _ _, _
  | .reference _ _, _ | .resolved _, _ => ⟨Nat.le_refl 1, Nat.le_refl 1⟩

theorem length_flatAll : ∀ ts : List TypeAnnotation, PlainAll ts →
    ts.length ≤ (flatSummands ts).length ∧ ts.length ≤ (flatFactors ts).length
  | [], _ => ⟨Nat.le_refl 0, Nat.le_refl 0⟩
  | t :: ts, h => by
    obtain ⟨hsummands, hfactors⟩ := length_flat t h.1
    obtain ⟨hall, hall'⟩ := length_flatAll ts h.2
    simp only [flatSummands, flatFactors, List.length_append, List.length_cons]
    omega

end

theorem join_summands {t : TypeAnnotation} (h : t.Plain) : join t.flat.summands = t.flat := by
  cases t with
  | union ts => exact join_of_two_le (Nat.le_trans h.1 (length_flatAll ts h.2).1)
  | _ => rfl

theorem meet_factors {t : TypeAnnotation} (h : t.Plain) : meet t.flat.factors = t.flat := by
  cases t with
  | intersection ts => exact meet_of_two_le (Nat.le_trans h.1 (length_flatAll ts h.2).2)
  | _ => rfl

/-- If the products of a type are its summands, the type is read as it was described. -/
theorem regroup_of_summands {t : TypeAnnotation} (h : t.Plain)
    (hproducts : t.products.map meet = t.flat.summands) : regroup t.products = t.flat := by
  rw [regroup, hproducts, join_summands h]

mutual

/-- The products of a type are its summands, and a type that is no union is one product, if no union
stands directly in an intersection. -/
theorem products_flat : ∀ t : TypeAnnotation, t.Plain → t.Grouped →
    t.products.map meet = t.flat.summands ∧ (t.isUnion = false → t.products = [t.flat.factors])
  | .intrinsic _, _, _ | .reference _ _, _, _ | .resolved _, _, _ => ⟨rfl, fun _ => rfl⟩
  | .object ms, h, hg => by
    simp [products, flat, summands, factors, meet, regroupMembers_flat ms h hg]
  | .array element, h, hg => by
    have helement := regroup_of_summands (t := element) h (products_flat element h hg).1
    simp [products, flat, summands, factors, meet, helement]
  | .union ts, h, hg => ⟨productsOfUnion_flat ts h.2 hg, fun hu => by cases hu⟩
  | .intersection ts, h, hg => by
    have hproducts := productsOfIntersection_flat ts
      (List.ne_nil_of_length_pos (Nat.lt_of_lt_of_le Nat.two_pos h.1)) h.2 hg.1 hg.2
    refine ⟨?_, fun _ => hproducts⟩
    rw [products, hproducts]
    exact congrArg (fun t => [t]) (meet_factors h)
  | .generic base args, h, hg => by
    simp [products, flat, summands, factors, meet, regroupAll_flat args h.2 hg]

theorem productsOfUnion_flat : ∀ ts : List TypeAnnotation, PlainAll ts → GroupedAll ts →
    (productsOfUnion ts).map meet = flatSummands ts
  | [], _, _ => rfl
  | t :: ts, h, hg => by
    rw [productsOfUnion, List.map_append, (products_flat t h.1 hg.1).1,
      productsOfUnion_flat ts h.2 hg.2]
    rfl

theorem productsOfIntersection_flat : ∀ ts : List TypeAnnotation, ts ≠ [] → PlainAll ts →
    (∀ t ∈ ts, t.isUnion = false) → GroupedAll ts → productsOfIntersection ts = [flatFactors ts]
  | [], hne, _, _, _ => absurd rfl hne
  | [t], _, h, hu, hg => by
    simp [productsOfIntersection, flatFactors,
      (products_flat t h.1 hg.1).2 (hu t List.mem_cons_self)]
  | t :: u :: ts, _, h, hu, hg => by
    obtain ⟨ht, hus⟩ := List.forall_mem_cons.mp hu
    rw [productsOfIntersection, (products_flat t h.1 hg.1).2 ht,
      productsOfIntersection_flat (u :: ts) (List.cons_ne_nil u ts) h.2 hus hg.2]
    rfl

theorem regroupAll_flat : ∀ ts : List TypeAnnotation, PlainAll ts → GroupedAll ts →
    regroupAll ts = flatAll ts
  | [], _, _ => rfl
  | t :: ts, h, hg => by
    rw [regroupAll, regroup_of_summands h.1 (products_flat t h.1 hg.1).1, regroupAll_flat ts h.2 hg.2]
    rfl

theorem regroupMembers_flat : ∀ ms : List (String × TypeAnnotation × Bool), PlainMembers ms →
    GroupedMembers ms → regroupMembers ms = flatMembers ms
  | [], _, _ => rfl
  | (_, t, _) :: ms, h, hg => by
    rw [regroupMembers, regroup_of_summands h.2.1 (products_flat t h.2.1 hg.1).1,
      regroupMembers_flat ms h.2.2 hg.2]
    rfl

end

/-- Factors that are no unions, with no union directly in an intersection in them. -/
def Factored (products : List (List TypeAnnotation)) : Prop :=
  ∀ p ∈ products, ∀ t ∈ p, t.Grouped ∧ t.isUnion = false

theorem factored_singleton {t : TypeAnnotation} (h : t.Grouped) (hu : t.isUnion = false) :
    Factored [[t]] := by
  simp [Factored, h, hu]

theorem Factored.append {ps qs : List (List TypeAnnotation)} (h : Factored ps) (h' : Factored qs) :
    Factored (ps ++ qs) := fun p hp => (List.mem_append.mp hp).elim (h p) (h' p)

theorem Factored.times {qs : List (List TypeAnnotation)} (h' : Factored qs) :
    ∀ {ps : List (List TypeAnnotation)}, Factored ps → Factored (times ps qs)
  | [], _ => h'
  | [p], h => by
    cases qs with
    | nil => exact h
    | cons q qs =>
      obtain ⟨hq, hqs⟩ := List.forall_mem_cons.mp h'
      refine List.forall_mem_cons.mpr ⟨fun t ht => ?_, hqs⟩
      exact (List.mem_append.mp ht).elim (h p List.mem_cons_self t) (hq t)
  | p :: p' :: ps, h => by
    obtain ⟨hp, hps⟩ := List.forall_mem_cons.mp h
    exact List.forall_mem_cons.mpr ⟨hp, Factored.times h' hps⟩

theorem grouped_meet {p : List TypeAnnotation} (h : ∀ t ∈ p, t.Grouped ∧ t.isUnion = false) :
    (meet p).Grouped := by
  have hproduct : (intersection p).Grouped :=
    ⟨fun t ht => (h t ht).2, groupedAll_iff.mpr fun t ht => (h t ht).1⟩
  match p, h with
  | [t], h => exact (h t List.mem_cons_self).1
  | [], _ | _ :: _ :: _, _ => exact hproduct

theorem Factored.grouped {ps : List (List TypeAnnotation)} (h : Factored ps) : (regroup ps).Grouped := by
  have hterms : ∀ t ∈ ps.map meet, t.Grouped := fun t ht => by
    obtain ⟨p, hp, rfl⟩ := List.mem_map.mp ht
    exact grouped_meet (h p hp)
  unfold regroup
  generalize ps.map meet = ts at hterms
  match ts, hterms with
  | [t], h => exact h t List.mem_cons_self
  | [], h | _ :: _ :: _, h => exact groupedAll_iff.mpr h

mutual

/-- What is read never has a union directly in an intersection. -/
theorem products_factored : ∀ t : TypeAnnotation, Factored t.products
  | .intrinsic _ | .reference _ _ | .resolved _ => factored_singleton trivial rfl
  | .object ms => factored_singleton (groupedMembers_regroup ms) rfl
  | .objectMember _ t _ => factored_singleton (products_factored t).grouped rfl
  | .array element => factored_singleton (products_factored element).grouped rfl
  | .union ts => productsOfUnion_factored ts
  | .intersection ts => productsOfIntersection_factored ts
  | .generic _ args => factored_singleton (groupedAll_regroup args) rfl

theorem productsOfUnion_factored : ∀ ts : List TypeAnnotation, Factored (productsOfUnion ts)
  | [] => fun _ hp => absurd hp List.not_mem_nil
  | t :: ts => (products_factored t).append (productsOfUnion_factored ts)

theorem productsOfIntersection_factored : ∀ ts : List TypeAnnotation,
    Factored (productsOfIntersection ts)
  | [] => fun _ hp => absurd hp List.not_mem_nil
  | t :: ts => (productsOfIntersection_factored ts).times (products_factored t)

theorem groupedAll_regroup : ∀ ts : List TypeAnnotation, GroupedAll (regroupAll ts)
  | [] => trivial
  | t :: ts => ⟨(products_factored t).grouped, groupedAll_regroup ts⟩

theorem groupedMembers_regroup : ∀ ms : List (String × TypeAnnotation × Bool),
    GroupedMembers (regroupMembers ms)
  | [] => trivial
  | (_, t, _) :: ms => ⟨(products_factored t).grouped, groupedMembers_regroup ms⟩

end

theorem grouped_of_summands {t : TypeAnnotation} (h : ∀ u ∈ t.summands, u.Grouped) : t.Grouped := by
  cases t with
  | union ts => exact groupedAll_iff.mpr h
  | _ => exact h _ List.mem_cons_self

theorem grouped_of_factors {t : TypeAnnotation} (h : ∀ u ∈ t.factors, u.Grouped)
    (hu : ∀ u ∈ t.factors, u.isUnion = false) : t.Grouped := by
  cases t with
  | intersection ts => exact ⟨hu, groupedAll_iff.mpr h⟩
  | _ => exact h _ List.mem_cons_self

/-- A union is a factor of its own. -/
theorem isUnion_of_factors {t : TypeAnnotation} (h : ∀ u ∈ t.factors, u.isUnion = false) :
    t.isUnion = false := by
  cases t with
  | union ts => exact h _ List.mem_cons_self
  | _ => rfl

mutual

/-- Flattening takes no union out of an intersection. -/
theorem grouped_of_flat : ∀ t : TypeAnnotation, t.flat.Grouped → t.Grouped
  | .intrinsic _, _ | .reference _ _, _ | .resolved _, _ => trivial
  | .object ms, h => groupedMembers_of_flat ms h
  | .objectMember _ t _, h => grouped_of_flat t h
  | .array element, h => grouped_of_flat element h
  | .union ts, h => groupedAll_of_flatSummands ts (groupedAll_iff.mp h)
  | .intersection ts, h => groupedAll_of_flatFactors ts (groupedAll_iff.mp h.2) h.1
  | .generic _ args, h => groupedAll_of_flat args h

theorem groupedAll_of_flatSummands : ∀ ts : List TypeAnnotation,
    (∀ t ∈ flatSummands ts, t.Grouped) → GroupedAll ts
  | [], _ => trivial
  | t :: ts, h => by
    obtain ⟨ht, hts⟩ := List.forall_mem_append.mp h
    exact ⟨grouped_of_flat t (grouped_of_summands ht), groupedAll_of_flatSummands ts hts⟩

theorem groupedAll_of_flatFactors : ∀ ts : List TypeAnnotation,
    (∀ t ∈ flatFactors ts, t.Grouped) → (∀ t ∈ flatFactors ts, t.isUnion = false) →
      (∀ t ∈ ts, t.isUnion = false) ∧ GroupedAll ts
  | [], _, _ => ⟨fun _ ht => absurd ht List.not_mem_nil, trivial⟩
  | t :: ts, h, hu => by
    obtain ⟨ht, hts⟩ := List.forall_mem_append.mp h
    obtain ⟨hut, huts⟩ := List.forall_mem_append.mp hu
    obtain ⟨hno, hgrouped⟩ := groupedAll_of_flatFactors ts hts huts
    have hthis : t.isUnion = false := (isUnion_flat t).symm.trans (isUnion_of_factors hut)
    exact ⟨List.forall_mem_cons.mpr ⟨hthis, hno⟩, grouped_of_flat t (grouped_of_factors ht hut),
      hgrouped⟩

theorem groupedAll_of_flat : ∀ ts : List TypeAnnotation, GroupedAll (flatAll ts) → GroupedAll ts
  | [], _ => trivial
  | t :: ts, h => ⟨grouped_of_flat t h.1, groupedAll_of_flat ts h.2⟩

theorem groupedMembers_of_flat : ∀ ms : List (String × TypeAnnotation × Bool),
    GroupedMembers (flatMembers ms) → GroupedMembers ms
  | [], _ => trivial
  | (_, t, _) :: ms, h => ⟨grouped_of_flat t h.1, groupedMembers_of_flat ms h.2⟩

end

/-- The text stands for the type that was described just if no union stands directly in an
intersection. -/
theorem regrouped_eq_flat_iff {t : TypeAnnotation} (h : t.Plain) :
    t.regrouped = t.flat ↔ t.Grouped := by
  constructor
  · intro heq
    have hgrouped : t.regrouped.Grouped := (products_factored t).grouped
    exact grouped_of_flat t (heq ▸ hgrouped)
  · exact fun hg => regroup_of_summands h (products_flat t h hg).1

/-- The text of a type has exactly one reading, which is the type that was described, up to nesting and
arities, just if no union stands directly in an intersection. So types with the same text are read
alike, and those of them that have no such union are the same up to nesting and arities. -/
theorem text_reads_regrouped {t u : TypeAnnotation} (ht : t.Plain) (hu : u.Plain) :
    (∀ r, Reads t.text r ↔ r = t.regrouped) ∧ (t.regrouped = t.flat ↔ t.Grouped) ∧
      (t.text = u.text → t.regrouped = u.regrouped ∧ (t.Grouped → u.Grouped → t.flat = u.flat)) := by
  refine ⟨fun r => reads_text_iff ht, regrouped_eq_flat_iff ht, fun htext => ?_⟩
  have hread : Reads u.text t.regrouped := htext ▸ (reads_text_iff ht).mpr rfl
  have hsame : t.regrouped = u.regrouped := (reads_text_iff hu).mp hread
  refine ⟨hsame, fun htg hug => ?_⟩
  rw [← (regrouped_eq_flat_iff ht).mpr htg, hsame, (regrouped_eq_flat_iff hu).mpr hug]

/-- Such as types with arguments that are described with unions in unions or without, and with another
arity. -/
theorem text_reads_regrouped_promise :
    let t : TypeAnnotation := .generic (.reference "Promise" 1)
      [.union [.intrinsic .string, .union [.intrinsic .null, .array (.reference "T" 0)]]]
    let u : TypeAnnotation := .generic (.reference "Promise" 2)
      [.union [.intrinsic .string, .intrinsic .null, .array (.reference "T" 0)]]
    t.Plain ∧ u.Plain ∧ t.Grouped ∧ u.Grouped ∧ t.text = "Promise<string | null | T[]>" ∧
      t.text = u.text ∧
      (∀ r, Reads t.text r ↔ r = t.regrouped) ∧ (t.regrouped = t.flat ↔ t.Grouped) ∧
        (t.text = u.text → t.regrouped = u.regrouped ∧ (t.Grouped → u.Grouped → t.flat = u.flat)) := by
  intro t u
  have hpromise : IsTypeName "Promise" := ⟨by decide, by decide⟩
  have hname : IsTypeName "T" := ⟨by decide, by decide⟩
  have ht : t.Plain := ⟨⟨_, _, rfl, hpromise⟩,
    ⟨by decide, trivial, ⟨by decide, trivial, hname, trivial⟩, trivial⟩, trivial⟩
  have hu : u.Plain := ⟨⟨_, _, rfl, hpromise⟩, ⟨by decide, trivial, trivial, hname, trivial⟩, trivial⟩
  have htg : t.Grouped := ⟨⟨trivial, ⟨trivial, trivial, trivial⟩, trivial⟩, trivial⟩
  have hug : u.Grouped := ⟨⟨trivial, trivial, trivial, trivial⟩, trivial⟩
  exact ⟨ht, hu, htg, hug, by decide +kernel, by decide +kernel, text_reads_regrouped ht hu⟩

/-- A union in an intersection is written like an intersection in a union, and read like it. -/
theorem text_union_in_intersection :
    let t : TypeAnnotation := .intersection [.union [.intrinsic .string, .intrinsic .number],
      .intrinsic .boolean]
    let u : TypeAnnotation := .union [.intrinsic .string,
      .intersection [.intrinsic .number, .intrinsic .boolean]]
    t.Plain ∧ u.Plain ∧ t.text = "string | number & boolean" ∧ t.text = u.text ∧ t.flat ≠ u.flat ∧
      Reads t.text u ∧ ¬ Reads t.text t.flat := by
  intro t u
  have ht : t.Plain := ⟨by decide, ⟨by decide, trivial, trivial, trivial⟩, trivial, trivial⟩
  have hu : u.Plain := ⟨by decide, trivial, ⟨by decide, trivial, trivial, trivial⟩, trivial⟩
  have hread : Reads t.text u := (reads_text_iff ht).mpr rfl
  refine ⟨ht, hu, by decide +kernel, by decide +kernel, nofun, hread, fun h => ?_⟩
  exact absurd (h.unique hread) nofun

end Grouped

end MacroEngine.TypeAnnotation
