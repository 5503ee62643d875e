/-!
# Tables

A table is a list of keys with values, at most one entry for each key, in the order in which the
keys came in. Keys are compared by `==`, and the first spelling of a key stays.
-/

namespace MacroEngine

/-- Values by key, oldest key first. -/
abbrev Table (α β : Type) := List (α × β)

namespace Table

variable {α β : Type} [BEq α]

def get? (key : α) : Table α β → Option β
  | [] => none
  | (k, v) :: rest => if k == key then some v else get? key rest

/-- The table with a value at a key, in place of the one it had. -/
def insert (key : α) (value : β) : Table α β → Table α β
  | [] => [(key, value)]
  | (k, v) :: rest => if k == key then (k, value) :: rest else (k, v) :: insert key value rest

def erase (key : α) (t : Table α β) : Table α β := t.filter fun entry => !(entry.1 == key)

def has (key : α) (t : Table α β) : Bool := (get? key t).isSome

def values (t : Table α β) : List β := t.map (·.2)

@[simp] theorem get?_nil (key : α) : get? key ([] : Table α β) = none := rfl

theorem get?_insert_self [ReflBEq α] (key : α) (value : β) (t : Table α β) :
    get? key (insert key value t) = some value := by
  induction t with
  | nil => simp [insert, get?]
  | cons entry rest ih =>
    obtain ⟨k, v⟩ := entry
    by_cases h : k == key
    · simp [insert, get?, h]
    · simp [insert, get?, h, ih]

theorem mem_values_of_get? {key : α} {value : β} {t : Table α β} (h : get? key t = some value) :
    value ∈ t.values := by
  induction t with
  | nil => cases h
  | cons entry rest ih =>
    rw [get?] at h
    split at h
    · cases h
      exact List.mem_cons_self
    · exact List.mem_cons_of_mem _ (ih h)

theorem mem_of_get? [LawfulBEq α] {key : α} {value : β} {t : Table α β}
    (h : get? key t = some value) : (key, value) ∈ t := by
  induction t with
  | nil => cases h
  | cons entry rest ih =>
    obtain ⟨k, v⟩ := entry
    rw [get?] at h
    split at h
    · rename_i hk
      cases h
      rw [eq_of_beq hk]
      exact List.mem_cons_self
    · exact List.mem_cons_of_mem _ (ih h)

theorem key_of_mem_insert {key : α} {value : β} {t : Table α β} {entry : α × β}
    (h : entry ∈ insert key value t) : entry.1 = key ∨ ∃ v, (entry.1, v) ∈ t := by
  induction t with
  | nil =>
    obtain rfl := List.mem_singleton.mp h
    exact .inl rfl
  | cons first rest ih =>
    obtain ⟨k, v⟩ := first
    rw [insert] at h
    split at h
    · rcases List.mem_cons.mp h with rfl | h
      · exact .inr ⟨v, List.mem_cons_self⟩
      · exact .inr ⟨entry.2, List.mem_cons_of_mem _ h⟩
    · rcases List.mem_cons.mp h with rfl | h
      · exact .inr ⟨v, List.mem_cons_self⟩
      · exact (ih h).imp_right fun ⟨v', hv'⟩ => ⟨v', List.mem_cons_of_mem _ hv'⟩

theorem get?_congr [EquivBEq α] {key key' : α} (h : key == key') (t : Table α β) :
    get? key t = get? key' t := by
  induction t with
  | nil => rfl
  | cons entry rest ih => rw [get?, get?, ih, BEq.congr_right h]

theorem get?_insert [EquivBEq α] (key key' : α) (value : β) (t : Table α β) :
    get? key' (insert key value t) = if key == key' then some value else get? key' t := by
  induction t with
  | nil => simp [insert, get?]
  | cons entry rest ih =>
    obtain ⟨k, v⟩ := entry
    by_cases h : k == key
    · simp only [insert, get?, h, if_true, BEq.congr_left h]
      split <;> rfl
    · by_cases hk : k == key'
      · have hne : (key == key') = false :=
          Bool.eq_false_iff.mpr fun hkey => h (BEq.trans hk (BEq.symm hkey))
        simp [insert, get?, h, hk, hne]
      · simp [insert, get?, h, hk, ih]

/-- An entry of a table with one more value is that value or an old entry. -/
theorem mem_insert [ReflBEq α] {key : α} {value : β} {t : Table α β} {entry : α × β}
    (h : entry ∈ insert key value t) : (entry.1 == key) = true ∧ entry.2 = value ∨ entry ∈ t := by
  induction t with
  | nil =>
    obtain rfl := List.mem_singleton.mp h
    exact .inl ⟨BEq.rfl, rfl⟩
  | cons first rest ih =>
    obtain ⟨k, v⟩ := first
    rw [insert] at h
    split at h
    · rename_i hk
      rcases List.mem_cons.mp h with rfl | h
      · exact .inl ⟨hk, rfl⟩
      · exact .inr (List.mem_cons_of_mem _ h)
    · rcases List.mem_cons.mp h with rfl | h
      · exact .inr List.mem_cons_self
      · exact (ih h).imp_right (List.mem_cons_of_mem _)

/-- Looking up in the entries whose key passes a test that equal keys pass alike. -/
theorem get?_filter_key (p : α → Bool) {key : α} (hp : ∀ k, (k == key) = true → p k = p key)
    (t : Table α β) : get? key (t.filter fun entry => p entry.1) =
      if p key then get? key t else none := by
  induction t with
  | nil => simp
  | cons entry rest ih =>
    obtain ⟨k, v⟩ := entry
    by_cases hk : k == key
    · cases hkey : p key <;> simp [get?, hk, hp k hk, hkey, ih]
    · cases hpk : p k <;> simp [get?, hk, hpk, ih]

theorem get?_erase [EquivBEq α] (key key' : α) (t : Table α β) :
    get? key' (erase key t) = if key' == key then none else get? key' t := by
  have hkeys : ∀ k, (k == key') = true → (!(k == key)) = !(key' == key) := fun k hk => by
    rw [BEq.congr_left hk]
  rw [erase, get?_filter_key (fun k => !(k == key)) hkeys t]
  cases key' == key <;> rfl

theorem keys_insert [LawfulBEq α] (key : α) (value : β) (t : Table α β) :
    (insert key value t).map (·.1) = t.map (·.1) ∨
      key ∉ t.map (·.1) ∧ (insert key value t).map (·.1) = t.map (·.1) ++ [key] := by
  induction t with
  | nil => exact .inr ⟨List.not_mem_nil, rfl⟩
  | cons entry rest ih =>
    obtain ⟨k, v⟩ := entry
    by_cases hk : k == key
    · exact .inl (by simp [insert, hk])
    · have hne : key ≠ k := fun heq => hk (beq_iff_eq.mpr heq.symm)
      rcases ih with ih | ⟨hnot, ih⟩
      · exact .inl (by simp [insert, hk, ih])
      · exact .inr ⟨by simpa [hne] using hnot, by simp [insert, hk, ih]⟩

/-- A key has one value at most, so it keeps it in the entries whose value passes a test. -/
theorem get?_filter_value [LawfulBEq α] {p : β → Bool} {key : α} {t : Table α β}
    (h : (t.map (·.1)).Nodup) :
    get? key (t.filter fun entry => p entry.2) = (get? key t).filter p := by
  induction t with
  | nil => rfl
  | cons entry rest ih =>
    obtain ⟨k, v⟩ := entry
    obtain ⟨hnot, hrest⟩ := List.nodup_cons.mp h
    by_cases hk : k == key
    · obtain rfl := eq_of_beq hk
      have hnone : get? k (rest.filter fun entry => p entry.2) = none := by
        refine Option.eq_none_iff_forall_ne_some.mpr fun v' hv' => hnot ?_
        exact List.mem_map.mpr ⟨(k, v'), (List.mem_filter.mp (mem_of_get? hv')).1, rfl⟩
      cases hp : p v <;> simp [get?, hp, hnone, Option.filter]
    · cases hp : p v <;> simp [get?, hk, hp, ih hrest]

end Table

end MacroEngine
