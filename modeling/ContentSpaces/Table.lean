/-!
# Finite maps as ascending entry lists

A table keeps its entries in strictly ascending key order, so its list of entries is determined by
its lookups (`Table.ext_get?`): two tables are equal as soon as they answer every key alike.
The functions of `Entries` work on plain lists and are shared with the fields of JSON objects.
-/

namespace ContentSpaces

universe u v

namespace Entries

variable {κ : Type u} {ν : Type v}

section Lookup

variable [DecidableEq κ]

def get? (k : κ) : List (κ × ν) → Option ν
  | [] => none
  | (k', v) :: rest => if k = k' then some v else get? k rest

def erase (k : κ) : List (κ × ν) → List (κ × ν)
  | [] => []
  | (k', v) :: rest => if k = k' then rest else (k', v) :: erase k rest

def contains (k : κ) (es : List (κ × ν)) : Bool := (get? k es).isSome

theorem get?_erase_of_ne {k j : κ} (h : j ≠ k) (es : List (κ × ν)) :
    get? j (erase k es) = get? j es := by
  induction es with
  | nil => rfl
  | cons e rest ih =>
    obtain ⟨k', v'⟩ := e
    rw [erase]
    split
    · rename_i hk
      simp [get?, ← hk, h]
    · simp [get?, ih]

theorem mem_of_get? {k : κ} {v : ν} {es : List (κ × ν)} (h : get? k es = some v) :
    (k, v) ∈ es := by
  induction es with
  | nil => simp [get?] at h
  | cons e rest ih =>
    obtain ⟨k', v'⟩ := e
    rw [get?] at h
    split at h
    · rename_i hk
      simp_all
    · exact List.mem_cons_of_mem _ (ih h)

theorem get?_eq_none_of_forall_ne {k : κ} {es : List (κ × ν)} (h : ∀ e ∈ es, e.1 ≠ k) :
    get? k es = none := by
  induction es with
  | nil => rfl
  | cons e rest ih =>
    obtain ⟨k', v'⟩ := e
    have hk : k ≠ k' := fun hk => h (k', v') (by simp) hk.symm
    rw [get?, if_neg hk]
    exact ih fun e he => h e (List.mem_cons_of_mem _ he)

theorem get?_filter (p : κ → Bool) (k : κ) (es : List (κ × ν)) :
    get? k (es.filter fun e => p e.1) = if p k then get? k es else none := by
  induction es with
  | nil => simp [get?]
  | cons e rest ih =>
    obtain ⟨k', v'⟩ := e
    by_cases hk : k = k'
    · subst hk
      by_cases hp : p k
      · simp [get?, hp]
      · simpa [get?, hp] using ih
    · by_cases hp : p k'
      · simp [get?, hp, hk, ih]
      · simp [get?, hp, hk, ih]

theorem mem_of_mem_erase {k : κ} {e : κ × ν} {es : List (κ × ν)} (h : e ∈ erase k es) :
    e ∈ es := by
  induction es with
  | nil => exact h
  | cons e' rest ih =>
    obtain ⟨k', v'⟩ := e'
    rw [erase] at h
    split at h
    · exact List.mem_cons_of_mem _ h
    · rcases List.mem_cons.mp h with h | h
      · exact h ▸ List.mem_cons_self
      · exact List.mem_cons_of_mem _ (ih h)

end Lookup

variable [Ord κ]

def Ascending (es : List (κ × ν)) : Prop :=
  es.Pairwise fun a b => compare a.1 b.1 = .lt

instance (es : List (κ × ν)) : Decidable (Ascending es) :=
  inferInstanceAs (Decidable (es.Pairwise _))

variable [DecidableEq κ]

/-- Sets the value of a key, in front of the first larger key if the key is new. -/
def insert (k : κ) (v : ν) : List (κ × ν) → List (κ × ν)
  | [] => [(k, v)]
  | (k', v') :: rest =>
    if k = k' then (k, v) :: rest
    else if compare k k' = .lt then (k, v) :: (k', v') :: rest
    else (k', v') :: insert k v rest

theorem get?_insert_self (k : κ) (v : ν) (es : List (κ × ν)) :
    get? k (insert k v es) = some v := by
  induction es with
  | nil => simp [insert, get?]
  | cons e rest ih =>
    obtain ⟨k', v'⟩ := e
    rw [insert]
    split
    · simp [get?]
    · split
      · simp [get?]
      · simp [get?, *]

theorem get?_insert_of_ne {k j : κ} (h : j ≠ k) (v : ν) (es : List (κ × ν)) :
    get? j (insert k v es) = get? j es := by
  induction es with
  | nil => simp [insert, get?, h]
  | cons e rest ih =>
    obtain ⟨k', v'⟩ := e
    rw [insert]
    split
    · rename_i hk
      simp [get?, h, ← hk]
    · split
      · simp [get?, h]
      · simp [get?, ih]

theorem mem_insert {k : κ} {v : ν} {e : κ × ν} {es : List (κ × ν)} (h : e ∈ insert k v es) :
    e = (k, v) ∨ e ∈ es := by
  induction es with
  | nil => simpa [insert] using h
  | cons e' rest ih =>
    obtain ⟨k', v'⟩ := e'
    rw [insert] at h
    split at h
    · rcases List.mem_cons.mp h with h | h
      · exact .inl h
      · exact .inr (List.mem_cons_of_mem _ h)
    · split at h
      · rcases List.mem_cons.mp h with h | h
        · exact .inl h
        · exact .inr h
      · rcases List.mem_cons.mp h with h | h
        · exact .inr (h ▸ List.mem_cons_self)
        · exact (ih h).imp id (List.mem_cons_of_mem _)

section Ordered

variable [Std.TransOrd κ] [Std.LawfulEqOrd κ]

omit [DecidableEq κ] in
theorem compare_lt_of_ne_of_not_lt {k k' : κ} (hne : k ≠ k') (hlt : ¬ compare k k' = .lt) :
    compare k' k = .lt := by
  cases h : compare k k' with
  | lt => exact absurd h hlt
  | eq => exact absurd (Std.LawfulEqCmp.eq_of_compare h) hne
  | gt => exact Std.OrientedCmp.lt_of_gt h

omit [DecidableEq κ] [Std.TransOrd κ] in
theorem ne_of_compare_lt {k k' : κ} (h : compare k k' = .lt) : k ≠ k' := by
  rintro rfl
  rw [@Std.ReflCmp.compare_self κ compare _ k] at h
  cases h

theorem Ascending.insert {es : List (κ × ν)} (h : Ascending es) (k : κ) (v : ν) :
    Ascending (insert k v es) := by
  induction es with
  | nil => simp [Entries.insert, Ascending]
  | cons e rest ih =>
    obtain ⟨k', v'⟩ := e
    have hrest : Ascending rest := List.Pairwise.of_cons h
    have hhead : ∀ e ∈ rest, compare k' e.1 = .lt := fun e he => List.rel_of_pairwise_cons h he
    rw [Entries.insert]
    split
    · rename_i hk
      subst hk
      exact hrest.cons hhead
    · rename_i hne
      split
      · rename_i hlt
        refine h.cons fun e he => ?_
        rcases List.mem_cons.mp he with rfl | he
        · exact hlt
        · exact Std.TransCmp.lt_trans hlt (hhead e he)
      · rename_i hlt
        refine (ih hrest).cons fun e he => ?_
        rcases mem_insert he with rfl | he
        · exact compare_lt_of_ne_of_not_lt hne hlt
        · exact hhead e he

omit [Std.TransOrd κ] [Std.LawfulEqOrd κ] in
theorem Ascending.erase {es : List (κ × ν)} (h : Ascending es) (k : κ) :
    Ascending (erase k es) := by
  induction es with
  | nil => exact h
  | cons e rest ih =>
    obtain ⟨k', v'⟩ := e
    have hrest : Ascending rest := List.Pairwise.of_cons h
    rw [Entries.erase]
    split
    · exact hrest
    · exact (ih hrest).cons fun e he =>
        List.rel_of_pairwise_cons h (mem_of_mem_erase he)

omit [Std.TransOrd κ] in
theorem get?_eq_some_of_mem {es : List (κ × ν)} (h : Ascending es) {k : κ} {v : ν}
    (hm : (k, v) ∈ es) : get? k es = some v := by
  induction es with
  | nil => cases hm
  | cons e rest ih =>
    obtain ⟨k', v'⟩ := e
    rw [get?]
    rcases List.mem_cons.mp hm with he | he
    · simp_all
    · have hlt : compare k' k = .lt := List.rel_of_pairwise_cons h he
      rw [if_neg (ne_of_compare_lt hlt).symm]
      exact ih (List.Pairwise.of_cons h) he

omit [Std.TransOrd κ] in
theorem get?_erase_self {es : List (κ × ν)} (h : Ascending es) (k : κ) :
    get? k (erase k es) = none := by
  induction es with
  | nil => rfl
  | cons e rest ih =>
    obtain ⟨k', v'⟩ := e
    rw [Entries.erase]
    split
    · rename_i hk
      subst hk
      exact get?_eq_none_of_forall_ne fun e he =>
        (ne_of_compare_lt (List.rel_of_pairwise_cons h he)).symm
    · rename_i hne
      rw [get?, if_neg hne]
      exact ih (List.Pairwise.of_cons h)

/-- Ascending entry lists with equal lookups are equal. -/
theorem eq_of_get?_eq {es₁ es₂ : List (κ × ν)} (h₁ : Ascending es₁) (h₂ : Ascending es₂)
    (h : ∀ k, get? k es₁ = get? k es₂) : es₁ = es₂ := by
  induction es₁ generalizing es₂ with
  | nil =>
    cases es₂ with
    | nil => rfl
    | cons e rest => simpa [get?] using h e.1
  | cons e rest ih =>
    obtain ⟨k, v⟩ := e
    cases es₂ with
    | nil => simpa [get?] using h k
    | cons e' rest' =>
      obtain ⟨k', v'⟩ := e'
      have hk : k = k' := by
        apply Classical.byContradiction
        intro hne
        have h1 : (k, v) ∈ rest' := by
          have := mem_of_get? (by rw [← h k]; simp [get?] : get? k ((k', v') :: rest') = some v)
          rcases List.mem_cons.mp this with he | he
          · exact absurd (Prod.mk.inj he).1 hne
          · exact he
        have h2 : (k', v') ∈ rest := by
          have := mem_of_get? (by rw [h k']; simp [get?] : get? k' ((k, v) :: rest) = some v')
          rcases List.mem_cons.mp this with he | he
          · exact absurd (Prod.mk.inj he).1.symm hne
          · exact he
        have hlt1 : compare k' k = .lt := List.rel_of_pairwise_cons h₂ h1
        have hlt2 : compare k k' = .lt := List.rel_of_pairwise_cons h₁ h2
        exact ne_of_compare_lt (Std.TransCmp.lt_trans hlt1 hlt2) rfl
      subst hk
      have hv : v = v' := by simpa [get?] using h k
      subst hv
      congr 1
      refine ih (List.Pairwise.of_cons h₁) (List.Pairwise.of_cons h₂) fun j => ?_
      by_cases hj : j = k
      · subst hj
        rw [get?_eq_none_of_forall_ne fun e he =>
            (ne_of_compare_lt (List.rel_of_pairwise_cons h₁ he)).symm,
          get?_eq_none_of_forall_ne fun e he =>
            (ne_of_compare_lt (List.rel_of_pairwise_cons h₂ he)).symm]
      · simpa [get?, hj] using h j

end Ordered

end Entries

/-- A finite map; the entries are in strictly ascending key order. -/
structure Table (κ : Type u) (ν : Type v) [Ord κ] where
  entries : List (κ × ν)
  ascending : Entries.Ascending entries

namespace Table

variable {κ : Type u} {ν : Type v} [DecidableEq κ] [Ord κ]

instance [DecidableEq ν] : DecidableEq (Table κ ν) := fun s t =>
  match decEq s.entries t.entries with
  | isTrue h => isTrue (by cases s; cases t; simp_all)
  | isFalse h => isFalse fun e => h (congrArg Table.entries e)

def empty : Table κ ν := ⟨[], List.Pairwise.nil⟩

instance : Inhabited (Table κ ν) := ⟨empty⟩

def get? (t : Table κ ν) (k : κ) : Option ν := Entries.get? k t.entries

def contains (t : Table κ ν) (k : κ) : Bool := (t.get? k).isSome

def keys (t : Table κ ν) : List κ := t.entries.map Prod.fst

def values (t : Table κ ν) : List ν := t.entries.map Prod.snd

def size (t : Table κ ν) : Nat := t.entries.length

def erase (t : Table κ ν) (k : κ) : Table κ ν :=
  ⟨Entries.erase k t.entries, t.ascending.erase k⟩

def filterKeys (p : κ → Bool) (t : Table κ ν) : Table κ ν :=
  ⟨t.entries.filter fun e => p e.1, t.ascending.sublist List.filter_sublist⟩

variable [Std.TransOrd κ] [Std.LawfulEqOrd κ]

def insert (t : Table κ ν) (k : κ) (v : ν) : Table κ ν :=
  ⟨Entries.insert k v t.entries, t.ascending.insert k v⟩

/-- The table of the listed entries; of two with one key the later stands. -/
def ofList (es : List (κ × ν)) : Table κ ν :=
  es.foldl (fun t e => t.insert e.1 e.2) empty

/-- Tables that answer every key alike are equal. -/
theorem ext_get? {s t : Table κ ν} (h : ∀ k, s.get? k = t.get? k) : s = t := by
  have : s.entries = t.entries := Entries.eq_of_get?_eq s.ascending t.ascending h
  cases s
  cases t
  simp_all

omit [Std.TransOrd κ] [Std.LawfulEqOrd κ] in
@[simp]
theorem get?_empty (k : κ) : (empty : Table κ ν).get? k = none := rfl

theorem get?_insert (t : Table κ ν) (k : κ) (v : ν) (j : κ) :
    (t.insert k v).get? j = if j = k then some v else t.get? j := by
  split
  · rename_i h
    subst h
    exact Entries.get?_insert_self _ _ _
  · rename_i h
    exact Entries.get?_insert_of_ne h _ _

omit [Std.TransOrd κ] in
theorem get?_erase (t : Table κ ν) (k j : κ) :
    (t.erase k).get? j = if j = k then none else t.get? j := by
  split
  · rename_i h
    subst h
    exact Entries.get?_erase_self t.ascending _
  · rename_i h
    exact Entries.get?_erase_of_ne h _

omit [Std.TransOrd κ] [Std.LawfulEqOrd κ] in
theorem get?_filterKeys (p : κ → Bool) (t : Table κ ν) (k : κ) :
    (t.filterKeys p).get? k = if p k then t.get? k else none := Entries.get?_filter p k t.entries

omit [Std.TransOrd κ] in
theorem mem_entries_iff {t : Table κ ν} {k : κ} {v : ν} :
    (k, v) ∈ t.entries ↔ t.get? k = some v :=
  ⟨Entries.get?_eq_some_of_mem t.ascending, Entries.mem_of_get?⟩

end Table

end ContentSpaces
