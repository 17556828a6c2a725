import ContentSpaces.Table

/-!
# Tables made from tables and lists
-/

namespace ContentSpaces

namespace Entries

variable {κ ν : Type} [DecidableEq κ] [Ord κ] [Std.TransOrd κ] [Std.LawfulEqOrd κ]

/-- A new key adds an entry, a key that is there keeps their number. -/
theorem length_insert {es : List (κ × ν)} (h : Ascending es) (k : κ) (v : ν) :
    (insert k v es).length = if (get? k es).isSome then es.length else es.length + 1 := by
  induction es with
  | nil => rfl
  | cons e rest ih =>
    obtain ⟨k', v'⟩ := e
    rw [insert, get?]
    by_cases hk : k = k'
    · simp [hk]
    · by_cases hlt : compare k k' = .lt
      · have habsent : get? k rest = none := by
          refine get?_eq_none_of_forall_ne fun e he => ?_
          have hlater : compare k' e.1 = .lt := List.rel_of_pairwise_cons h he
          exact (ne_of_compare_lt (Std.TransCmp.lt_trans hlt hlater)).symm
        simp [hk, hlt, habsent]
      · have hrest := ih (List.Pairwise.of_cons h)
        rw [if_neg hk, if_neg hlt, if_neg hk, List.length_cons, hrest]
        split <;> simp

section Erase

variable {keys : List κ} {es : List (κ × ν)}

omit [Ord κ] [Std.TransOrd κ] [Std.LawfulEqOrd κ] in
theorem erase_eq_self {k : κ} (h : get? k es = none) : erase k es = es := by
  induction es with
  | nil => rfl
  | cons e rest ih =>
    by_cases hk : k = e.1
    · simp [get?, hk] at h
    · rw [get?, if_neg hk] at h
      rw [erase, if_neg hk, ih h]

omit [Ord κ] [Std.TransOrd κ] [Std.LawfulEqOrd κ] in
theorem eraseAll_eq_self (h : ∀ k ∈ keys, get? k es = none) :
    keys.foldl (fun es k => erase k es) es = es := by
  induction keys with
  | nil => rfl
  | cons k keys ih =>
    obtain ⟨hk, hkeys⟩ := List.forall_mem_cons.mp h
    rw [List.foldl_cons, erase_eq_self hk, ih hkeys]

omit [Std.TransOrd κ] in
theorem get?_eraseAll (h : Ascending es) (keys : List κ) (k : κ) :
    get? k (keys.foldl (fun es k => erase k es) es) = if k ∈ keys then none else get? k es := by
  induction keys generalizing es with
  | nil => simp
  | cons key keys ih =>
    rw [List.foldl_cons, ih (h.erase key)]
    by_cases hk : k = key
    · simp [hk, get?_erase_self h]
    · simp [hk, get?_erase_of_ne hk]

end Erase

end Entries

namespace Table

variable {κ ν μ : Type} [DecidableEq κ] [Ord κ] [Std.TransOrd κ] [Std.LawfulEqOrd κ]

omit [DecidableEq κ] [Std.TransOrd κ] [Std.LawfulEqOrd κ] in
def mapValues (f : ν → μ) (t : Table κ ν) : Table κ μ where
  entries := t.entries.map fun e => (e.1, f e.2)
  ascending := by
    refine List.pairwise_map.mpr (List.Pairwise.imp ?_ t.ascending)
    exact fun h => h

omit [Std.TransOrd κ] [Std.LawfulEqOrd κ] in
theorem get?_mapValues (f : ν → μ) (t : Table κ ν) (k : κ) :
    (t.mapValues f).get? k = (t.get? k).map f := by
  show Entries.get? k (t.entries.map fun e => (e.1, f e.2)) = (Entries.get? k t.entries).map f
  induction t.entries with
  | nil => rfl
  | cons e es ih =>
    simp only [List.map_cons, Entries.get?]
    split
    · rfl
    · exact ih

/-- Of the items that are put under a key the last stands, in front of what was there. -/
theorem get?_foldl_insert {α : Type} (key : α → κ) (value : α → ν) (as : List α) (t : Table κ ν)
    (k : κ) : (as.foldl (fun t a => t.insert (key a) (value a)) t).get? k =
      ((as.reverse.find? fun a => key a = k).map value).or (t.get? k) := by
  rw [← List.foldr_reverse]
  induction as.reverse with
  | nil => rfl
  | cons a as ih =>
    rw [List.foldr_cons, get?_insert, List.find?_cons]
    by_cases hk : k = key a
    · simp [hk]
    · have hne : decide (key a = k) = false := decide_eq_false fun h => hk h.symm
      rw [if_neg hk, hne, ih]

/-- Of the listed entries with a key the last stands. -/
theorem get?_ofList (es : List (κ × ν)) (k : κ) :
    (ofList es).get? k = (es.reverse.find? fun e => e.1 = k).map Prod.snd := by
  rw [ofList, get?_foldl_insert, get?_empty, Option.or_none]

section Values

variable {t : Table κ ν} {key : ν → κ}

omit [Std.TransOrd κ] in
/-- Where every value tells its key, the values are those found under their own keys. -/
theorem mem_values_iff (hkey : ∀ k v, t.get? k = some v → key v = k) {v : ν} :
    v ∈ t.values ↔ t.get? (key v) = some v := by
  unfold values
  rw [List.mem_map]
  constructor
  · rintro ⟨⟨k, v⟩, he, rfl⟩
    have hstored := mem_entries_iff.mp he
    exact hkey k v hstored ▸ hstored
  · intro h
    exact ⟨(key v, v), mem_entries_iff.mpr h, rfl⟩

omit [Std.TransOrd κ] in
theorem find?_values (hkey : ∀ k v, t.get? k = some v → key v = k) (k : κ) :
    (t.values.reverse.find? fun v => key v = k) = t.get? k := by
  cases hfound : t.values.reverse.find? fun v => key v = k with
  | some v =>
    have hmem := List.mem_reverse.mp (List.mem_of_find?_eq_some hfound)
    have hk : key v = k := by simpa using List.find?_some hfound
    rw [← hk, (mem_values_iff hkey).mp hmem]
  | none =>
    cases hstored : t.get? k with
    | none => rfl
    | some v =>
      have hk := hkey k v hstored
      have hmem : v ∈ t.values := (mem_values_iff hkey).mpr (hk ▸ hstored)
      have hnot := List.find?_eq_none.mp hfound v (List.mem_reverse.mpr hmem)
      simp [hk] at hnot

end Values

theorem size_insert (t : Table κ ν) (k : κ) (v : ν) :
    (t.insert k v).size = if (t.get? k).isSome then t.size else t.size + 1 :=
  Entries.length_insert t.ascending k v

end Table

end ContentSpaces
