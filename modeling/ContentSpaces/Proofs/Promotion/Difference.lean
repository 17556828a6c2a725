import ContentSpaces.Proofs.Promotion.Preview
import Mathlib.Data.List.Nodup
import Mathlib.Data.List.Perm.Subperm

/-!
# The difference of two collections

The rows of a difference carry the digests of the target over to those of the source, one ID each.
As every row changes what is filed under its ID, none of them can be left out.
-/

namespace ContentSpaces.Promotion

variable {kind : Kind} {source target : Hashes} {row : Row} {rs : List Row} {id : String}

def rank : Promotion → Nat
  | .add => 0
  | .update => 1
  | .delete => 2

/-- The order of rows: by operation, then by ID. -/
def Row.Before (a b : Row) : Prop :=
  a.operation.rank < b.operation.rank ∨ a.operation = b.operation ∧ a.id < b.id

/-- Carries out a row on the digests of the target; new digests are those of the source. -/
def Row.carryOut (source target : Hashes) (row : Row) : Hashes :=
  match row.operation with
  | .add | .update => (source.get? row.id).elim target (target.insert row.id)
  | .delete => target.erase row.id

/-- The rows lead from the target to the source in the fewest steps, and stand in order. -/
structure IsDifference (kind : Kind) (source target : Hashes) (rs : List Row) : Prop where
  kind_eq : ∀ row ∈ rs, row.kind = kind
  /-- Each ID occurs at most once. -/
  once : (rs.map Row.id).Nodup
  added : ∀ id, ⟨kind, id, .add⟩ ∈ rs ↔ source.contains id ∧ ¬ target.contains id
  updated : ∀ id, ⟨kind, id, .update⟩ ∈ rs ↔
    ∃ digest stale, source.get? id = some digest ∧ target.get? id = some stale ∧ digest ≠ stale
  deleted : ∀ id, ⟨kind, id, .delete⟩ ∈ rs ↔ target.contains id ∧ ¬ source.contains id
  ordered : rs.Pairwise Row.Before
  leads : rs.foldl (Row.carryOut source) target = source
  /-- No row can be left out. -/
  minimal : ∀ fewer, fewer.Sublist rs → fewer ≠ rs →
    fewer.foldl (Row.carryOut source) target ≠ source

section Order

theorem Row.Before.ne {a b : Row} (h : a.Before b) : a ≠ b := by
  rintro rfl
  obtain hrank | ⟨-, hid⟩ := h
  · exact Nat.lt_irrefl _ hrank
  · exact String.lt_irrefl _ hid

/-- Rows of one operation stand in the order of the digests they are taken from. -/
theorem pairwise_before_map (kind : Kind) (hashes : Hashes) (p : String × String → Bool)
    (operation : Promotion) :
    ((hashes.entries.filter p).map fun e => (⟨kind, e.1, operation⟩ : Row)).Pairwise Row.Before := by
  rw [List.pairwise_map]
  refine (hashes.ascending.sublist List.filter_sublist).imp fun {a b} hab => ?_
  exact .inr ⟨rfl, compareOfLessAndEq_eq_lt.mp hab⟩

theorem pairwise_before_rows (kind : Kind) (source target : Hashes) :
    (rows kind source target).Pairwise Row.Before := by
  have hbefore {es es' : List (String × String)} {operation operation' : Promotion}
      (hrank : operation.rank < operation'.rank) :
      ∀ a ∈ es.map (fun e => (⟨kind, e.1, operation⟩ : Row)),
        ∀ b ∈ es'.map (fun e => (⟨kind, e.1, operation'⟩ : Row)), a.Before b := by
    intro a ha b hb
    obtain ⟨_, -, rfl⟩ := List.mem_map.mp ha
    obtain ⟨_, -, rfl⟩ := List.mem_map.mp hb
    exact .inl hrank
  unfold rows
  extract_lets added changed gone
  refine List.pairwise_append.mpr ⟨List.pairwise_append.mpr ⟨?_, ?_, ?_⟩, ?_, ?_⟩
  · exact pairwise_before_map kind source _ .add
  · exact pairwise_before_map kind source _ .update
  · exact hbefore (by decide)
  · exact pairwise_before_map kind target _ .delete
  · intro a ha
    obtain hadded | hchanged := List.mem_append.mp ha
    · exact hbefore (by decide) a hadded
    · exact hbefore (by decide) a hchanged

end Order

section Operations

/-- Two digests call for one operation at most. -/
theorem CallsFor.unique {s t : Option String} {operation operation' : Promotion}
    (h : CallsFor s t operation) (h' : CallsFor s t operation') : operation = operation' := by
  cases operation <;> cases operation' <;> simp_all [CallsFor]

theorem nodup_ids_rows (kind : Kind) (source target : Hashes) :
    ((rows kind source target).map Row.id).Nodup := by
  have hrows : (rows kind source target).Nodup :=
    (pairwise_before_rows kind source target).imp Row.Before.ne
  refine hrows.map_on fun a ha b hb hid => ?_
  obtain ⟨hkind, hcalls⟩ := mem_rows_iff.mp ha
  obtain ⟨hkind', hcalls'⟩ := mem_rows_iff.mp hb
  rw [← hid] at hcalls'
  have hoperation := hcalls.unique hcalls'
  cases a
  cases b
  rw [Row.mk.injEq]
  exact ⟨hkind.trans hkind'.symm, hid, hoperation⟩

/-- There is a row for an ID exactly if the digests differ there. -/
theorem mem_ids_rows_iff :
    id ∈ (rows kind source target).map Row.id ↔ source.get? id ≠ target.get? id := by
  constructor
  · intro h
    obtain ⟨row, hrow, rfl⟩ := List.mem_map.mp h
    exact (mem_rows_iff.mp hrow).2.ne
  · intro h
    obtain ⟨operation, hcalls⟩ := exists_callsFor_of_ne h
    exact List.mem_map.mpr ⟨⟨kind, id, operation⟩, mem_rows_iff.mpr ⟨rfl, hcalls⟩, rfl⟩

end Operations

section Effect

/-- A row that is called for gives its ID the digest of the source, and leaves the others alone. -/
theorem get?_carryOut {stale : Option String}
    (h : CallsFor (source.get? row.id) stale row.operation) (target : Hashes) (id : String) :
    (row.carryOut source target).get? id =
      if id = row.id then source.get? id else target.get? id := by
  have hset {digest : String} (hdigest : source.get? row.id = some digest) :
      (target.insert row.id digest).get? id =
        if id = row.id then source.get? id else target.get? id := by
    rw [Table.get?_insert]
    split
    · rename_i hid
      rw [hid, hdigest]
    · rfl
  obtain ⟨kind, rowId, operation⟩ := row
  cases operation with
  | add =>
    obtain ⟨digest, hdigest⟩ := Option.isSome_iff_exists.mp h.1
    simpa only [Row.carryOut, hdigest, Option.elim_some] using hset hdigest
  | update =>
    obtain ⟨digest, _, hdigest, -⟩ := h
    simpa only [Row.carryOut, hdigest, Option.elim_some] using hset hdigest
  | delete =>
    rw [Row.carryOut, Table.get?_erase]
    split
    · rename_i hid
      rw [hid]
      exact h.1.symm
    · rfl

/-- Rows that are called for give their IDs the digests of the source, one after the other. -/
theorem get?_foldl_carryOut
    (h : ∀ row ∈ rs, ∃ stale, CallsFor (source.get? row.id) stale row.operation) (target : Hashes)
    (id : String) : (rs.foldl (Row.carryOut source) target).get? id =
      if id ∈ rs.map Row.id then source.get? id else target.get? id := by
  induction rs generalizing target with
  | nil => rfl
  | cons row rs ih =>
    obtain ⟨⟨stale, hrow⟩, hrs⟩ := List.forall_mem_cons.mp h
    rw [List.foldl_cons, ih hrs, get?_carryOut hrow, List.map_cons]
    by_cases hlater : id ∈ rs.map Row.id
    · rw [if_pos hlater, if_pos (List.mem_cons_of_mem _ hlater)]
    · rw [if_neg hlater]
      simp only [List.mem_cons, hlater, or_false]

/-- Of the rows of a difference, some lead to the source exactly if none is left out. -/
theorem foldl_carryOut_eq_iff (h : rs.Sublist (rows kind source target)) :
    rs.foldl (Row.carryOut source) target = source ↔ rs = rows kind source target := by
  have hcalled : ∀ row ∈ rs, ∃ stale, CallsFor (source.get? row.id) stale row.operation :=
    fun row hrow => ⟨_, (mem_rows_iff.mp (h.subset hrow)).2⟩
  have hget := get?_foldl_carryOut hcalled target
  constructor
  · intro hleads
    have hids : (rows kind source target).map Row.id ⊆ rs.map Row.id := by
      intro id hid
      by_contra hleft
      have hsame := hget id
      rw [if_neg hleft, hleads] at hsame
      exact mem_ids_rows_iff.mp hid hsame
    have hlength := (List.Nodup.subperm (nodup_ids_rows kind source target) hids).length_le
    rw [List.length_map, List.length_map] at hlength
    exact h.eq_of_length_le hlength
  · rintro rfl
    refine Table.ext_get? fun id => ?_
    rw [hget]
    split
    · rfl
    · rename_i hsame
      rw [mem_ids_rows_iff, not_not] at hsame
      exact hsame.symm

/-- The rows of two collections are their difference. -/
theorem isDifference_rows (kind : Kind) (source target : Hashes) :
    IsDifference kind source target (rows kind source target) where
  kind_eq _ hrow := (mem_rows_iff.mp hrow).1
  once := nodup_ids_rows kind source target
  added id := by
    rw [mem_rows_iff, and_iff_right rfl]
    simp [CallsFor, Table.contains]
  updated id := by
    rw [mem_rows_iff, and_iff_right rfl]
    rfl
  deleted id := by
    rw [mem_rows_iff, and_iff_right rfl]
    simp [CallsFor, Table.contains, and_comm]
  ordered := pairwise_before_rows kind source target
  leads := (foldl_carryOut_eq_iff (.refl _)).mpr rfl
  minimal _ hfewer hne hleads := hne ((foldl_carryOut_eq_iff hfewer).mp hleads)

example : rows .rule (.ofList [("a", "h1"), ("b", "h2"), ("d", "new")])
    (.ofList [("b", "h2"), ("c", "h3"), ("d", "old")]) =
    [⟨.rule, "a", .add⟩, ⟨.rule, "d", .update⟩, ⟨.rule, "c", .delete⟩] := by
  decide

end Effect

end ContentSpaces.Promotion
