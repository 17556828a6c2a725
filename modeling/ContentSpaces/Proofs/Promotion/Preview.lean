import ContentSpaces.Proofs.Promotion.Outcome

/-!
# What a preview lists

A row of a collection is listed for an ID exactly if the digests of source and target differ there,
and says by what operation they come to agree.
-/

namespace ContentSpaces

section Json

theorem Number.equal_refl (n : Number) : n.equal n := by
  cases n with
  | integer m => exact beq_self_eq_true m
  | double x =>
    rw [equal, Double.equal, beq_self_eq_true, Bool.true_or]

mutual

theorem Json.equal_refl : ∀ v : Json, v.equal v
  | .null => rfl
  | .bool b => beq_self_eq_true b
  | .number n => n.equal_refl
  | .string s => beq_self_eq_true s
  | .array xs => Json.equalItems_refl xs
  | .object fs => Json.equalFields_refl fs

theorem Json.equalItems_refl : ∀ xs : List Json, Json.equalItems xs xs
  | [] => rfl
  | x :: xs => by
    rw [Json.equalItems, Json.equal_refl x, Json.equalItems_refl xs]
    rfl

theorem Json.equalFields_refl : ∀ fs : Json.Fields, Json.equalFields fs fs
  | [] => rfl
  | (k, x) :: fs => by
    rw [Json.equalFields, beq_self_eq_true, Json.equal_refl x, Json.equalFields_refl fs]
    rfl

end

end Json

namespace Content

variable {c : Content} {kind : Kind} {space : Space} {id : String}

def hashesOf (c : Content) (kind : Kind) (space : Space) : Hashes :=
  Table.ofList ((c.collection kind space).map fun r => (r.id, r.hash))

theorem Filed.get?_hashesOf (hc : c.Filed) (kind : Kind) (space : Space) (id : String) :
    (c.hashesOf kind space).get? id = (c.get? ⟨kind, space, id⟩).map Resource.hash := by
  have hlisted (e : String × String) : e ∈ (c.collection kind space).map (fun r => (r.id, r.hash)) ↔
      (c.get? ⟨kind, space, e.1⟩).map Resource.hash = some e.2 := by
    rw [List.mem_map, Option.map_eq_some_iff]
    constructor
    · rintro ⟨r, hr, rfl⟩
      obtain ⟨id', hid'⟩ := mem_collection_iff.mp hr
      have hid : r.id = id' := congrArg Address.id (hc _ _ hid')
      exact ⟨r, hid ▸ hid', rfl⟩
    · rintro ⟨r, hr, hhash⟩
      have hid : r.id = e.1 := congrArg Address.id (hc _ _ hr)
      exact ⟨r, mem_collection_iff.mpr ⟨e.1, hr⟩, Prod.ext hid hhash⟩
  rw [hashesOf, Table.get?_ofList]
  cases hfound : ((c.collection kind space).map fun r => (r.id, r.hash)).reverse.find?
      (fun e => e.1 = id) with
  | some e =>
    have hid : e.1 = id := by simpa using List.find?_some hfound
    have hmem := (hlisted e).mp (List.mem_reverse.mp (List.mem_of_find?_eq_some hfound))
    rw [hid] at hmem
    exact hmem.symm
  | none =>
    cases hr : c.get? ⟨kind, space, id⟩ with
    | none => rfl
    | some r =>
      have hmem := (hlisted (id, r.hash)).mpr (by rw [hr]; rfl)
      have hnot := List.find?_eq_none.mp hfound _ (List.mem_reverse.mpr hmem)
      simp at hnot

end Content

theorem Store.reads_hashesOf (kind : Kind) (space : Space) :
    Reads (hashesOf kind space) (·.hashesOf kind space) :=
  (reads_search kind space).bind fun rs =>
    .pure (Table.ofList (rs.map fun r : Resource => (r.id, r.hash)))

namespace Promotion

variable {c : Content} {source target : Space} {kind : Kind} {row : Row}

section Rows

def CallsFor (source target : Option String) : Promotion → Prop
  | .add => source.isSome ∧ target = none
  | .update => ∃ digest stale, source = some digest ∧ target = some stale ∧ digest ≠ stale
  | .delete => source = none ∧ target.isSome

theorem exists_callsFor_of_ne {s t : Option String} (h : s ≠ t) : ∃ operation, CallsFor s t operation := by
  cases s with
  | none =>
    refine ⟨.delete, rfl, ?_⟩
    cases t with
    | none => exact absurd rfl h
    | some stale => rfl
  | some digest =>
    cases t with
    | none => exact ⟨.add, rfl, rfl⟩
    | some stale =>
      refine ⟨.update, digest, stale, rfl, rfl, ?_⟩
      rintro rfl
      exact h rfl

theorem CallsFor.ne {s t : Option String} {operation : Promotion} (h : CallsFor s t operation) :
    s ≠ t := by
  rintro rfl
  cases operation with
  | add =>
    obtain ⟨hsome, rfl⟩ := h
    cases hsome
  | update =>
    obtain ⟨digest, stale, rfl, hstale, hne⟩ := h
    exact hne (Option.some.inj hstale)
  | delete =>
    obtain ⟨rfl, hsome⟩ := h
    cases hsome

theorem mem_rows_iff {s t : Hashes} : row ∈ rows kind s t ↔
    row.kind = kind ∧ CallsFor (s.get? row.id) (t.get? row.id) row.operation := by
  obtain ⟨kind', id, operation⟩ := row
  have hlisted (es : List (String × String)) (p : String × String → Bool) (op : Promotion) :
      (⟨kind', id, operation⟩ : Row) ∈ (es.filter p).map (fun e => (⟨kind, e.1, op⟩ : Row)) ↔
        kind' = kind ∧ operation = op ∧ ∃ digest, (id, digest) ∈ es ∧ p (id, digest) := by
    simp only [List.mem_map, List.mem_filter, Row.mk.injEq, Prod.exists]
    constructor
    · rintro ⟨id', digest, h, rfl, rfl, rfl⟩
      exact ⟨rfl, rfl, digest, h⟩
    · rintro ⟨rfl, rfl, digest, h⟩
      exact ⟨id, digest, h, rfl, rfl, rfl⟩
  simp only [rows, List.mem_append, hlisted, Table.mem_entries_iff, Table.contains]
  cases operation with
  | add => cases s.get? id <;> simp [CallsFor]
  | update => cases s.get? id <;> cases t.get? id <;> simp [CallsFor, ne_comm]
  | delete => cases t.get? id <;> simp [CallsFor]

end Rows

section Preview

open Desk

def policyRowsAt (c : Content) (source target : Space) : List Row :=
  match c.policy? source with
  | none => []
  | some policy =>
    match c.policy? target with
    | none => [⟨.policy, policy.id, .update⟩]
    | some old =>
      if (policyBody old.document).equal (policyBody policy.document) then []
      else [⟨.policy, policy.id, .update⟩]

def rowsAt (c : Content) (source target : Space) (kind : Kind) : List Row :=
  if kind = .policy then policyRowsAt c source target
  else rows kind (c.hashesOf kind source) (c.hashesOf kind target)

theorem reads_policyRows (source target : Space) :
    Store.Reads (policyRows source target) (policyRowsAt · source target) := by
  refine Store.Reads.congr (Store.Reads.bind (g := fun policy c => match policy with
    | none => []
    | some policy =>
      match c.policy? target with
      | none => [⟨.policy, policy.id, .update⟩]
      | some old =>
        if (policyBody old.document).equal (policyBody policy.document) then []
        else [⟨.policy, policy.id, .update⟩]) (Store.reads_policy? source) fun policy => ?_)
    fun c => rfl
  cases policy with
  | none => exact .pure []
  | some policy =>
    refine Store.Reads.congr (Store.Reads.bind (g := fun old _ => match old with
      | none => [⟨.policy, policy.id, .update⟩]
      | some old =>
        if (policyBody old.document).equal (policyBody policy.document) then []
        else [⟨.policy, policy.id, .update⟩]) (Store.reads_policy? target) fun old => ?_)
      fun c => rfl
    cases old with
    | none => exact .pure _
    | some old =>
      dsimp only
      split
      · exact .pure _
      · exact .pure _

theorem reads_rowsOf (source target : Space) (kind : Kind) :
    Store.Reads (rowsOf source target kind) (rowsAt · source target kind) := by
  unfold rowsOf rowsAt
  split
  · exact reads_policyRows source target
  · exact (Store.reads_hashesOf kind source).bind fun s =>
      (Store.reads_hashesOf kind target).bind fun t => .pure (rows kind s t)

theorem answers_rowsOf (source target : Space) (kind : Kind) :
    Store.Answers (rowsOf source target kind) := by
  unfold rowsOf
  split
  · refine (Store.answers_policy? source).bind fun policy => ?_
    cases policy with
    | none => exact .pure []
    | some policy =>
      refine (Store.answers_policy? target).bind fun old => ?_
      cases old with
      | none => exact .pure _
      | some old =>
        dsimp only
        split
        · exact .pure _
        · exact .pure _
  · exact Store.Answers.bind (Store.Answers.bind (.call _ _) fun _ => .pure _) fun _ =>
      Store.Answers.bind (Store.Answers.bind (.call _ _) fun _ => .pure _) fun _ => .pure _

def previewAt (c : Content) (source target : Space) : Preview :=
  Kind.promotable.map fun kind => (kind, rowsAt c source target kind)

theorem ensures_preview {w : Worktop} (hpromotes : source.target? = some target) :
    Ensures (At w) (preview source)
      (fun p d => p = previewAt w.content source target ∧ At w d) (fun _ _ => False) := by
  have hrows (kind : Kind) : Ensures (At w)
      (do return (kind, ← onStore (rowsOf source target kind)))
      (fun r d => (True ∧ some (kind, rowsAt w.content source target kind) = some r) ∧ At w d)
      (fun _ d => ¬ True ∧ At w d) := by
    refine Ensures.bind (ensures_onStore_of_reads (reads_rowsOf source target kind)
      (answers_rowsOf source target kind)) fun rows => .of_and fun hrows => .pure fun d hd => ?_
    rw [hrows]
    exact ⟨⟨trivial, rfl⟩, hd⟩
  unfold preview requireTarget
  rw [hpromotes]
  refine Ensures.bind (.pure (Q := fun t d => t = target ∧ At w d) fun d hd => ⟨rfl, hd⟩)
    fun _ => .of_and ?_
  rintro rfl
  refine (Ensures.mapM_filterMap fun kind _ => hrows kind).mono (fun _ hd => hd) ?_ ?_
  · rintro p d ⟨⟨-, rfl⟩, hd⟩
    exact ⟨List.filterMap_eq_map ▸ rfl, hd⟩
  · rintro _ d ⟨hnot, -⟩
    exact hnot fun _ _ => trivial

end Preview

section Request

abbrev previewed (c : Content) (source target : Space) : Request :=
  .ofPreview source (previewAt c source target)

def Row.item (row : Row) : Item := ⟨row.operation, row.id⟩

theorem Changes.of_push (changes : Changes) (kind' : Kind) (item : Item) (hkind : kind ≠ .ioc) :
    (changes.push kind' item).of kind =
      if kind' = kind then changes.of kind ++ [item] else changes.of kind := by
  cases kind <;> cases kind' <;> first | rfl | exact absurd rfl hkind

theorem Changes.of_foldl_push (rows : List Row) (changes : Changes) (hkind : kind ≠ .ioc) :
    (rows.foldl (fun changes row => changes.push row.kind ⟨row.operation, row.id⟩) changes).of kind =
      changes.of kind ++ (rows.filter (·.kind = kind)).map Row.item := by
  induction rows generalizing changes with
  | nil => exact (List.append_nil _).symm
  | cons row rows ih =>
    rw [List.foldl_cons, ih, Changes.of_push _ _ _ hkind, List.filter_cons]
    by_cases hrow : row.kind = kind
    · simp [hrow, Row.item]
    · simp [hrow]

/-- At most the first policy of the source is listed, and only to be updated. -/
theorem eq_of_mem_policyRowsAt (h : row ∈ policyRowsAt c source target) :
    ∃ policy, c.policy? source = some policy ∧ row = ⟨.policy, policy.id, .update⟩ := by
  unfold policyRowsAt at h
  split at h
  · cases h
  · rename_i policy hpolicy
    refine ⟨policy, hpolicy, ?_⟩
    split at h
    · exact List.mem_singleton.mp h
    · split at h
      · cases h
      · exact List.mem_singleton.mp h

theorem kind_of_mem_rowsAt (h : row ∈ rowsAt c source target kind) : row.kind = kind := by
  unfold rowsAt at h
  split at h
  · rename_i hpolicy
    obtain ⟨policy, -, rfl⟩ := eq_of_mem_policyRowsAt h
    exact hpolicy.symm
  · exact (mem_rows_iff.mp h).1

/-- The items of a kind are the rows of the kind. -/
theorem of_previewed (hkind : kind ∈ Kind.promotable) :
    (previewed c source target).changes.of kind =
      (rowsAt c source target kind).map Row.item := by
  have hioc : kind ≠ .ioc := by
    rintro rfl
    exact absurd hkind (by decide)
  have hrows : ((previewAt c source target).flatMap Prod.snd).filter (·.kind = kind) =
      rowsAt c source target kind := by
    rw [previewAt, List.flatMap_map, List.filter_flatMap,
      flatMap_eq_of_forall_ne (by decide) hkind]
    · refine List.filter_eq_self.mpr fun row hrow => ?_
      simpa using kind_of_mem_rowsAt hrow
    · intro kind' _ hne
      refine List.filter_eq_nil_iff.mpr fun row hrow => ?_
      rw [kind_of_mem_rowsAt hrow]
      simpa using hne
  rw [previewed, Request.ofPreview, Changes.of_foldl_push _ _ hioc, hrows]
  cases kind <;> rfl

theorem policy_previewed (c : Content) (source target : Space) :
    (previewed c source target).changes.policy = (policyRowsAt c source target).map Row.item := by
  have hpolicy : Kind.policy ∈ Kind.promotable := by decide
  exact of_previewed hpolicy

end Request

end Promotion

end ContentSpaces
