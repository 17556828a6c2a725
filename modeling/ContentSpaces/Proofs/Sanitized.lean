import ContentSpaces.Feed.Log
import ContentSpaces.Proofs.Json.Pointer
import ContentSpaces.Proofs.Provenance
import ContentSpaces.Proofs.Synchronisation

/-!
# Content that stays sanitised

A value is clean if it has none of the fields that sanitising removes or renames. Sanitising a value
makes it clean and leaves a clean one as it is. Every write that follows a remote catalog sanitises
last, so a space that has only followed remote catalogs holds clean documents, whatever a patch puts
into place and wherever a call fails.
-/

namespace ContentSpaces

namespace Sanitize

open Json (Ordered)

variable {v : Json} {fs : Json.Fields} {key : String} {f : Json → Json}

/-- The value has none of the fields that sanitising removes or renames. -/
structure Clean (v : Json) : Prop where
  metadata : ∀ m, v.field? "metadata" = some m → ∀ key ∈ strippedMetadata, m.field? key = none
  related : ∀ w, v.field? "related" = some w → w.field? "sigma_id" = none
  entries : ∀ items, v.field? "related" = some (.array items) →
    ∀ item ∈ items, item.field? "sigma_id" = none

/-! ## Parts of a document -/

theorem field?_stripMetadata (h : v.Ordered) (hkey : key ∈ strippedMetadata) :
    (stripMetadata v).field? key = none := by
  cases v with
  | object fs =>
    have hgone := Entries.get?_eraseAll (Json.ordered_object_iff.mp h).1 strippedMetadata key
    rw [if_pos hkey] at hgone
    exact hgone
  | _ => rfl

theorem stripMetadata_eq_self (h : ∀ key ∈ strippedMetadata, v.field? key = none) :
    stripMetadata v = v := by
  cases v with
  | object fs => exact congrArg Json.object (Entries.eraseAll_eq_self h)
  | _ => rfl

theorem field?_renameTarget (h : v.Ordered) : (renameTarget v).field? "sigma_id" = none := by
  cases v with
  | object fs =>
    simp only [renameTarget]
    split
    · have hgone := Entries.get?_erase_self (Json.ordered_object_iff.mp h).1 "sigma_id"
      exact (Entries.get?_insert_of_ne (by decide) _ _).trans hgone
    · assumption
  | _ => rfl

theorem renameTarget_eq_self (h : v.field? "sigma_id" = none) : renameTarget v = v := by
  cases v with
  | object fs =>
    have hnone : Entries.get? "sigma_id" fs = none := h
    rw [renameTarget, hnone]
  | _ => rfl

theorem field?_renameTargets (h : v.Ordered) : (renameTargets v).field? "sigma_id" = none := by
  cases v with
  | array items => rfl
  | _ => exact field?_renameTarget h

theorem field?_of_mem_renameTargets (h : v.Ordered) {items : List Json}
    (hv : renameTargets v = .array items) : ∀ item ∈ items, item.field? "sigma_id" = none := by
  cases v with
  | array entries =>
    cases hv
    intro item hitem
    obtain ⟨entry, hentry, rfl⟩ := List.mem_map.mp hitem
    exact field?_renameTarget (Json.ordered_array_iff.mp h entry hentry)
  | object fs =>
    simp only [renameTargets, renameTarget] at hv
    split at hv <;> cases hv
  | _ => cases hv

theorem renameTargets_eq_self (h : v.field? "sigma_id" = none)
    (hitems : ∀ items, v = .array items → ∀ item ∈ items, item.field? "sigma_id" = none) :
    renameTargets v = v := by
  cases v with
  | array items =>
    have hsame : ∀ item ∈ items, renameTarget item = item := fun item hitem =>
      renameTarget_eq_self (hitems items rfl item hitem)
    have hmap : items.map renameTarget = items :=
      (List.map_congr_left hsame).trans (List.map_id items)
    exact congrArg Json.array hmap
  | _ => exact renameTarget_eq_self h

/-! ## Documents -/

theorem get?_mapField (key : String) (f : Json → Json) (fs : Json.Fields) (k : String) :
    Entries.get? k (mapField key f fs) =
      if k = key then (Entries.get? key fs).map f else Entries.get? k fs := by
  unfold mapField
  cases hv : Entries.get? key fs with
  | none =>
    by_cases hk : k = key
    · simp [hk, hv]
    · simp [hk]
  | some v =>
    by_cases hk : k = key
    · simp [hk, Entries.get?_insert_self]
    · simp [hk, Entries.get?_insert_of_ne]

theorem mapField_eq_self (h : Entries.Ascending fs)
    (hf : ∀ v, Entries.get? key fs = some v → f v = v) : mapField key f fs = fs := by
  unfold mapField
  split
  · rename_i v hv
    rw [hf v hv, h.insert_eq_self hv]
  · rfl

theorem field?_document_metadata (v : Json) :
    (document v).field? "metadata" = (v.field? "metadata").map stripMetadata := by
  cases v with
  | object fs =>
    show Entries.get? "metadata" (mapField _ _ _) = _
    simp [get?_mapField, Json.field?, Json.fields?]
  | _ => rfl

theorem field?_document_related (v : Json) :
    (document v).field? "related" = (v.field? "related").map renameTargets := by
  cases v with
  | object fs =>
    show Entries.get? "related" (mapField _ _ _) = _
    simp [get?_mapField, Json.field?, Json.fields?]
  | _ => rfl

theorem clean_document (h : v.Ordered) : Clean (document v) := by
  constructor
  · intro m hm key hkey
    rw [field?_document_metadata] at hm
    obtain ⟨m, hstored, rfl⟩ := Option.map_eq_some_iff.mp hm
    exact field?_stripMetadata (h.field? hstored) hkey
  · intro w hw
    rw [field?_document_related] at hw
    obtain ⟨w, hstored, rfl⟩ := Option.map_eq_some_iff.mp hw
    exact field?_renameTargets (h.field? hstored)
  · intro items hitems
    rw [field?_document_related] at hitems
    obtain ⟨w, hstored, hw⟩ := Option.map_eq_some_iff.mp hitems
    exact field?_of_mem_renameTargets (h.field? hstored) hw

theorem Clean.document_eq_self (hclean : Clean v) (h : v.Ordered) : document v = v := by
  cases v with
  | object fs =>
    have hascending := (Json.ordered_object_iff.mp h).1
    have hmetadata : mapField "metadata" stripMetadata fs = fs :=
      mapField_eq_self hascending fun m hm => stripMetadata_eq_self (hclean.metadata m hm)
    have hrelated : mapField "related" renameTargets fs = fs := by
      refine mapField_eq_self hascending fun w hw => ?_
      refine renameTargets_eq_self (hclean.related w hw) fun items hitems => ?_
      exact hclean.entries items (hitems ▸ hw)
    rw [document, hmetadata, hrelated]
  | _ => rfl

/-- What sanitising leaves as it is are the clean values. -/
theorem document_eq_self_iff (h : v.Ordered) : document v = v ↔ Clean v := by
  constructor
  · intro hsame
    exact hsame ▸ clean_document h
  · intro hclean
    exact hclean.document_eq_self h

theorem document_document (h : v.Ordered) : document (document v) = document v :=
  (clean_document h).document_eq_self (ordered_document h)

end Sanitize

/-! ## Stored documents -/

namespace Content

open Replica

variable {c c' : Content} {space : Space}

/-- The documents of the space are clean, with their keys in order. -/
def CleanIn (space : Space) (c : Content) : Prop :=
  ∀ s v, (c.catalog space).get? s = some v → v.Ordered ∧ Sanitize.Clean v

theorem CleanIn.file (h : c.CleanIn space) {r : Resource} {v : Json}
    (hr : r.document = Sanitize.document v) (hv : v.Ordered) : (c.file r).CleanIn space := by
  intro s w hw
  rw [get?_catalog, get?_file] at hw
  split at hw
  · cases hw
    rw [hr]
    exact ⟨Sanitize.ordered_document hv, Sanitize.clean_document hv⟩
  · rw [← get?_catalog] at hw
    exact h s w hw

theorem CleanIn.of_imp (h : c.CleanIn space)
    (hsub : ∀ a r, c'.get? a = some r → c.get? a = some r) : c'.CleanIn space := by
  intro s v hv
  rw [get?_catalog] at hv
  obtain ⟨r, hr, rfl⟩ := Option.map_eq_some_iff.mp hv
  refine h s r.document ?_
  rw [get?_catalog, hsub _ _ hr, Option.map_some]

theorem CleanIn.ordered (h : c.CleanIn space) {a : Address} {r : Resource} (ha : a.space = space)
    (hr : c.get? a = some r) : r.document.Ordered := by
  subst ha
  have hstored : (c.catalog a.space).get? a.subject = some r.document := by
    rw [get?_catalog]
    exact congrArg (Option.map _) hr
  exact (h _ _ hstored).1

theorem lasting_cleanIn (space : Space) : Lasting space (CleanIn space) where
  ingest h hdocument hr := by
    obtain ⟨-, rfl⟩ := Resource.create_eq_ok_iff.mp hr
    exact h.file rfl hdocument
  patch h ha hstored hops hr := by
    obtain ⟨patched, hpatched, hr⟩ := Resource.applyPatch_eq_ok_iff.mp hr
    obtain ⟨-, rfl⟩ := Resource.withDocument_eq_ok_iff.mp hr
    exact h.file rfl (Patch.ordered_applyAll hops (h.ordered ha hstored) hpatched)
  removal h hsub := h.of_imp hsub

/-- The content of a store with a space that was empty at first and has only followed remote
catalogs, by snapshots and cycles that may have failed. Meanwhile anything may have happened that
leaves the documents of the space alone. -/
inductive Received (space : Space) : Content → Prop
  | empty {c : Content} (h : c.catalog space = .empty) : Received space c
  | aside {c c' : Content} (h : Received space c) (hsame : c'.catalog space = c.catalog space) :
      Received space c'
  | bootstrap {m : Replica} (h : Received space m.store.content) {cfg : Config}
      (hspace : cfg.space = space) (remote : Remote) (url : String) (offset : Nat) :
      Received space (after (Snapshot.bootstrap cfg remote url offset) m).store.content
  | update {m : Replica} (h : Received space m.store.content) {cfg : Config}
      (hspace : cfg.space = space) {remote : Remote} (hremote : remote.Ordered)
      (lower upper : Nat) :
      Received space (after (Cycle.update cfg remote lower upper) m).store.content

theorem Received.cleanIn (h : Received space c) : c.CleanIn space := by
  induction h with
  | empty hempty =>
    intro s v hv
    rw [hempty] at hv
    cases hv
  | aside _ hsame ih =>
    intro s v hv
    exact ih s v (hsame ▸ hv)
  | bootstrap _ hspace remote url offset ih =>
    subst hspace
    exact Keeps.after (Snapshot.upholds_bootstrap (lasting_cleanIn _) remote url offset) ih
  | update _ hspace hremote lower upper ih =>
    subst hspace
    exact Keeps.after (Cycle.upholds_update (lasting_cleanIn _) hremote lower upper) ih

/-- Sanitising twice is sanitising once, and sanitising leaves the documents alone of a space that
has only followed remote catalogs. -/
theorem received_sanitized :
    (∀ v : Json, v.Ordered →
      Sanitize.document (Sanitize.document v) = Sanitize.document v) ∧
    ∀ (space : Space) (c : Content), Received space c → ∀ s v,
      (c.catalog space).get? s = some v → Sanitize.document v = v ∧ Sanitize.Clean v := by
  constructor
  · intro v hv
    exact Sanitize.document_document hv
  · intro space c hc s v hv
    obtain ⟨hordered, hclean⟩ := hc.cleanIn s v hv
    exact ⟨hclean.document_eq_self hordered, hclean⟩

section Trial

/-- A rule is created with every forbidden field, patches put them into place again in other ways,
and the last change fails. -/
def taintingChanges : List Change :=
  [.creation 1 .rule (.object [("id", .string "r"),
      ("metadata", .object [("custom_fields", .null), ("dataset", .string "d")]),
      ("related", .array [.object [("id", .string "a"), ("sigma_id", .string "s")]])]),
    .revision 2 "r" [.withValue .add "/x" (.object [("sigma_id", .string "t")]),
      .withSource .copy "/x" "/related/-", .withSource .move "/x" "/metadata/dataset"],
    .revision 3 "r" [.withSource .move "/related/1" "/related",
      .withValue .add "/related/sigma_id" (.string "u")],
    .revision 4 "gone" []]

def taintingRemote : Remote where
  consumer := .ok .empty
  changes lower upper := ⟨.ok (Feed.Log.range taintingChanges lower upper), false⟩
  snapshot _ := .error .io

theorem ordered_taintingRemote : taintingRemote.Ordered := by
  have hall : ∀ c ∈ taintingChanges, c.Ordered := by decide +kernel
  intro lower upper changes h c hc
  cases h
  exact hall c (List.mem_filter.mp hc).1

def taintedReplica : Nat → Replica
  | 0 => .of .empty .empty
  | n + 1 => after (Cycle.update Sync.trialConfig taintingRemote n (n + 1)) (taintedReplica n)

theorem received_taintedReplica : ∀ n, Received .standard (taintedReplica n).store.content
  | 0 => .empty rfl
  | n + 1 => (received_taintedReplica n).update rfl ordered_taintingRemote n (n + 1)

/-- The rule has lost its metadata, and what it is related to has come to be named by `id`. -/
def cleanedRule : Json :=
  .object [("id", .string "r"), ("metadata", .object []),
    ("related", .object [("id", .string "u")])]

theorem tainted_sanitized :
    (∀ c ∈ taintingChanges, c.Ordered) ∧ Received .standard (taintedReplica 4).store.content ∧
    ∃ v, ((taintedReplica 4).store.content.catalog .standard).get? ⟨.rule, "r"⟩ = some v ∧
      v.equal cleanedRule = true ∧ v.Ordered ∧
      Sanitize.document (Sanitize.document v) = Sanitize.document v ∧
      Sanitize.document v = v ∧ Sanitize.Clean v := by
  have hchanges : ∀ c ∈ taintingChanges, c.Ordered := by decide +kernel
  have hends : (((taintedReplica 4).store.content.catalog .standard).get? ⟨.rule, "r"⟩).any
      (fun v => v.equal cleanedRule && decide v.Ordered) = true := by decide +kernel
  obtain ⟨v, hstored, htest⟩ := (Option.any_eq_true ..).mp hends
  obtain ⟨hequal, hordered⟩ := Bool.and_eq_true_iff.mp htest
  have hordered := of_decide_eq_true hordered
  refine ⟨hchanges, received_taintedReplica 4, v, hstored, hequal, hordered, ?_⟩
  constructor
  · exact received_sanitized.1 v hordered
  · exact received_sanitized.2 .standard _ (received_taintedReplica 4) _ v hstored

end Trial

end Content

end ContentSpaces
