import ContentSpaces.Aggregate
import ContentSpaces.Proofs.Table
import Mathlib.Logic.Relation

/-!
# What may happen to stored content

The content of a store changes one write at a time. A follower of a remote catalog edits its own
space, and looks after the containers of all spaces. An invariant of the content is therefore
proved once, for each kind of write.
-/

namespace ContentSpaces

theorem stringField_id_of_checkDocument {document : Json} (h : checkDocument document = .ok ()) :
    document.stringField? "id" = some (documentId document) := by
  unfold documentId
  cases hid : document.stringField? "id" with
  | some id => rfl
  | none =>
    exfalso
    unfold checkDocument at h
    split at h
    · simp [documentId, hid] at h
    · cases h

/-- The document can be stored and the digest is the one of the document. -/
structure Resource.Intact (r : Resource) : Prop where
  document : checkDocument r.document = .ok ()
  hash : r.hash = Digest.ofDocument r.document

namespace Resource

variable {kind : Kind} {space : Space} {document : Json} {r r' : Resource}

def Ingested (r : Resource) (space : Space) : Prop :=
  ∃ kind document, ingest kind space document = .ok r

theorem create_eq_ok_iff : create kind space document = .ok r ↔
    checkDocument document = .ok () ∧
      r = ⟨kind, document, space, none, Digest.ofDocument document⟩ := by
  unfold create
  cases checkDocument document with
  | error e => simp [bind, Except.bind]
  | ok u => simp [bind, Except.bind, eq_comm]

theorem withDocument_eq_ok_iff : r.withDocument document = .ok r' ↔
    checkDocument document = .ok () ∧
      r' = { r with document := document, hash := Digest.ofDocument document } := by
  unfold withDocument
  cases checkDocument document with
  | error e => simp [bind, Except.bind]
  | ok u => simp [bind, Except.bind, eq_comm]

theorem applyPatch_eq_ok_iff {ops : List Patch.Operation} : r.applyPatch ops = .ok r' ↔
    ∃ patched, Patch.applyAll r.document ops = .ok patched ∧
      r.withDocument (Sanitize.document patched) = .ok r' := by
  unfold applyPatch
  cases Patch.applyAll r.document ops <;> simp

theorem Ingested.space_eq (h : r.Ingested space) : r.space = space := by
  obtain ⟨kind, document, h⟩ := h
  obtain ⟨-, rfl⟩ := create_eq_ok_iff.mp h
  rfl

theorem create_intact (h : create kind space document = .ok r) : r.Intact := by
  obtain ⟨hdocument, rfl⟩ := create_eq_ok_iff.mp h
  exact ⟨hdocument, rfl⟩

theorem applyPatch_intact {ops : List Patch.Operation} (h : r.applyPatch ops = .ok r') :
    r'.Intact := by
  obtain ⟨_, _, h⟩ := applyPatch_eq_ok_iff.mp h
  obtain ⟨hdocument, rfl⟩ := withDocument_eq_ok_iff.mp h
  exact ⟨hdocument, rfl⟩

theorem address_applyPatch {ops : List Patch.Operation} (h : r.applyPatch ops = .ok r') :
    r'.address = ⟨r.kind, r.space, r'.id⟩ := by
  obtain ⟨patched, -, hr'⟩ := applyPatch_eq_ok_iff.mp h
  obtain ⟨-, rfl⟩ := withDocument_eq_ok_iff.mp hr'
  rfl

theorem Intact.withAggregate (h : r.Intact) (digest : String) : (r.withAggregate digest).Intact :=
  ⟨h.document, h.hash⟩

theorem Intact.stringField_id (h : r.Intact) : r.document.stringField? "id" = some r.id :=
  stringField_id_of_checkDocument h.document

end Resource

namespace Content

variable {c c' : Content}

theorem get?_file (c : Content) (r : Resource) (a : Address) :
    (c.file r).get? a = if a = r.address then some r else c.get? a := Table.get?_insert ..

theorem get?_withoutCollection (c : Content) (kind : Kind) (space : Space) (a : Address) :
    (c.withoutCollection kind space).get? a =
      if a.kind = kind ∧ a.space = space then none else c.get? a := by
  unfold withoutCollection
  rw [Table.get?_filterKeys]
  by_cases h : a.kind = kind ∧ a.space = space <;> simp [h]

theorem mem_collection_iff {kind : Kind} {space : Space} {r : Resource} :
    r ∈ c.collection kind space ↔ ∃ id, c.get? ⟨kind, space, id⟩ = some r := by
  unfold collection Table.values
  rw [List.mem_map]
  constructor
  · rintro ⟨⟨⟨k, s, id⟩, r⟩, he, rfl⟩
    have h := Table.mem_entries_iff.mp he
    rw [Table.get?_filterKeys] at h
    by_cases hks : k = kind ∧ s = space
    · obtain ⟨rfl, rfl⟩ := hks
      exact ⟨id, by simpa using h⟩
    · simp [hks] at h
  · rintro ⟨id, h⟩
    refine ⟨(⟨kind, space, id⟩, r), Table.mem_entries_iff.mpr ?_, rfl⟩
    rw [Table.get?_filterKeys]
    simpa using h

/-- Every resource stands under its own address. -/
def Filed (c : Content) : Prop := ∀ a r, c.get? a = some r → r.address = a

def Intact (c : Content) : Prop := ∀ a r, c.get? a = some r → r.Intact

theorem Filed.empty : Filed .empty := fun _ _ h => nomatch h

theorem Intact.empty : Intact .empty := fun _ _ h => nomatch h

theorem Filed.file (h : c.Filed) (r : Resource) : (c.file r).Filed := by
  intro a r' hr'
  rw [get?_file] at hr'
  split at hr'
  · rename_i ha
    cases hr'
    exact ha.symm
  · exact h a r' hr'

theorem Filed.fileAll (h : c.Filed) (rs : List Resource) : (c.fileAll rs).Filed := by
  induction rs generalizing c with
  | nil => exact h
  | cons r rs ih => exact ih (h.file r)

theorem Intact.file (h : c.Intact) {r : Resource} (hr : r.Intact) : (c.file r).Intact := by
  intro a r' hr'
  rw [get?_file] at hr'
  split at hr'
  · cases hr'
    exact hr
  · exact h a r' hr'

inductive Edit (space : Space) (c : Content) : Content → Prop
  | ingest {kind : Kind} {document : Json} {r : Resource}
      (h : Resource.ingest kind space document = .ok r) : Edit space c (c.file r)
  | patch {a : Address} {r r' : Resource} {ops : List Patch.Operation}
      (hstored : c.get? a = some r) (hspace : a.space = space)
      (h : r.applyPatch ops = .ok r') : Edit space c (c.file r')
  | erase (kind : Kind) (id : String) : Edit space c (c.erase ⟨kind, space, id⟩)
  | clear (kind : Kind) : Edit space c (c.withoutCollection kind space)

/-- A write with which the containers of all spaces are looked after. -/
inductive Upkeep (c : Content) : Content → Prop
  | policy {space : Space} {r : Resource} (hspace : space ∈ Space.ofUsers)
      (hnone : c.collection .policy space = [])
      (h : Resource.create .policy space Store.defaultPolicyDocument = .ok r) :
      Upkeep c (c.file (r.withAggregate r.hash))
  | aggregate {a : Address} {r : Resource} (hstored : c.get? a = some r) (digest : String) :
      Upkeep c (c.file (r.withAggregate digest))

abbrev Edits (space : Space) : Content → Content → Prop := Relation.ReflTransGen (Edit space)

abbrev Upkeeps : Content → Content → Prop := Relation.ReflTransGen Upkeep

theorem forall_get?_of_imp {p : Address → Resource → Prop} (h : ∀ a r, c.get? a = some r → p a r)
    (hsub : ∀ a r, c'.get? a = some r → c.get? a = some r) : ∀ a r, c'.get? a = some r → p a r :=
  fun a r hr => h a r (hsub a r hr)

theorem get?_of_get?_erase {a b : Address} {r : Resource} (h : (c.erase a).get? b = some r) :
    c.get? b = some r := by
  rw [Table.get?_erase] at h
  split at h
  · cases h
  · exact h

theorem get?_of_get?_withoutCollection {kind : Kind} {space : Space} {a : Address} {r : Resource}
    (h : (c.withoutCollection kind space).get? a = some r) : c.get? a = some r := by
  rw [get?_withoutCollection] at h
  split at h
  · cases h
  · exact h

theorem Edit.filed {space : Space} (h : Edit space c c') (hc : c.Filed) : c'.Filed := by
  cases h with
  | ingest _ => exact hc.file _
  | patch _ _ _ => exact hc.file _
  | erase kind id => exact forall_get?_of_imp hc fun _ _ => get?_of_get?_erase
  | clear kind => exact forall_get?_of_imp hc fun _ _ => get?_of_get?_withoutCollection

theorem Edit.intact {space : Space} (h : Edit space c c') (hc : c.Intact) : c'.Intact := by
  cases h with
  | ingest h => exact hc.file (Resource.create_intact h)
  | patch _ _ h => exact hc.file (Resource.applyPatch_intact h)
  | erase kind id => exact forall_get?_of_imp hc fun _ _ => get?_of_get?_erase
  | clear kind => exact forall_get?_of_imp hc fun _ _ => get?_of_get?_withoutCollection

theorem Upkeep.filed (h : Upkeep c c') (hc : c.Filed) : c'.Filed := by
  cases h with
  | policy _ _ _ => exact hc.file _
  | aggregate _ _ => exact hc.file _

theorem Upkeep.intact (h : Upkeep c c') (hc : c.Intact) : c'.Intact := by
  cases h with
  | policy _ _ h => exact hc.file ((Resource.create_intact h).withAggregate _)
  | aggregate h _ => exact hc.file ((hc _ _ h).withAggregate _)

theorem Upkeep.isSome (h : Upkeep c c') {a : Address} (ha : (c.get? a).isSome) :
    (c'.get? a).isSome := by
  cases h with
  | policy _ _ _ =>
    rw [get?_file]
    split
    · rfl
    · exact ha
  | aggregate _ _ =>
    rw [get?_file]
    split
    · rfl
    · exact ha

section Collection

variable {β : Type} {f : Resource → β} {kind : Kind} {space : Space}

/-- What is read off the resources of a collection depends on what is read off each of them. -/
theorem collection_map_congr (h : ∀ id, (c'.get? ⟨kind, space, id⟩).map f =
    (c.get? ⟨kind, space, id⟩).map f) :
    (c'.collection kind space).map f = (c.collection kind space).map f := by
  have hmapped (c : Content) : (c.collection kind space).map f =
      ((c.filterKeys fun a => a.kind == kind && a.space == space).mapValues f).values := by
    simp only [collection, Table.values, Table.mapValues, List.map_map]
    rfl
  rw [hmapped, hmapped]
  refine congrArg Table.values (Table.ext_get? fun a => ?_)
  rw [Table.get?_mapValues, Table.get?_mapValues, Table.get?_filterKeys, Table.get?_filterKeys]
  by_cases ha : a.kind = kind ∧ a.space = space
  · obtain ⟨rfl, rfl⟩ := ha
    simpa using h a.id
  · simp [ha]

theorem collection_eq_singleton {r : Resource} {id : String}
    (h : ∀ id', c.get? ⟨kind, space, id'⟩ = if id' = id then some r else none) :
    c.collection kind space = [r] := by
  have halone : (c.filterKeys fun a => a.kind == kind && a.space == space) =
      Table.empty.insert ⟨kind, space, id⟩ r := by
    refine Table.ext_get? fun a => ?_
    rw [Table.get?_filterKeys, Table.get?_insert, Table.get?_empty]
    obtain ⟨kind', space', id'⟩ := a
    by_cases ha : kind' = kind ∧ space' = space
    · obtain ⟨rfl, rfl⟩ := ha
      simpa using h id'
    · have hne : ¬ (⟨kind', space', id'⟩ : Address) = ⟨kind, space, id⟩ := by
        rintro ⟨⟩
        exact ha ⟨rfl, rfl⟩
      simp [ha, hne]
  rw [collection, halone]
  rfl

def policy? (c : Content) (space : Space) : Option Resource := (c.collection .policy space).head?

theorem policy?_map_congr {β : Type} {f : Resource → β} {space : Space}
    (h : ∀ id, (c'.get? ⟨.policy, space, id⟩).map f = (c.get? ⟨.policy, space, id⟩).map f) :
    (c'.policy? space).map f = (c.policy? space).map f := by
  unfold policy?
  rw [← List.head?_map, ← List.head?_map, collection_map_congr h]

theorem policy?_congr {space : Space}
    (h : ∀ id, c'.get? ⟨.policy, space, id⟩ = c.get? ⟨.policy, space, id⟩) :
    c'.policy? space = c.policy? space := by
  have hmapped := policy?_map_congr (f := fun r => r) fun id => congrArg (Option.map _) (h id)
  simpa using hmapped

theorem Filed.get?_of_policy? (hc : c.Filed) {space : Space} {p : Resource}
    (h : c.policy? space = some p) : c.get? ⟨.policy, space, p.id⟩ = some p := by
  obtain ⟨id, hid⟩ := mem_collection_iff.mp (List.mem_of_mem_head? h)
  have hp : p.id = id := congrArg Address.id (hc _ _ hid)
  rwa [hp]

end Collection

theorem collection_ne_nil_iff {kind : Kind} {space : Space} :
    c.collection kind space ≠ [] ↔ ∃ id, (c.get? ⟨kind, space, id⟩).isSome := by
  constructor
  · intro h
    obtain ⟨r, hr⟩ := List.exists_mem_of_ne_nil _ h
    obtain ⟨id, hid⟩ := mem_collection_iff.mp hr
    exact ⟨id, by rw [hid]; rfl⟩
  · rintro ⟨id, hid⟩
    obtain ⟨r, hr⟩ := Option.isSome_iff_exists.mp hid
    exact List.ne_nil_of_mem (mem_collection_iff.mpr ⟨id, hr⟩)

theorem collection_file_ne_nil (c : Content) (r : Resource) :
    (c.file r).collection r.kind r.space ≠ [] := by
  refine collection_ne_nil_iff.mpr ⟨r.id, ?_⟩
  have haddress : (⟨r.kind, r.space, r.id⟩ : Address) = r.address := rfl
  rw [haddress, get?_file, if_pos rfl]
  rfl

theorem Upkeeps.isSome (h : Upkeeps c c') {a : Address} (ha : (c.get? a).isSome) :
    (c'.get? a).isSome := by
  induction h with
  | refl => exact ha
  | tail _ hlast ih => exact hlast.isSome ih

theorem Upkeeps.collection_ne_nil (h : Upkeeps c c') {kind : Kind} {space : Space}
    (hsome : c.collection kind space ≠ []) : c'.collection kind space ≠ [] := by
  obtain ⟨id, hid⟩ := collection_ne_nil_iff.mp hsome
  exact collection_ne_nil_iff.mpr ⟨id, isSome h hid⟩

theorem Edits.filed {space : Space} (h : Edits space c c') (hc : c.Filed) : c'.Filed := by
  induction h with
  | refl => exact hc
  | tail _ hlast ih => exact hlast.filed ih

theorem Edits.intact {space : Space} (h : Edits space c c') (hc : c.Intact) : c'.Intact := by
  induction h with
  | refl => exact hc
  | tail _ hlast ih => exact hlast.intact ih

theorem Upkeeps.filed (h : Upkeeps c c') (hc : c.Filed) : c'.Filed := by
  induction h with
  | refl => exact hc
  | tail _ hlast ih => exact hlast.filed ih

theorem Upkeeps.intact (h : Upkeeps c c') (hc : c.Intact) : c'.Intact := by
  induction h with
  | refl => exact hc
  | tail _ hlast ih => exact hlast.intact ih

end Content

end ContentSpaces
