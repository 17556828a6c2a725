import ContentSpaces.Draft
import ContentSpaces.Proofs.Aggregate
import ContentSpaces.Proofs.Desk

/-!
# Linking and unlinking

A list of a container is rewritten in its document and nowhere else. Linking and unlinking therefore
map the stored containers one by one, and they cannot fail on containers that can be stored.
-/

namespace ContentSpaces

namespace RefList

variable {list list' : RefList}

theorem key_ne_id (list : RefList) : "id" ≠ list.key := by cases list <;> decide

theorem key_ne_date (list : RefList) : "date" ≠ list.key := by cases list <;> decide

theorem key_injective (h : list.key = list'.key) : list = list' := by
  cases list <;> cases list' <;> first | rfl | exact absurd h (by decide)

theorem childKind_injective (h : list.childKind = list'.childKind) : list = list' := by
  cases list <;> cases list' <;> first | rfl | cases h

theorem childKind_ne_containerKind (list : RefList) : list.childKind ≠ list.containerKind := by
  cases list <;> decide

theorem mem_ofContainer_iff {kind : Kind} : list ∈ ofContainer kind ↔ list.containerKind = kind := by
  cases list <;> cases kind <;> decide

theorem ofChild?_eq_some_iff {kind : Kind} : ofChild? kind = some list ↔ list.childKind = kind := by
  cases list <;> cases kind <;> decide

end RefList

def Resource.Storable (r : Resource) : Prop := checkDocument r.document = .ok ()

theorem Resource.Intact.storable {r : Resource} (h : r.Intact) : r.Storable := h.document

theorem Resource.Storable.exists_fields {r : Resource} (h : r.Storable) :
    ∃ fs, r.document = .object fs := by
  unfold Storable checkDocument at h
  split at h
  · exact ⟨_, ‹_›⟩
  · cases h

theorem Resource.Intact.exists_fields {r : Resource} (h : r.Intact) :
    ∃ fs, r.document = .object fs := h.storable.exists_fields

theorem checkDocument_object {fs : Json.Fields} :
    checkDocument (.object fs) = .ok () ↔ documentId (.object fs) ≠ "" := by
  show (if documentId (.object fs) = "" then Except.error ContentError.missingId else .ok ()) =
    .ok () ↔ _
  split
  · rename_i hid
    simp [hid]
  · rename_i hid
    simp [hid]

namespace Resource

variable {r r' : Resource} {list : RefList} {ids : List String} {child : String}

def relist (r : Resource) (list : RefList) (ids : List String) : Resource :=
  let document := match r.document with
    | .object fs => .object (Entries.insert list.key (.ofStrings ids) fs)
    | v => v
  { r with document := document, hash := Digest.ofDocument document }

def enlist (list : RefList) (child : String) (r : Resource) : Resource :=
  if (r.references list).contains child then r else r.relist list (r.references list ++ [child])

def delist (list : RefList) (child : String) (r : Resource) : Resource :=
  if (r.references list).contains child then r.relist list ((r.references list).filter (· ≠ child))
  else r

theorem enlist_of_mem (h : child ∈ r.references list) : r.enlist list child = r := by
  rw [enlist, if_pos (List.contains_iff_mem.mpr h)]

theorem delist_of_not_mem (h : child ∉ r.references list) : r.delist list child = r := by
  rw [delist, if_neg (mt List.contains_iff_mem.mp h)]

/-- The resources differ at most in a list, and in the digest with it. -/
structure SameOutside (list : RefList) (r r' : Resource) : Prop where
  kind : r'.kind = r.kind
  space : r'.space = r.space
  aggregate : r'.aggregate = r.aggregate
  fields : ∀ key, key ≠ list.key → r'.document.field? key = r.document.field? key

/-- Only the lists may have been rewritten. -/
inductive Relisted (r : Resource) : Resource → Prop
  | same : Relisted r r
  | list (list : RefList) (ids : List String) : Relisted r (r.relist list ids)

theorem relisted_enlist (list : RefList) (child : String) (r : Resource) :
    r.Relisted (r.enlist list child) := by
  unfold enlist
  split
  · exact .same
  · exact .list _ _

theorem relisted_delist (list : RefList) (child : String) (r : Resource) :
    r.Relisted (r.delist list child) := by
  unfold delist
  split
  · exact .list _ _
  · exact .same

theorem field?_relist (hr : r.Storable) (list : RefList) (ids : List String) (key : String) :
    (r.relist list ids).document.field? key =
      if key = list.key then some (.ofStrings ids) else r.document.field? key := by
  obtain ⟨fs, hfs⟩ := hr.exists_fields
  simp only [relist, hfs]
  show Entries.get? key (Entries.insert list.key _ fs) = _
  split
  · rename_i hkey
    rw [hkey]
    exact Entries.get?_insert_self ..
  · rename_i hkey
    exact Entries.get?_insert_of_ne hkey ..

theorem sameOutside_relist (hr : r.Storable) (list : RefList) (ids : List String) :
    r.SameOutside list (r.relist list ids) where
  kind := rfl
  space := rfl
  aggregate := rfl
  fields key hkey := by rw [field?_relist hr, if_neg hkey]

theorem sameOutside_delist (hr : r.Storable) (list : RefList) (child : String) :
    r.SameOutside list (r.delist list child) := by
  unfold delist
  split
  · exact sameOutside_relist hr list _
  · exact ⟨rfl, rfl, rfl, fun _ _ => rfl⟩

theorem SameOutside.bare (h : r.SameOutside list r') : r.bare.SameOutside list r'.bare :=
  ⟨h.kind, h.space, rfl, h.fields⟩

theorem references_of_field? (h : r.document.field? list.key = some (.ofStrings ids)) :
    r.references list = ids := by
  rw [references, h]
  show (ids.map Json.string).filterMap Json.string? = ids
  rw [List.filterMap_map]
  exact List.filterMap_some

theorem references_relist (hr : r.Storable) (list : RefList) (ids : List String) (list' : RefList) :
    (r.relist list ids).references list' = if list' = list then ids else r.references list' := by
  by_cases hlist : list' = list
  · rw [if_pos hlist, hlist]
    refine references_of_field? ?_
    rw [field?_relist hr, if_pos rfl]
  · unfold references
    rw [field?_relist hr, if_neg (fun h => hlist (RefList.key_injective h)), if_neg hlist]

theorem id_relist (r : Resource) (list : RefList) (ids : List String) :
    (r.relist list ids).id = r.id := by
  unfold relist id documentId Json.stringField?
  cases h : r.document with
  | object fs =>
    show ((Entries.get? "id" (Entries.insert list.key _ fs)).bind Json.string?).getD "" = _
    rw [Entries.get?_insert_of_ne list.key_ne_id]
    rfl
  | _ => rfl

theorem Storable.relist (hr : r.Storable) (list : RefList) (ids : List String) :
    (r.relist list ids).Storable := by
  obtain ⟨fs, hfs⟩ := hr.exists_fields
  have hid : r.id ≠ "" := by
    unfold Storable at hr
    rw [hfs, checkDocument_object, ← hfs] at hr
    exact hr
  have hdocument : (r.relist list ids).document =
      .object (Entries.insert list.key (.ofStrings ids) fs) := by
    simp only [Resource.relist, hfs]
  unfold Storable
  rw [hdocument, checkDocument_object, ← hdocument]
  show (r.relist list ids).id ≠ ""
  rwa [id_relist]

theorem Intact.relist (hr : r.Intact) (list : RefList) (ids : List String) :
    (r.relist list ids).Intact := ⟨hr.storable.relist list ids, rfl⟩

theorem withReferences_eq (hr : r.Storable) (list : RefList) (ids : List String) :
    r.withReferences list ids = .ok (r.relist list ids) := by
  obtain ⟨fs, hfs⟩ := hr.exists_fields
  have hrelisted := hr.relist list ids
  unfold Storable at hrelisted
  unfold withReferences
  simp only [Resource.relist, hfs] at hrelisted ⊢
  exact withDocument_eq_ok_iff.mpr ⟨hrelisted, rfl⟩

theorem Relisted.storable (h : r.Relisted r') (hr : r.Storable) : r'.Storable := by
  cases h with
  | same => exact hr
  | list list ids => exact hr.relist list ids

theorem Relisted.intact (h : r.Relisted r') (hr : r.Intact) : r'.Intact := by
  cases h with
  | same => exact hr
  | list list ids => exact hr.relist list ids

theorem Relisted.address (h : r.Relisted r') : r'.address = r.address := by
  cases h with
  | same => rfl
  | list list ids =>
    have hid := r.id_relist list ids
    simp only [Resource.address, hid]
    rfl

theorem references_enlist (hr : r.Storable) (list : RefList) (child : String) (list' : RefList) :
    (r.enlist list child).references list' =
      if list' = list ∧ child ∉ r.references list then r.references list ++ [child]
      else r.references list' := by
  unfold enlist
  by_cases hchild : child ∈ r.references list
  · simp [hchild]
  · rw [if_neg (by simpa using hchild), references_relist hr]
    simp [hchild]

theorem filter_ne_of_not_mem (h : child ∉ ids) : ids.filter (· ≠ child) = ids := by
  refine List.filter_eq_self.mpr fun id hid => ?_
  rw [decide_eq_true_iff]
  rintro rfl
  exact h hid

theorem references_delist (hr : r.Storable) (list : RefList) (child : String) (list' : RefList) :
    (r.delist list child).references list' =
      if list' = list then (r.references list).filter (· ≠ child) else r.references list' := by
  by_cases hchild : child ∈ r.references list
  · rw [delist, if_pos (List.contains_iff_mem.mpr hchild), references_relist hr]
  · rw [delist_of_not_mem hchild, filter_ne_of_not_mem hchild]
    split
    · rename_i hlist
      rw [hlist]
    · rfl

end Resource

namespace Content

variable {c : Content} {f : Resource → Resource}

def Storable (c : Content) : Prop := ∀ a r, c.get? a = some r → r.Storable

theorem Intact.storable (h : c.Intact) : c.Storable := fun a r hr => (h a r hr).storable

theorem Storable.file (h : c.Storable) {r : Resource} (hr : r.Storable) : (c.file r).Storable := by
  intro a r' hr'
  rw [get?_file] at hr'
  split at hr'
  · cases hr'
    exact hr
  · exact h a r' hr'

theorem Filed.mapValues (hc : c.Filed) (hf : ∀ r : Resource, r.Relisted (f r)) :
    Filed (Table.mapValues f c) := by
  intro a r' hr'
  rw [Table.get?_mapValues] at hr'
  obtain ⟨r, hr, rfl⟩ := Option.map_eq_some_iff.mp hr'
  exact (hf r).address.trans (hc a r hr)

theorem Storable.mapValues (hc : c.Storable) (hf : ∀ r : Resource, r.Relisted (f r)) :
    Storable (Table.mapValues f c) := by
  intro a r' hr'
  rw [Table.get?_mapValues] at hr'
  obtain ⟨r, hr, rfl⟩ := Option.map_eq_some_iff.mp hr'
  exact (hf r).storable (hc a r hr)

theorem Intact.mapValues (hc : c.Intact) (hf : ∀ r : Resource, r.Relisted (f r)) :
    Intact (Table.mapValues f c) := by
  intro a r' hr'
  rw [Table.get?_mapValues] at hr'
  obtain ⟨r, hr, rfl⟩ := Option.map_eq_some_iff.mp hr'
  exact (hf r).intact (hc a r hr)

def linkAt (parent child : String) (list : RefList) (r : Resource) : Resource :=
  if r.address = ⟨list.containerKind, .draft, parent⟩ then r.enlist list child else r

def unlinkAt (child : String) (list : RefList) (r : Resource) : Resource :=
  if r.kind = list.containerKind ∧ r.space = .draft then r.delist list child else r

def linked (c : Content) (parent child : String) (list : RefList) : Content :=
  Table.mapValues (linkAt parent child list) c

def unlinked (c : Content) (child : String) (list : RefList) : Content :=
  Table.mapValues (unlinkAt child list) c

theorem relisted_linkAt (parent child : String) (list : RefList) (r : Resource) :
    r.Relisted (linkAt parent child list r) := by
  unfold linkAt
  split
  · exact r.relisted_enlist list child
  · exact .same

theorem relisted_unlinkAt (child : String) (list : RefList) (r : Resource) :
    r.Relisted (unlinkAt child list r) := by
  unfold unlinkAt
  split
  · exact r.relisted_delist list child
  · exact .same

theorem Filed.get?_unlinked (hc : c.Filed) (child : String) (list : RefList) (a : Address) :
    (c.unlinked child list).get? a = (c.get? a).map fun r =>
      if a.kind = list.containerKind ∧ a.space = .draft then r.delist list child else r := by
  rw [unlinked, Table.get?_mapValues]
  refine Option.map_congr fun r hr => ?_
  have haddress := hc a r hr
  rw [unlinkAt, ← haddress]
  rfl

theorem Filed.get?_linked (hc : c.Filed) (parent child : String) (list : RefList) (a : Address) :
    (c.linked parent child list).get? a = (c.get? a).map fun r =>
      if a = ⟨list.containerKind, .draft, parent⟩ then r.enlist list child else r := by
  rw [linked, Table.get?_mapValues]
  refine Option.map_congr fun r hr => ?_
  rw [linkAt, hc a r hr]

theorem Filed.linked_eq_file (hc : c.Filed) {r : Resource} {parent : String} {list : RefList}
    (hr : c.get? ⟨list.containerKind, .draft, parent⟩ = some r) (child : String) :
    c.linked parent child list = c.file (r.enlist list child) := by
  have haddress : (r.enlist list child).address = ⟨list.containerKind, .draft, parent⟩ :=
    (r.relisted_enlist list child).address.trans (hc _ _ hr)
  refine Table.ext_get? fun a => ?_
  rw [hc.get?_linked, get?_file, haddress]
  split
  · rename_i ha
    rw [ha, hr]
    rfl
  · exact Option.map_id' ..

theorem file_self {r : Resource} (hr : c.get? r.address = some r) : c.file r = c := by
  refine Table.ext_get? fun a => ?_
  rw [get?_file]
  split
  · rename_i ha
    rw [ha, hr]
  · rfl

def Unlinked (child : String) (list : RefList) (p : Address → Bool) (c c' : Content) : Prop :=
  ∀ a, c'.get? a = (c.get? a).map fun r => if p a then r.delist list child else r

end Content

namespace Draft

open Desk

variable {c : Content} {w : Worktop} {list : RefList} {child : String} {E : EditError → Desk → Prop}

section Unlink

open Store

theorem ensures_unlinkFrom {p : Address → Bool} {r : Resource} (hr : c.get? r.address = some r)
    (hstorable : r.Storable) :
    Ensures (fun s => Content.Unlinked child list p c s.content ∧ s.Up) (unlinkFrom child list r)
      (fun _ s => Content.Unlinked child list (fun a => a == r.address || p a) c s.content ∧ s.Up)
      (fun _ _ => False) := by
  unfold unlinkFrom
  extract_lets ids
  split
  · rename_i habsent
    have hsame : r.delist list child = r :=
      Resource.delist_of_not_mem (by simpa [ids] using habsent)
    refine .pure fun s hs => ⟨fun a => ?_, hs.2⟩
    rw [hs.1 a]
    by_cases ha : a = r.address
    · subst ha
      simp [hr, hsame]
    · simp [ha]
  · rename_i hpresent
    have hchanged : r.delist list child = r.relist list (ids.filter (· ≠ child)) := by
      rw [Resource.delist, if_pos (by simpa [ids] using hpresent)]
    rw [Resource.withReferences_eq hstorable, ← hchanged]
    have hwritten : (r.delist list child).address = r.address :=
      (r.relisted_delist list child).address
    refine Ensures.bind (.pure (Q := fun r' s => r' = r.delist list child ∧
      Content.Unlinked child list p c s.content ∧ s.Up) fun s hs => ⟨rfl, hs⟩) fun r' => .of_and ?_
    rintro rfl
    refine Ensures.bind ((ensures_create_of_up (r.delist list child)).mono ?_ (fun _ _ h => h)
      fun _ _ h => h) fun _ => .pure fun _ h => h
    rintro s ⟨hs, hup⟩
    refine ⟨fun a => ?_, hup⟩
    rw [Content.get?_file, hwritten]
    by_cases ha : a = r.address
    · subst ha
      simp [hr]
    · rw [if_neg ha, hs a]
      simp [ha]

theorem ensures_unlinkAmong {p : Address → Bool} {containers : List Resource}
    (hstored : ∀ r ∈ containers, c.get? r.address = some r) (hstorable : c.Storable)
    (done : List Resource) :
    Ensures (fun s => Content.Unlinked child list p c s.content ∧ s.Up)
      (List.filterAuxM (unlinkFrom child list) containers done)
      (fun _ s => Content.Unlinked child list
        (fun a => p a || containers.any fun r => a == r.address) c s.content ∧ s.Up)
      (fun _ _ => False) := by
  -- The addresses that are done grow with each container, and `p` says which they are.
  induction containers generalizing p done with
  | nil =>
    refine .pure fun s hs => ⟨fun a => ?_, hs.2⟩
    simpa only [List.any_nil, Bool.or_false] using hs.1 a
  | cons r rs ih =>
    obtain ⟨hr, hrs⟩ := List.forall_mem_cons.mp hstored
    refine Ensures.bind (ensures_unlinkFrom hr (hstorable _ _ hr)) fun changed => ?_
    have hset : (fun a => a == r.address || p a || rs.any fun r => a == r.address) =
        fun a => p a || (r :: rs).any fun r => a == r.address := by
      funext a
      rw [List.any_cons, Bool.or_assoc, Bool.or_left_comm]
    refine (ih hrs _).mono_ok fun _ s hs => ?_
    rwa [hset] at hs

theorem ensures_unlinkAll {containers : List Resource}
    (hstored : ∀ r ∈ containers, c.get? r.address = some r) (hstorable : c.Storable) :
    Ensures (fun s => s.content = c ∧ s.Up) (containers.filterM (unlinkFrom child list))
      (fun _ s => Content.Unlinked child list (fun a => containers.any fun r => a == r.address) c
        s.content ∧ s.Up)
      (fun _ _ => False) := by
  have hloop : Ensures (fun s => Content.Unlinked child list (fun _ => false) c s.content ∧ s.Up)
      (List.filterAuxM (unlinkFrom child list) containers []) _ _ :=
    ensures_unlinkAmong hstored hstorable []
  refine Ensures.bind (hloop.mono ?_ (fun _ _ h => h) fun _ _ h => h) fun _ => .pure fun s hs => ?_
  · rintro s ⟨rfl, hup⟩
    refine ⟨fun a => ?_, hup⟩
    simp
  · simpa only [Bool.false_or] using hs

theorem ensures_unlink (hfiled : w.content.Filed) (hstorable : w.content.Storable) (child : String)
    (list : RefList) :
    Ensures (At w) (unlink child list)
      (fun _ => At { w with content := w.content.unlinked child list }) E := by
  have hstored (r : Resource) (hr : r ∈ w.content.collection list.containerKind .draft) :
      w.content.get? r.address = some r := by
    obtain ⟨id, hid⟩ := Content.mem_collection_iff.mp hr
    rwa [hfiled _ _ hid]
  refine (ensures_onStore_of_up (Q := fun _ c => c = w.content.unlinked child list) ?_).mono_ok ?_
  · refine Ensures.bind (((reads_search list.containerKind .draft w.content).and
      (Answers.call _ _)).mono_error fun _ _ h => h.2) fun containers => ?_
    refine Ensures.mono (.of_and (P := fun s => s.content = w.content ∧ s.Up)
      (Q := fun _ s => s.content = w.content.unlinked child list ∧ s.Up) (E := fun _ _ => False)
      (φ := containers = w.content.collection list.containerKind .draft) ?_)
      (fun s h => ⟨h.1.1, h.1.2, h.2⟩) (fun _ _ h => h) fun _ _ h => h
    rintro rfl
    refine Ensures.bind (ensures_unlinkAll hstored hstorable) fun _ => .pure ?_
    rintro s ⟨hs, hup⟩
    refine ⟨Table.ext_get? fun a => ?_, hup⟩
    rw [hs a, hfiled.get?_unlinked]
    refine Option.map_congr fun r hr => ?_
    have hcontainer : (w.content.collection list.containerKind .draft).any
        (fun r => a == r.address) = true ↔ a.kind = list.containerKind ∧ a.space = .draft := by
      rw [List.any_eq_true]
      constructor
      · rintro ⟨r', hr', ha⟩
        obtain ⟨id, hid⟩ := Content.mem_collection_iff.mp hr'
        rw [beq_iff_eq.mp ha, hfiled _ _ hid]
        exact ⟨rfl, rfl⟩
      · intro ha
        have haddress : (⟨list.containerKind, .draft, a.id⟩ : Address) = a := by
          rw [← ha.1, ← ha.2]
        refine ⟨r, Content.mem_collection_iff.mpr ⟨a.id, ?_⟩, beq_iff_eq.mpr (hfiled a r hr).symm⟩
        rw [haddress, hr]
    simp only [hcontainer]
  · rintro _ d ⟨c, rfl, hd⟩
    exact hd

end Unlink

section Link

/-- Linking to a container that is there cannot fail. -/
theorem ensures_link (hfiled : w.content.Filed) (hstorable : w.content.Storable) {parent : String}
    (hparent : (w.content.get? ⟨list.containerKind, .draft, parent⟩).isSome) (child : String) :
    Ensures (At w) (link parent child list)
      (fun _ => At { w with content := w.content.linked parent child list }) E := by
  refine Ensures.bind ((ensures_require _).mono_error ?_) fun r => .of_and fun hr => ?_
  · rintro _ d ⟨hnone, -⟩
    rw [hnone] at hparent
    cases hparent
  rw [hfiled.linked_eq_file hr]
  extract_lets ids
  split
  · rename_i hpresent
    have hsame : r.enlist list child = r :=
      Resource.enlist_of_mem (List.contains_iff_mem.mp hpresent)
    have haddress := hfiled _ _ hr
    rw [hsame, Content.file_self (haddress ▸ hr)]
    exact .pure fun _ hd => hd
  · rename_i habsent
    have hchanged : r.enlist list child = r.relist list (ids ++ [child]) := by
      rw [Resource.enlist, if_neg habsent]
    show Ensures _ (onStore do Store.create (← ofExcept (r.withReferences list (ids ++ [child])))) _ _
    rw [Resource.withReferences_eq (hstorable _ _ hr), ← hchanged]
    exact ensures_onStore_create (r.enlist list child)

theorem ensures_createLinked (hfiled : w.content.Filed) (hstorable : w.content.Storable)
    {r : Resource} (hr : r.Storable) {parent : String}
    (hparent : (w.content.get? ⟨list.containerKind, .draft, parent⟩).isSome) :
    Ensures (At w) (createLinked r parent list)
      (fun _ => At { w with content := (w.content.file r).linked parent r.id list }) E := by
  have hstill : ((w.content.file r).get? ⟨list.containerKind, .draft, parent⟩).isSome := by
    rw [Content.get?_file]
    split
    · rfl
    · exact hparent
  refine Ensures.bind (ensures_onStore_create r) fun _ => ?_
  exact .tryCatch (R := fun _ _ => False) (ensures_link (w := { w with content := w.content.file r })
    (hfiled.file r) (hstorable.file hr) hstill r.id) fun _ _ h => h.elim

end Link

end Draft

end ContentSpaces
