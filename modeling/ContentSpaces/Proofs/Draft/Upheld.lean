import ContentSpaces.Proofs.Confinement
import ContentSpaces.Proofs.Draft.Lists

/-!
# Conditions that edits of drafts uphold

An edit of drafts writes a new draft, or a draft that it has read with another document under the
same ID. A condition on the store that such writes keep is kept by every edit, however it ends.
-/

namespace ContentSpaces

namespace Resource

variable {r r' : Resource}

/-- Setting a list replaces the document by one with the same ID. -/
theorem withReferences_rewrites {list : RefList} {ids : List String}
    (h : r.withReferences list ids = .ok r') :
    ∃ document, documentId document = r.id ∧ r.withDocument document = .ok r' := by
  unfold withReferences at h
  split at h
  · rename_i fs hfs
    refine ⟨_, ?_, h⟩
    rw [Draft.documentId_object, Entries.get?_insert_of_ne list.key_ne_id, Resource.id, hfs,
      Draft.documentId_object]
  · cases h

end Resource

namespace Desk

variable {α : Type} {I : Store → Prop}

theorem keeps_onStore {act : StoreM α} {Q : α → Prop} (h : Keeps I act Q) :
    Keeps (fun d => I d.store) (onStore act) Q := ensures_onStore_of_ensures h

theorem keeps_validate (kind : Kind) (document : Json) :
    Keeps (fun d => I d.store) (validate kind document) fun _ => True := by
  intro d hd
  unfold validate
  dsimp only
  cases d.validator.objects d.validator.questions kind document with
  | none => exact ⟨trivial, hd⟩
  | some text => exact hd

theorem keeps_request (task : Task) :
    Keeps (fun d => I d.store) (request task) fun _ => True := fun _ hd => ⟨trivial, hd⟩

end Desk

namespace Draft

open Desk

/-- A condition on the store that edits of drafts keep, and what it lets them know of the resources
that they read. -/
structure Upheld (I : Store → Prop) (known : Resource → Prop) : Prop where
  get? (a : Address) : Keeps I (Store.get? a) fun found =>
    ∀ r, found = some r → known r ∧ r.address = a
  search (kind : Kind) (space : Space) : Keeps I (Store.search kind space) fun rs =>
    ∀ r ∈ rs, known r ∧ r.space = space
  create {r : Resource} (hr : known r) (hspace : r.space = .draft) :
    Keeps I (Store.create r) fun _ => True
  delete {kind : Kind} (hkind : kind ≠ .policy) (id : String) :
    Keeps I (Store.delete ⟨kind, .draft, id⟩) fun _ => True
  recalculate : Keeps I (Store.recalculate [.draft]) fun _ => True
  made {kind : Kind} {document : Json} {r : Resource} (hkind : kind ≠ .policy)
    (hr : Resource.create kind .draft document = .ok r) : known r
  rewritten {r r' : Resource} {document : Json} (hr : known r) (hid : documentId document = r.id)
    (hr' : r.withDocument document = .ok r') : known r'

namespace Upheld

variable {I : Store → Prop} {known : Resource → Prop}

section Registrations

theorem register (r : Resource) : Keeps (fun d => I d.store) (Draft.register r) fun _ => True := by
  unfold Draft.register
  split
  · exact (keeps_request _).bind fun _ _ => .pure trivial
  · exact .pure trivial

theorem unregister (kind : Kind) (id : String) :
    Keeps (fun d => I d.store) (Draft.unregister kind id) fun _ => True := by
  unfold Draft.unregister
  split
  · refine (keeps_request _).bind fun answer _ => ?_
    split
    · exact .pure trivial
    · split
      · exact .throw
      · exact .pure trivial
  · exact .pure trivial

end Registrations

variable (h : Upheld I known)
include h

theorem require (a : Address) :
    Keeps (fun d => I d.store) (Desk.require a) fun r => known r ∧ r.address = a := by
  refine (keeps_onStore (h.get? a)).bind fun found hfound => ?_
  cases found with
  | none => exact .throw
  | some r => exact .pure (hfound r rfl)

theorem place (kind : Kind) (parent : Option String) :
    Keeps (fun d => I d.store) (Draft.place kind parent) fun _ => True := by
  unfold Draft.place
  split
  · exact .throw
  · refine (keeps_onStore (Q := fun _ => True)
      ((h.get? _).bind fun _ _ => .pure trivial)).bind fun there _ => ?_
    split
    · exact .pure trivial
    · exact .throw
  · split
    · exact .pure trivial
    · exact (keeps_onStore (Q := fun _ => True)
        ((h.search .policy .draft).bind fun _ _ => .pure trivial)).bind fun _ _ => .pure trivial

/-- A resource that was read may be written back with another list. -/
theorem relist {r r' : Resource} {list : RefList} {ids : List String} (hr : known r)
    (hspace : r.space = .draft) (hr' : r.withReferences list ids = .ok r') :
    Keeps I (Store.create r') fun _ => True := by
  obtain ⟨document, hid, hwritten⟩ := Resource.withReferences_rewrites hr'
  refine h.create (h.rewritten hr hid hwritten) ?_
  rw [(Resource.withDocument_keeps hwritten).2.1, hspace]

theorem link (parent child : String) (list : RefList) :
    Keeps (fun d => I d.store) (Draft.link parent child list) fun _ => True := by
  refine (h.require _).bind fun container hcontainer => ?_
  dsimp only
  split
  · exact .pure trivial
  · refine keeps_onStore (Keeps.bind (.ofExcept fun r hr => hr) fun r hr => ?_)
    exact h.relist hcontainer.1 (congrArg Address.space hcontainer.2) hr

theorem unlinkFrom {container : Resource} (child : String) (list : RefList)
    (hcontainer : known container) (hspace : container.space = .draft) :
    Keeps I (Draft.unlinkFrom child list container) fun _ => True := by
  unfold Draft.unlinkFrom
  dsimp only
  split
  · exact .pure trivial
  · refine Keeps.bind (.ofExcept fun r hr => hr) fun r hr => ?_
    exact (h.relist hcontainer hspace hr).bind fun _ _ => .pure trivial

theorem unlink (child : String) (list : RefList) :
    Keeps (fun d => I d.store) (Draft.unlink child list) fun _ => True := by
  refine keeps_onStore ((h.search _ _).bind fun containers hcontainers => ?_)
  refine (Keeps.filterM fun container hcontainer => ?_).bind fun _ _ => .pure trivial
  obtain ⟨hknown, hspace⟩ := hcontainers container hcontainer
  exact h.unlinkFrom child list hknown hspace

/-- The child may be any resource that can be written and removed again. -/
theorem createLinked {child : Resource} (hcreate : Keeps I (Store.create child) fun _ => True)
    (hdelete : Keeps I (Store.delete child.address) fun _ => True) (parent : String)
    (list : RefList) :
    Keeps (fun d => I d.store) (Draft.createLinked child parent list) fun _ => True := by
  refine (keeps_onStore hcreate).bind fun _ _ => ?_
  refine Keeps.tryCatch (h.link parent child.id list) fun e => ?_
  refine Keeps.bind (R := fun _ => True) ?_ fun _ _ => .throw
  refine Keeps.tryCatch ?_ fun _ => .pure trivial
  exact (keeps_onStore hdelete).bind fun _ _ => .pure trivial

theorem recalculateDraft : Keeps (fun d => I d.store) Draft.recalculate fun _ => True :=
  (keeps_onStore h.recalculate).bind fun _ _ => .pure trivial

theorem createDraft (id : String) (kind : Kind) (document : Json) (parent : Option String) :
    Keeps (fun d => I d.store) (Draft.create id kind document parent) fun _ => True := by
  unfold Draft.create
  split
  · exact .throw_bind
  rename_i hauthored
  have hkind : kind ≠ .policy := fun hpolicy => hauthored (.inl hpolicy)
  refine Keeps.bind (.ofExcept fun fs hfs => hfs) fun fs _ => ?_
  refine (h.place kind parent).bind fun position _ => ?_
  refine (keeps_validate kind _).bind fun _ _ => ?_
  refine (keeps_onStore (.ofExcept fun r hr => hr)).bind fun r hr => ?_
  have hcreate : Keeps I (Store.create r) fun _ => True := by
    refine h.create (h.made hkind hr) ?_
    obtain ⟨-, rfl⟩ := Resource.create_eq_ok_iff.mp hr
    rfl
  have hconclude : Keeps (fun d => I d.store)
      (Draft.register r >>= fun _ => Draft.recalculate) fun _ => True :=
    (register r).bind fun _ _ => h.recalculateDraft
  cases position with
  | none => exact (keeps_onStore hcreate).bind fun _ _ => hconclude
  | some position =>
    have hdelete : Keeps I (Store.delete r.address) fun _ => True := by
      obtain ⟨-, rfl⟩ := Resource.create_eq_ok_iff.mp hr
      exact h.delete hkind _
    exact (h.createLinked hcreate hdelete position.1 position.2).bind fun _ _ => hconclude

theorem updateDraft (kind : Kind) (id : String) (document : Json) :
    Keeps (fun d => I d.store) (Draft.update kind id document) fun _ => True := by
  refine (h.require _).bind fun stored hstored => ?_
  obtain ⟨hknown, haddress⟩ := hstored
  refine Keeps.bind (.ofExcept fun fs hfs => hfs) fun fs _ => ?_
  refine (keeps_validate kind _).bind fun _ _ => ?_
  refine (keeps_onStore (.ofExcept fun r hr => hr)).bind fun r hr => ?_
  have hcreate : Keeps I (Store.create r) fun _ => True := by
    refine h.create (h.rewritten hknown ?_ hr) ?_
    · exact (documentId_keep kind id stored.document fs).trans (congrArg Address.id haddress).symm
    · exact (Resource.withDocument_keeps hr).2.1.trans (congrArg Address.space haddress)
  refine (keeps_onStore hcreate).bind fun _ _ => ?_
  exact (register r).bind fun _ _ => h.recalculateDraft

theorem deleteDraft (kind : Kind) (id : String) :
    Keeps (fun d => I d.store) (Draft.delete kind id) fun _ => True := by
  refine (h.require _).bind fun stored _ => ?_
  extract_lets drop finish check
  split
  · exact .throw_bind
  rename_i hkind
  have hdrop (u : Unit) : Keeps (fun d => I d.store) (drop u) fun _ => True :=
    (keeps_onStore (h.delete hkind id)).bind fun _ _ => h.recalculateDraft
  have hfinish (u : Unit) : Keeps (fun d => I d.store) (finish u) fun _ => True := by
    refine (unregister kind id).bind fun _ _ => ?_
    split
    · exact (h.unlink id _).bind fun _ _ => hdrop ()
    · exact hdrop ()
  unfold check
  split
  · exact Keeps.bind (.ofExcept fun u hu => hu) fun _ _ => hfinish ()
  · exact hfinish ()

theorem run (call : Call) : Keeps (fun d => I d.store) call.run fun _ => True := by
  cases call with
  | create id kind document parent => exact h.createDraft id kind document parent
  | update kind id document => exact h.updateDraft kind id document
  | delete kind id => exact h.deleteDraft kind id

end Upheld

end Draft

end ContentSpaces
