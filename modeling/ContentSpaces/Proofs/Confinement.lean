import ContentSpaces.Proofs.Aggregate

/-!
# Confined writes

Work on the content is confined to some addresses if it leaves all others alone. A failing call may
have made some of its writes, so confinement is kept from call to call and never read off a result.
-/

namespace ContentSpaces

namespace Resource

variable {r r' : Resource}

theorem withDocument_keeps {document : Json} (h : r.withDocument document = .ok r') :
    r'.kind = r.kind ∧ r'.space = r.space ∧ r'.Intact := by
  obtain ⟨hdocument, rfl⟩ := withDocument_eq_ok_iff.mp h
  exact ⟨rfl, rfl, hdocument, rfl⟩

theorem applyPatch_keeps {ops : List Patch.Operation} (h : r.applyPatch ops = .ok r') :
    r'.kind = r.kind ∧ r'.space = r.space ∧ r'.Intact := by
  obtain ⟨_, -, h⟩ := applyPatch_eq_ok_iff.mp h
  exact withDocument_keeps h

theorem withReferences_keeps {list : RefList} {ids : List String}
    (h : r.withReferences list ids = .ok r') :
    r'.kind = r.kind ∧ r'.space = r.space ∧ r'.Intact := by
  unfold withReferences at h
  split at h
  · exact withDocument_keeps h
  · cases h

end Resource

namespace Content

variable {p q : Address → Prop} {c c' c'' : Content}

/-- Outside of some addresses the content is as it was, and it is still in order. -/
structure Confined (p : Address → Prop) (c c' : Content) : Prop where
  filed : c'.Filed
  intact : c.Intact → c'.Intact
  outside : ∀ a, ¬ p a → c'.get? a = c.get? a

namespace Confined

theorem refl (hc : c.Filed) : Confined p c c := ⟨hc, fun h => h, fun _ _ => rfl⟩

theorem trans (h : Confined p c c') (h' : Confined p c' c'') : Confined p c c'' :=
  ⟨h'.filed, fun hc => h'.intact (h.intact hc),
    fun a ha => (h'.outside a ha).trans (h.outside a ha)⟩

theorem mono (h : Confined p c c') (hpq : ∀ a, p a → q a) : Confined q c c' :=
  ⟨h.filed, h.intact, fun a ha => h.outside a fun hp => ha (hpq a hp)⟩

theorem file (h : Confined p c c') {r : Resource} (hp : p r.address) (hr : c.Intact → r.Intact) :
    Confined p c (c'.file r) := by
  refine ⟨h.filed.file r, fun hc => (h.intact hc).file (hr hc), fun a ha => ?_⟩
  rw [get?_file, if_neg, h.outside a ha]
  rintro rfl
  exact ha hp

theorem erase (h : Confined p c c') {a : Address} (hp : p a) : Confined p c (c'.erase a) := by
  refine ⟨forall_get?_of_imp h.filed fun _ _ => get?_of_get?_erase,
    fun hc => forall_get?_of_imp (h.intact hc) fun _ _ => get?_of_get?_erase, fun b hb => ?_⟩
  rw [Table.get?_erase, if_neg, h.outside b hb]
  rintro rfl
  exact hb hp

theorem withoutCollection (h : Confined p c c') {kind : Kind} {space : Space}
    (hp : ∀ a, a.space = space → p a) : Confined p c (c'.withoutCollection kind space) := by
  refine ⟨forall_get?_of_imp h.filed fun _ _ => get?_of_get?_withoutCollection,
    fun hc => forall_get?_of_imp (h.intact hc) fun _ _ => get?_of_get?_withoutCollection,
    fun a ha => ?_⟩
  rw [get?_withoutCollection, if_neg, h.outside a ha]
  rintro ⟨-, hspace⟩
  exact ha (hp a hspace)

end Confined

theorem Edits.confined {space : Space} (h : Edits space c c') (hc : c.Filed) :
    Confined (·.space = space) c c' := by
  induction h with
  | refl => exact .refl hc
  | tail _ hlast ih =>
    cases hlast with
    | ingest hr =>
      exact ih.file (Resource.Ingested.space_eq ⟨_, _, hr⟩) fun _ => Resource.create_intact hr
    | patch hstored hspace hpatch =>
      obtain ⟨-, hkept, hintact⟩ := Resource.applyPatch_keeps hpatch
      have haddress := ih.filed _ _ hstored
      refine ih.file ?_ fun _ => hintact
      exact hkept.trans ((congrArg Address.space haddress).trans hspace)
    | erase kind id => exact ih.erase rfl
    | clear kind => exact ih.withoutCollection fun _ ha => ha

theorem Upkeeps.confined (h : Upkeeps c c') (hc : c.Filed) : Confined (fun _ => True) c c' :=
  ⟨Upkeeps.filed h hc, Upkeeps.intact h, fun _ ha => absurd trivial ha⟩

/-- What is read of a resource that stands at an address: it belongs there, and it is intact if all
were intact at first. -/
structure Vouched (c : Content) (kind : Kind) (space : Space) (r : Resource) : Prop where
  kind : r.kind = kind
  space : r.space = space
  intact : c.Intact → r.Intact

theorem Confined.vouched (h : Confined p c c') {a : Address} {r : Resource}
    (hr : c'.get? a = some r) : c.Vouched a.kind a.space r :=
  ⟨congrArg Address.kind (h.filed a r hr), congrArg Address.space (h.filed a r hr),
    fun hc => h.intact hc a r hr⟩

end Content

namespace Store

variable {α : Type} {p : Address → Prop} {c : Content} {kind : Kind} {space : Space}

/-- The work is confined to some addresses, on any store and however it ends. -/
abbrev Confines (p : Address → Prop) (c : Content) (act : StoreM α) (Q : α → Prop) : Prop :=
  Keeps (fun s => c.Confined p s.content) act Q

theorem Reads.confines {act : StoreM α} {f : Content → α} (h : Reads act f) {Q : α → Prop}
    (hf : ∀ c', c.Confined p c' → Q (f c')) : Confines p c act Q := h.keeps hf

theorem confines_get? (a : Address) :
    Confines p c (get? a) fun found => ∀ r, found = some r → c.Vouched a.kind a.space r :=
  (reads_get? a).confines fun _ hc' _ hr => hc'.vouched hr

theorem confines_search (kind : Kind) (space : Space) :
    Confines p c (search kind space) fun rs => ∀ r ∈ rs, c.Vouched kind space r := by
  refine (reads_search kind space).confines fun c' hc' r hr => ?_
  obtain ⟨id, hid⟩ := Content.mem_collection_iff.mp hr
  exact hc'.vouched hid

theorem confines_policy? (space : Space) :
    Confines p c (policy? space) fun found => ∀ r, found = some r → c.Vouched .policy space r := by
  refine (reads_policy? space).confines fun c' hc' r hr => ?_
  obtain ⟨id, hid⟩ := Content.mem_collection_iff.mp (List.mem_of_mem_head? hr)
  exact hc'.vouched hid

theorem confines_require (a : Address) :
    Confines p c (require a) fun r => c.Vouched a.kind a.space r :=
  (confines_get? a).bind fun found hfound => by
    cases found with
    | none => exact .throw
    | some r => exact .pure (hfound r rfl)

theorem confines_create {r : Resource} (hp : p r.address) (hr : c.Intact → r.Intact) :
    Confines p c (create r) fun _ => True := keeps_create fun _ hc' => hc'.file hp hr

theorem confines_delete {a : Address} (hp : p a) : Confines p c (delete a) fun _ => True :=
  keeps_delete fun _ hc' => hc'.erase hp

theorem confines_clear (kind : Kind) (hp : ∀ a, a.space = space → p a) :
    Confines p c (clear kind space) fun _ => True := keeps_clear fun _ hc' => hc'.withoutCollection hp

theorem confines_update {a : Address} (ops : List Patch.Operation)
    (hp : ∀ b, b.space = a.space → p b) : Confines p c (update a ops) fun _ => True := by
  refine keeps_update fun c' r r' hc' hstored hpatch => ?_
  obtain ⟨-, hspace, hintact⟩ := Resource.applyPatch_keeps hpatch
  exact hc'.file (hp _ (hspace.trans (hc'.vouched hstored).space)) fun _ => hintact

theorem confines_createAll {rs : List Resource}
    (h : ∀ r ∈ rs, p r.address ∧ (c.Intact → r.Intact)) :
    Confines p c (createAll rs) fun _ => True :=
  keeps_createAll fun r hr => confines_create (h r hr).1 (h r hr).2

section Aggregates

variable {cover : Resource → StoreM Coverage} {f : Resource → Content → Coverage}

theorem confines_refresh {r : Resource} (hcover : Reads (cover r) (f r)) (hp : p r.address)
    (hr : c.Intact → r.Intact) : Confines p c (refresh cover r) fun _ => True := by
  refine (hcover.confines (Q := fun _ => True) fun _ _ => trivial).bind fun coverage _ => ?_
  refine (confines_create (r := r.withAggregate (Digest.aggregate coverage.digests)) hp fun hc =>
    (hr hc).withAggregate _).bind fun _ _ => ?_
  exact .pure trivial

theorem confines_refreshAll {rs : List Resource} (hcover : ∀ r, Reads (cover r) (f r))
    (hrs : ∀ r ∈ rs, c.Vouched kind space r) (hp : ∀ a, a.kind = kind → a.space = space → p a) :
    Confines p c (rs.mapM (refresh cover)) fun _ => True := by
  refine Keeps.mono (Keeps.mapM (Q := fun _ => True) fun r hr => ?_) fun _ _ => trivial
  exact confines_refresh (hcover r) (hp _ (hrs r hr).kind (hrs r hr).space) (hrs r hr).intact

/-- Recalculating a space writes containers of the space only. -/
theorem confines_recalculateSpace (hp : ∀ a, a.kind.isContainer → a.space = space → p a) :
    Confines p c (recalculateSpace space) fun _ => True := by
  refine (confines_search .integration space).bind fun integrations hintegrations => ?_
  refine (confines_refreshAll reads_coverIntegration hintegrations ?_).bind fun _ _ => ?_
  · intro a hkind
    exact hp a (by rw [hkind]; rfl)
  refine (confines_search .policy space).bind fun policies hpolicies => ?_
  refine (confines_refreshAll reads_coverPolicy hpolicies ?_).bind fun _ _ => .pure trivial
  intro a hkind
  exact hp a (by rw [hkind]; rfl)

theorem confines_recalculate {spaces : List Space}
    (hp : ∀ a, a.kind.isContainer → a.space ∈ spaces → p a) :
    Confines p c (recalculate spaces) fun _ => True := by
  refine (Keeps.mapM (Q := fun _ => True) fun space hspace => ?_).bind fun _ _ => .pure trivial
  refine confines_recalculateSpace fun a hkind ha => hp a hkind ?_
  rwa [ha]

theorem confines_initializeSpaces (hp : ∀ a, p a) :
    Confines p c initializeSpaces fun _ => True :=
  keeps_initializeSpaces fun _ _ hc' hupkeeps =>
    hc'.trans ((Content.Upkeeps.confined hupkeeps hc'.filed).mono fun a _ => hp a)

end Aggregates

end Store

end ContentSpaces
