import ContentSpaces.Proofs.Draft.Lists

/-!
# What updates and deletions of drafts change

An update rewrites one document and changes no list that is read. A deletion takes the draft away and
its ID out of the lists that drafts of its kind are listed in, and leaves every other document. The
aggregates that follow are no part of the documents.
-/

namespace ContentSpaces

namespace Content

def HolderAt (c : Content) (list : RefList) (id : String) (a : Address) : Prop :=
  a.kind = list.containerKind ∧ a.space = .draft ∧ id ∈ c.listed list a.id

theorem HolderAt.exists_get? {c : Content} {list : RefList} {id : String} {a : Address}
    (h : c.HolderAt list id a) : ∃ r, c.get? a = some r := by
  obtain ⟨hkind, hspace, hmem⟩ := h
  have haddress : a = ⟨list.containerKind, .draft, a.id⟩ := by rw [← hkind, ← hspace]
  rw [haddress]
  exact Option.isSome_iff_exists.mp (drafted_of_mem_listed hmem)

end Content

namespace Draft

open Content Desk

variable {c c' c'' : Content} {kind : Kind} {id : String} {stored r r' : Resource}
  {document : Json} {fs : Json.Fields}

/-- The draft with a submitted document, but the managed fields of the stored one. -/
structure Revised (id : String) (document : Json) (stored r : Resource) : Prop where
  kind : r.kind = stored.kind
  space : r.space = stored.space
  id : r.document.field? "id" = some (.string id)
  date : ∀ date, stored.document.field? "date" = some date → r.document.field? "date" = some date
  fields : ∀ list : RefList, list.containerKind = stored.kind →
    ∀ v, stored.document.field? list.key = some v → r.document.field? list.key = some v
  references : ∀ list : RefList, list.containerKind = stored.kind →
    r.references list = stored.references list
  submitted : ∀ key, key ∉ ["id", "date", "enabled"] →
    (∀ list : RefList, list.containerKind = stored.kind → key ≠ list.key) →
    r.document.field? key = document.field? key

/-- The content after an update: only the document of the draft is another. -/
structure Updated (kind : Kind) (id : String) (document : Json) (c c' : Content) : Prop where
  draft : ∃ stored r, c.get? ⟨kind, .draft, id⟩ = some stored ∧
    c'.get? ⟨kind, .draft, id⟩ = some r ∧ Revised id document stored r
  others : ∀ a, a ≠ ⟨kind, .draft, id⟩ →
    (c'.get? a).map Resource.bare = (c.get? a).map Resource.bare
  edges : c'.listed = c.listed

/-- The content after a deletion: the draft is gone, and so is its ID from the lists of its kind. -/
structure Deleted (kind : Kind) (id : String) (c c' : Content) : Prop where
  draft : c.Drafted kind id
  gone : c'.get? ⟨kind, .draft, id⟩ = none
  edges : ∀ list container, c'.listed list container =
    if list.childKind = kind then (c.listed list container).filter (· ≠ id)
    else c.listed list container
  holders : ∀ list a, list.childKind = kind → c.HolderAt list id a →
    ∃ r r', c.get? a = some r ∧ c'.get? a = some r' ∧ r.bare.SameOutside list r'.bare
  others : ∀ a, a ≠ ⟨kind, .draft, id⟩ → (∀ list, list.childKind = kind → ¬ c.HolderAt list id a) →
    (c'.get? a).map Resource.bare = (c.get? a).map Resource.bare

section Update

theorem revised_keep (hkind : stored.kind = kind)
    (hr : stored.withDocument (keep kind id stored.document fs) = .ok r) :
    Revised id (.object fs) stored r := by
  obtain ⟨-, rfl⟩ := Resource.withDocument_eq_ok_iff.mp hr
  have hmem {list : RefList} (hlist : list.containerKind = stored.kind) :
      list ∈ RefList.ofContainer kind := RefList.mem_ofContainer_iff.mpr (hlist.trans hkind)
  exact {
    kind := rfl
    space := rfl
    id := field?_keep_id kind id stored.document fs
    date := fun date hdate => field?_keep_date hdate kind id fs
    fields := fun list hlist v hv => by
      show (keep kind id stored.document fs).field? list.key = some v
      rw [field?_keep_list (hmem hlist), hv, Option.getD_some]
    references := fun list hlist => listing_keep (hmem hlist) id stored.document fs
    submitted := fun key hmanaged hlists => field?_keep_submitted
      (fun list hlist => hlists list ((RefList.mem_ofContainer_iff.mp hlist).trans hkind.symm))
      hmanaged id stored.document fs }

theorem Revised.congr (h : Revised id document stored r) (hbare : r'.bare = r.bare) :
    Revised id document stored r' := by
  obtain ⟨hkind, hdocument, hspace, -⟩ := Resource.bare_eq_iff.mp hbare
  have hreferences (list : RefList) : r'.references list = r.references list := by
    rw [Resource.references, hdocument, Resource.references]
  exact {
    kind := hkind.trans h.kind
    space := hspace.trans h.space
    id := hdocument ▸ h.id
    date := hdocument ▸ h.date
    fields := hdocument ▸ h.fields
    references := fun list hlist => (hreferences list).trans (h.references list hlist)
    submitted := hdocument ▸ h.submitted }

theorem updated_file (hc : c.Filed) (hstored : c.get? ⟨kind, .draft, id⟩ = some stored)
    (hr : stored.withDocument (keep kind id stored.document fs) = .ok r) :
    Updated kind id (.object fs) c (c.file r) := by
  have haddress := hc _ _ hstored
  obtain ⟨-, hkind, hspace, hid, hkept⟩ := updated haddress hr
  have hfiled : r.address = ⟨kind, .draft, id⟩ := by rw [Resource.address, hkind, hspace, hid]
  refine ⟨⟨stored, r, hstored, ?_, revised_keep (congrArg Address.kind haddress) hr⟩, ?_, ?_⟩
  · rw [get?_file, if_pos hfiled.symm]
  · intro a ha
    rw [get?_file, if_neg (hfiled ▸ ha)]
  · subst hkind hid
    exact listed_file_of_kept hstored hspace hkept

theorem Updated.congr (h : Updated kind id document c c') (hbare : SameBare c' c'') :
    Updated kind id document c c'' := by
  obtain ⟨⟨stored, r, hstored, hr, hrevised⟩, hothers, hedges⟩ := h
  refine ⟨?_, fun a ha => (hbare a).trans (hothers a ha), hbare.listed_eq.trans hedges⟩
  obtain ⟨r', hr', hsame⟩ := hbare.exists_get? hr
  exact ⟨stored, r', hstored, hr', hrevised.congr hsame⟩

end Update

section Delete

variable {list : RefList}

theorem get?_delisted (hc : c.Filed) (hlist : list.childKind = kind) (id : String) (a : Address) :
    (delisted c kind id).get? a = (c.get? a).map fun r =>
      if a.kind = list.containerKind ∧ a.space = .draft then r.delist list id else r := by
  unfold delisted
  rw [RefList.ofChild?_eq_some_iff.mpr hlist]
  exact hc.get?_unlinked id list a

theorem get?_delisted_of_not_holderAt (hc : c.Filed) {a : Address}
    (h : ∀ list, list.childKind = kind → ¬ c.HolderAt list id a) :
    (delisted c kind id).get? a = c.get? a := by
  cases hlist : RefList.ofChild? kind with
  | none =>
    unfold delisted
    rw [hlist]
  | some list =>
    have hchild := RefList.ofChild?_eq_some_iff.mp hlist
    rw [get?_delisted hc hchild]
    refine (Option.map_congr fun r hr => ?_).trans Option.map_id'
    split
    · rename_i hcontainer
      refine Resource.delist_of_not_mem fun hmem => h list hchild ⟨hcontainer.1, hcontainer.2, ?_⟩
      obtain ⟨k, space, i⟩ := a
      obtain ⟨rfl, rfl⟩ := hcontainer
      rwa [listed_of_get? hr]
    · rfl

theorem deleted_removed (hc : c.Filed) (hstorable : c.Storable)
    (hstored : c.get? ⟨kind, .draft, id⟩ = some stored)
    (hchildless : ∀ list : RefList, list.containerKind = kind → c.listed list id = []) :
    Deleted kind id c (removed c kind id) := by
  have hrest {a : Address} (ha : a ≠ ⟨kind, .draft, id⟩) :
      (removed c kind id).get? a = (delisted c kind id).get? a := by
    rw [removed, Table.get?_erase, if_neg ha]
  refine ⟨Option.isSome_of_eq_some hstored, ?_, ?_, ?_, ?_⟩
  · rw [removed, Table.get?_erase, if_pos rfl]
  · intro list container
    rw [listed_removed hc hstorable]
    split
    · rename_i hself
      rw [hself.2, hchildless list hself.1]
      simp
    · rfl
  · intro list a hlist hholder
    have hne : a ≠ ⟨kind, .draft, id⟩ := by
      rintro rfl
      exact list.childKind_ne_containerKind (hlist.trans hholder.1)
    obtain ⟨r, hr⟩ := hholder.exists_get?
    refine ⟨r, r.delist list id, hr, ?_, (Resource.sameOutside_delist (hstorable a r hr) _ _).bare⟩
    rw [hrest hne, get?_delisted hc hlist, hr, Option.map_some, if_pos ⟨hholder.1, hholder.2.1⟩]
  · intro a ha hfree
    rw [hrest ha, get?_delisted_of_not_holderAt hc hfree]

theorem Deleted.congr (h : Deleted kind id c c') (hbare : SameBare c' c'') :
    Deleted kind id c c'' where
  draft := h.draft
  gone := by
    have hgone := hbare ⟨kind, .draft, id⟩
    rw [h.gone] at hgone
    exact Option.map_eq_none_iff.mp hgone
  edges := hbare.listed_eq ▸ h.edges
  holders list a hlist hholder := by
    obtain ⟨r, r', hr, hr', houtside⟩ := h.holders list a hlist hholder
    obtain ⟨r'', hr'', hsame⟩ := hbare.exists_get? hr'
    exact ⟨r, r'', hr, hr'', hsame ▸ houtside⟩
  others a ha hfree := (hbare a).trans (h.others a ha hfree)

end Delete

section Runs

variable {d d' : Desk}

theorem updated_of_update (hup : d.store.Up) (hfiled : d.store.content.Filed)
    (hrun : update kind id document d = .ok () d') :
    Updated kind id document d.store.content d'.store.content := by
  obtain ⟨c, g, hworked, hrefreshed, -⟩ :=
    (ensures_update (w := d.worktop) hfiled kind id document).of_ok ⟨rfl, hup⟩ hrun
  cases hworked with
  | update hstored hr => exact (updated_file hfiled hstored hr).congr hrefreshed.sameBare

theorem deleted_of_delete (hup : d.store.Up) (hfiled : d.store.content.Filed)
    (hstorable : d.store.content.Storable) (hrun : delete kind id d = .ok () d') :
    Deleted kind id d.store.content d'.store.content := by
  obtain ⟨c, g, hworked, hrefreshed, -⟩ :=
    (ensures_delete (w := d.worktop) hfiled hstorable kind id).of_ok ⟨rfl, hup⟩ hrun
  cases hworked with
  | delete hstored hkind hchildless =>
    rename_i stored
    replace hstored : d.store.content.get? ⟨kind, .draft, id⟩ = some stored := hstored
    exact (deleted_removed hfiled hstorable hstored fun list =>
      listed_eq_nil_of_childless hstored hkind hchildless).congr hrefreshed.sameBare

/-- An update changes the document of its draft and no list, a deletion takes the draft away and its
ID out of the lists of its kind; no other document changes. -/
theorem edits_framed (hup : d.store.Up) (hfiled : d.store.content.Filed)
    (hstorable : d.store.content.Storable) (kind : Kind) (id : String) :
    (∀ document d', update kind id document d = .ok () d' →
      Updated kind id document d.store.content d'.store.content) ∧
    ∀ d', delete kind id d = .ok () d' → Deleted kind id d.store.content d'.store.content :=
  ⟨fun _ _ => updated_of_update hup hfiled, fun _ => deleted_of_delete hup hfiled hstorable⟩

end Runs

section Trial

def trialSession : Desk := afterAll [trialIntegration, trialRule] trialDesk

def rivalDocument : Json :=
  .object [("id", .string "j"), ("rules", .array []), ("title", .string "J")]

/-- The submitted ID and the submitted list are not taken over. -/
theorem trial_edits_framed : ∃ d₁ d₂,
    update .integration "i" rivalDocument trialSession = .ok () d₁ ∧
      Updated .integration "i" rivalDocument trialSession.store.content d₁.store.content ∧
      d₁.store.content.listed .rules "i" = ["r"] ∧
      delete .rule "r" trialSession = .ok () d₂ ∧
      Deleted .rule "r" trialSession.store.content d₂.store.content ∧
      d₂.store.content.listed .rules "i" = [] := by
  have hready : Ready trialSession := begun_trialDesk.ready.afterAll _
  have hupdates : returned (fun _ d => d.store.content.listed .rules "i" == ["r"])
      (update .integration "i" rivalDocument trialSession) = true := by
    decide +kernel
  have hdeletes : returned (fun _ d => d.store.content.listed .rules "i" == [])
      (delete .rule "r" trialSession) = true := by
    decide +kernel
  obtain ⟨_, d₁, hupdate, hlisted⟩ := eq_ok_of_returned hupdates
  obtain ⟨_, d₂, hdelete, hunlisted⟩ := eq_ok_of_returned hdeletes
  exact ⟨d₁, d₂, hupdate,
    (edits_framed hready.up hready.filed hready.intact.storable .integration "i").1 _ _ hupdate,
    beq_iff_eq.mp hlisted, hdelete,
    (edits_framed hready.up hready.filed hready.intact.storable .rule "r").2 _ hdelete,
    beq_iff_eq.mp hunlisted⟩

end Trial

end Draft

end ContentSpaces
