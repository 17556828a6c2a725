import ContentSpaces.Proofs.Draft.Lists
import ContentSpaces.Proofs.Registration
import Mathlib.Data.List.Induction

/-!
# The registry of drafts

With a service that accepts every request, a session keeps registered exactly the draft integrations
and rules. A draft is registered when it is written on its own behalf. When an integration gains or
loses a child its document is rewritten without that, so its lists may have changed since.
-/

namespace ContentSpaces

namespace Registry

variable {g g' : Registry}

/-- The service accepts every request, however long it takes. -/
def Accepting (g : Registry) : Prop := ∀ n s, (g.conducts n s).refusal = none

theorem Accepting.start (h : g.Accepting) (task : Task) : (g.start task).1.refusal = none := by
  unfold Registry.start
  split
  · rfl
  · exact h _ _

theorem Accepting.took_told (h : g.Accepting) (task : Option Task) :
    g.Took task.toList (g.told task) := by
  cases task with
  | none => exact .refl g
  | some task =>
    have hanswered := took_answer (g.start task).2 task
    rw [← h.start task] at hanswered
    exact (took_start g task).append hanswered

theorem Took.accepting {tasks : List Task} (h : g.Took tasks g') (hg : g.Accepting) :
    g'.Accepting := by
  intro n s
  rw [h.conducts]
  exact hg n s

/-- A deletion can only be answered by that there is nothing to delete. -/
theorem Accepting.isNotFound (h : g.Accepting) {kind : Kind} {id : String} {e : RegistrationError}
    (hanswer : (request (.delete kind id) g).1 = .error e) : e.isNotFound := by
  have hrequest : (request (.delete kind id) g).1 =
      ((g.start (.delete kind id)).2.answer (.delete kind id) none).1 := by
    rw [← h.start (.delete kind id)]
    rfl
  rw [hrequest] at hanswer
  unfold answer at hanswer
  extract_lets counted at hanswer
  dsimp only at hanswer
  split at hanswer
  · cases hanswer
  · rename_i e' haccepted
    cases hanswer
    simp only [Registered.accept, Task.subject?, Task.id?, Option.map_some] at haccepted
    split at haccepted
    · cases haccepted
    · cases haccepted
      rfl

end Registry

namespace Draft

open Desk

variable {c c' : Content} {r : Resource} {d : Desk} {v v' : Json} {list : RefList}
  {registered : Registered}

theorem eq_of_declined {g g' : Registry} (h : Declined g g') (hg : g.Accepting) : g' = g := by
  obtain heq | ⟨kind, id, e, hanswer, hrefused⟩ := h
  · exact heq
  · have hmissing : e.isNotFound = true :=
      hg.isNotFound (congrArg Prod.fst hanswer)
    rw [hmissing] at hrefused
    cases hrefused

section Registrable

/-- The documents that should be registered: those of the draft integrations and rules. -/
def registrableDrafts (c : Content) : Registered := (c.catalog .draft).registrable

theorem get?_registrableDrafts (c : Content) (s : Subject) :
    (registrableDrafts c).get? s =
      if s.kind.isRegistrable then (c.get? ⟨s.kind, .draft, s.id⟩).map Resource.document else none := by
  rw [registrableDrafts, Catalog.get?_registrable, Content.get?_catalog]

theorem registrableDrafts_congr (h : Content.SameBare c c') :
    registrableDrafts c' = registrableDrafts c := by
  refine Table.ext_get? fun s => ?_
  rw [get?_registrableDrafts, get?_registrableDrafts, h.map_get? fun _ => rfl]

theorem get?_registrableDrafts_file (hspace : r.space = .draft) (c : Content) (s : Subject) :
    (registrableDrafts (c.file r)).get? s =
      if r.kind.isRegistrable ∧ s = r.subject then some r.document
      else (registrableDrafts c).get? s := by
  have hcatalog : (c.file r).catalog .draft = (c.catalog .draft).insert r.subject r.document := by
    rw [← hspace, Content.catalog_file]
  rw [registrableDrafts, registrableDrafts, Catalog.get?_registrable, Catalog.get?_registrable,
    hcatalog, Table.get?_insert]
  by_cases hself : s = r.subject
  · have hkind : s.kind = r.kind := congrArg Subject.kind hself
    rw [hkind]
    by_cases hregistrable : r.kind.isRegistrable
    · simp [hself, hregistrable]
    · simp [hregistrable]
  · simp [hself]

theorem get?_registrableDrafts_erase (c : Content) (kind : Kind) (id : String) (s : Subject) :
    (registrableDrafts (c.erase ⟨kind, .draft, id⟩)).get? s =
      if kind.isRegistrable ∧ s = ⟨kind, id⟩ then none else (registrableDrafts c).get? s := by
  rw [registrableDrafts, registrableDrafts, Catalog.get?_registrable, Catalog.get?_registrable,
    Content.catalog_erase, Table.get?_erase]
  by_cases hself : s = ⟨kind, id⟩
  · have hkind : s.kind = kind := congrArg Subject.kind hself
    rw [hkind]
    by_cases hregistrable : kind.isRegistrable
    · simp [hself, hregistrable]
    · simp [hregistrable]
  · simp [hself]

theorem get?_takeAll_upsert? (hr : r.Intact) (registered : Registered) (s : Subject) :
    (registered.takeAll (Task.upsert? r).toList).get? s =
      if r.kind.isRegistrable ∧ s = r.subject then some r.document else registered.get? s := by
  unfold Task.upsert?
  split
  · rename_i hkind
    have hsubject : (Task.ofResource r).subject? = some r.subject := by
      show (r.document.stringField? "id").map (fun id => (⟨r.kind, id⟩ : Subject)) = some r.subject
      rw [hr.stringField_id]
      rfl
    show (registered.take (Task.ofResource r)).get? s = _
    rw [Registered.get?_take, hsubject, hkind]
    simp [eq_comm, Task.ofResource, Task.document?]
  · rename_i hkind
    simp [hkind, Registered.takeAll]

theorem get?_takeAll_delete? (kind : Kind) (id : String) (registered : Registered) (s : Subject) :
    (registered.takeAll (Task.delete? kind id).toList).get? s =
      if kind.isRegistrable ∧ s = ⟨kind, id⟩ then none else registered.get? s := by
  unfold Task.delete?
  split
  · rename_i hkind
    show (registered.take (Task.delete kind id)).get? s = _
    rw [Registered.get?_take, hkind]
    simp [eq_comm, Task.subject?, Task.id?, Task.kind, Task.document?]
  · rename_i hkind
    simp [hkind, Registered.takeAll]

/-- What is written and registered is in step if everything was. -/
theorem takeAll_upsert?_registrableDrafts (hr : r.Intact) (hspace : r.space = .draft) (c : Content) :
    (registrableDrafts c).takeAll (Task.upsert? r).toList = registrableDrafts (c.file r) := by
  refine Table.ext_get? fun s => ?_
  rw [get?_takeAll_upsert? hr, get?_registrableDrafts_file hspace]

theorem takeAll_delete?_registrableDrafts (c : Content) (kind : Kind) (id : String) :
    (registrableDrafts c).takeAll (Task.delete? kind id).toList =
      registrableDrafts (c.erase ⟨kind, .draft, id⟩) := by
  refine Table.ext_get? fun s => ?_
  rw [get?_takeAll_delete?, get?_registrableDrafts_erase]

end Registrable

section Tracks

/-- The documents differ at most in the lists of an integration. -/
def SameButLists (v v' : Json) : Prop :=
  ∀ key, (∀ list ∈ RefList.hashOrder, key ≠ list.key) → v'.field? key = v.field? key

theorem SameButLists.refl (v : Json) : SameButLists v v := fun _ _ => rfl

theorem SameButLists.relist (h : SameButLists v r.document) (hr : r.Intact)
    (hlist : list ∈ RefList.hashOrder) (ids : List String) :
    SameButLists v (r.relist list ids).document := by
  intro key hkey
  rw [Resource.field?_relist hr.storable, if_neg (hkey list hlist), h key hkey]

/-- Every rule is registered as it is stored, and every integration but for its lists. -/
structure Tracks (registered : Registered) (c : Content) : Prop where
  others : ∀ s, s.kind ≠ .integration → registered.get? s = (registrableDrafts c).get? s
  integrations : ∀ id, Option.Rel SameButLists (registered.get? ⟨.integration, id⟩)
    ((registrableDrafts c).get? ⟨.integration, id⟩)

theorem tracks_registrableDrafts (c : Content) : Tracks (registrableDrafts c) c := by
  refine ⟨fun _ _ => rfl, fun id => ?_⟩
  cases (registrableDrafts c).get? ⟨.integration, id⟩ with
  | none => exact .none
  | some v => exact .some (.refl v)

theorem Tracks.congr (h : Tracks registered c) (hbare : Content.SameBare c c') :
    Tracks registered c' := by
  have hsame := registrableDrafts_congr hbare
  exact ⟨hsame ▸ h.others, hsame ▸ h.integrations⟩

theorem Tracks.filed (h : Tracks registered c) (hr : r.Intact) (hspace : r.space = .draft) :
    Tracks (registered.takeAll (Task.upsert? r).toList) (c.file r) := by
  refine ⟨fun s hs => ?_, fun id => ?_⟩
  · rw [get?_takeAll_upsert? hr, get?_registrableDrafts_file hspace, h.others s hs]
  · rw [get?_takeAll_upsert? hr, get?_registrableDrafts_file hspace]
    split
    · exact .some (.refl r.document)
    · exact h.integrations id

theorem Tracks.erased (h : Tracks registered c) (kind : Kind) (id : String) :
    Tracks (registered.takeAll (Task.delete? kind id).toList) (c.erase ⟨kind, .draft, id⟩) := by
  refine ⟨fun s hs => ?_, fun id' => ?_⟩
  · rw [get?_takeAll_delete?, get?_registrableDrafts_erase, h.others s hs]
  · rw [get?_takeAll_delete?, get?_registrableDrafts_erase]
    split
    · exact .none
    · exact h.integrations id'

theorem Tracks.mapValues (h : Tracks registered c) (hc : c.Filed) (hintact : c.Intact)
    {f : Resource → Resource} (hrules : ∀ r : Resource, r.kind = .rule → f r = r)
    (hintegrations : ∀ (r : Resource) (v : Json), r.Intact → r.kind = .integration →
      SameButLists v r.document → SameButLists v (f r).document) :
    Tracks registered (Table.mapValues f c) := by
  have hlookup (s : Subject) : (registrableDrafts (Table.mapValues f c)).get? s =
      if s.kind.isRegistrable then
        (c.get? ⟨s.kind, .draft, s.id⟩).map fun r => (f r).document
      else none := by
    rw [get?_registrableDrafts, Table.get?_mapValues, Option.map_map]
    rfl
  refine ⟨fun s hs => ?_, fun id => ?_⟩
  · rw [h.others s hs, get?_registrableDrafts, hlookup]
    split
    · rename_i hregistrable
      refine Option.map_congr fun r hr => ?_
      have hrule : r.kind = .rule := by
        have hkind : r.kind = s.kind := congrArg Address.kind (hc _ _ hr)
        rw [hkind]
        cases hs' : s.kind <;> rw [hs'] at hregistrable hs <;>
          first | rfl | exact absurd rfl hs | cases hregistrable
      rw [hrules r hrule]
    · rfl
  · have hrel := h.integrations id
    rw [get?_registrableDrafts] at hrel
    rw [hlookup]
    have hregistrable : Kind.integration.isRegistrable = true := rfl
    rw [if_pos hregistrable] at hrel ⊢
    cases hr : c.get? ⟨.integration, .draft, id⟩ with
    | none =>
      rw [hr] at hrel
      exact hrel
    | some r =>
      rw [hr] at hrel
      generalize registered.get? ⟨.integration, id⟩ = found at hrel ⊢
      cases hrel with
      | some hsame =>
        exact .some (hintegrations r _ (hintact _ _ hr) (congrArg Address.kind (hc _ _ hr)) hsame)

theorem containerKind_ne_rule (list : RefList) : list.containerKind ≠ .rule := by
  cases list <;> decide

theorem Tracks.linked (h : Tracks registered c) (hc : c.Filed) (hintact : c.Intact)
    (parent child : String) (list : RefList) : Tracks registered (c.linked parent child list) := by
  refine h.mapValues hc hintact (fun r hr => if_neg ?_) fun r v hr hkind hsame => ?_
  · intro haddress
    exact containerKind_ne_rule list ((congrArg Address.kind haddress).symm.trans hr)
  · unfold Content.linkAt Resource.enlist
    split
    · rename_i haddress
      have hlist := mem_hashOrder_iff.mpr ((congrArg Address.kind haddress).symm.trans hkind)
      split
      · exact hsame
      · exact hsame.relist hr hlist _
    · exact hsame

theorem Tracks.unlinked (h : Tracks registered c) (hc : c.Filed) (hintact : c.Intact)
    (child : String) (list : RefList) : Tracks registered (c.unlinked child list) := by
  refine h.mapValues hc hintact (fun r hr => if_neg ?_) fun r v hr hkind hsame => ?_
  · rintro ⟨hcontainer, -⟩
    exact containerKind_ne_rule list (hcontainer.symm.trans hr)
  · unfold Content.unlinkAt Resource.delist
    split
    · rename_i hcontainer
      have hlist := mem_hashOrder_iff.mpr (hcontainer.1.symm.trans hkind)
      split
      · exact hsame.relist hr hlist _
      · exact hsame
    · exact hsame

theorem Tracks.placed (h : Tracks registered c) (hc : c.Filed) (hintact : c.Intact)
    (hr : r.Intact) (hspace : r.space = .draft) (position : Option (String × RefList)) :
    Tracks (registered.takeAll (Task.upsert? r).toList) (placed c r position) := by
  have hfiled := h.filed hr hspace
  cases position with
  | none => exact hfiled
  | some position => exact hfiled.linked (hc.file r) (hintact.file hr) _ _ _

theorem Tracks.removed (h : Tracks registered c) (hc : c.Filed) (hintact : c.Intact)
    (kind : Kind) (id : String) :
    Tracks (registered.takeAll (Task.delete? kind id).toList) (removed c kind id) := by
  unfold Draft.removed delisted
  split
  · exact (h.unlinked hc hintact _ _).erased kind id
  · exact h.erased kind id

end Tracks

section Rewrites

variable {parent child id : String} {kind : Kind}

theorem mem_hashOrder_of_isRegistrable (h : list.containerKind.isRegistrable = true) :
    list ∈ RefList.hashOrder := by
  cases list <;> first | decide | cases h

theorem listed_congr_registrable (hlist : list ∈ RefList.hashOrder) {i : String}
    (h : (registrableDrafts c').get? ⟨.integration, i⟩ =
      (registrableDrafts c).get? ⟨.integration, i⟩) : c'.listed list i = c.listed list i := by
  have hread (c : Content) : c.listed list i =
      (((registrableDrafts c).get? ⟨.integration, i⟩).map (·.listing list)).getD [] := by
    have hregistrable : Kind.integration.isRegistrable = true := rfl
    rw [get?_registrableDrafts, if_pos hregistrable, Option.map_map, Content.listed,
      mem_hashOrder_iff.mp hlist]
    rfl
  rw [hread, hread, h]

theorem registrableDrafts_mapValues {f : Resource → Resource}
    (h : ∀ kind id r, c.get? ⟨kind, .draft, id⟩ = some r → kind.isRegistrable = true → f r = r) :
    registrableDrafts (Table.mapValues f c) = registrableDrafts c := by
  refine Table.ext_get? fun s => ?_
  rw [get?_registrableDrafts, get?_registrableDrafts, Table.get?_mapValues, Option.map_map]
  split
  · rename_i hregistrable
    refine Option.map_congr fun r hr => ?_
    exact congrArg Resource.document (h _ _ r hr hregistrable)
  · rfl

theorem registrableDrafts_linked (hc : c.Filed)
    (h : list ∈ RefList.hashOrder → child ∈ c.listed list parent) :
    registrableDrafts (c.linked parent child list) = registrableDrafts c := by
  refine registrableDrafts_mapValues fun kind id r hr hregistrable => ?_
  unfold Content.linkAt
  split
  · rename_i haddress
    cases (hc _ _ hr).symm.trans haddress
    have hlisted := h (mem_hashOrder_of_isRegistrable hregistrable)
    rw [Content.listed_of_get? hr] at hlisted
    rw [Resource.enlist, if_pos (List.contains_iff_mem.mpr hlisted)]
  · rfl

theorem registrableDrafts_unlinked (hc : c.Filed)
    (h : list ∈ RefList.hashOrder → ∀ i, child ∉ c.listed list i) :
    registrableDrafts (c.unlinked child list) = registrableDrafts c := by
  refine registrableDrafts_mapValues fun kind id r hr hregistrable => ?_
  unfold Content.unlinkAt
  split
  · rename_i hcontainer
    have hkind : kind = list.containerKind :=
      (congrArg Address.kind (hc _ _ hr)).symm.trans hcontainer.1
    subst hkind
    have hunlisted := h (mem_hashOrder_of_isRegistrable hregistrable) id
    rw [Content.listed_of_get? hr] at hunlisted
    rw [Resource.delist, if_neg (mt List.contains_iff_mem.mp hunlisted)]
  · rfl

/-- Linking a new draft leaves every registrable document alone exactly if no integration comes to
list it by that. -/
theorem registrableDrafts_placed_iff (hc : c.Filed) (hintact : c.Intact) (hr : r.Intact)
    (hspace : r.space = .draft) (hlist : list.childKind = r.kind)
    (hparent : c.Drafted list.containerKind parent) :
    registrableDrafts (placed c r (some (parent, list))) = registrableDrafts (c.file r) ↔
      (list ∈ RefList.hashOrder → r.id ∈ c.listed list parent) := by
  have hother : ¬ (list.containerKind = r.kind ∧ parent = r.id) :=
    fun h => list.childKind_ne_containerKind (hlist.trans h.1.symm)
  have hbefore : (c.file r).listed list parent = c.listed list parent := by
    rw [listed_file hspace, if_neg hother]
  constructor
  · intro hsame hhash
    apply Classical.byContradiction
    intro hunlisted
    have hlisted := listed_congr_registrable hhash (congrArg (Table.get? · ⟨.integration, parent⟩) hsame)
    rw [listed_placed hc hintact.storable hr.storable hspace hlist hparent, if_neg hother,
      if_pos ⟨rfl, rfl, hunlisted⟩, hbefore] at hlisted
    simp at hlisted
  · intro h
    refine registrableDrafts_linked (hc.file r) fun hhash => ?_
    rw [hbefore]
    exact h hhash

/-- Deleting a draft leaves every other registrable document alone exactly if no integration has
listed it. -/
theorem registrableDrafts_removed_iff (hc : c.Filed) (hintact : c.Intact) (kind : Kind)
    (id : String) :
    registrableDrafts (removed c kind id) = registrableDrafts (c.erase ⟨kind, .draft, id⟩) ↔
      ∀ list ∈ RefList.hashOrder, list.childKind = kind → ∀ i, id ∉ c.listed list i := by
  constructor
  · rintro hsame list hhash rfl i hmem
    have hcontainer := mem_hashOrder_iff.mp hhash
    have hother : ¬ (list.containerKind = list.childKind ∧ i = id) :=
      fun h => list.childKind_ne_containerKind h.1.symm
    have hlisted := listed_congr_registrable hhash (congrArg (Table.get? · ⟨.integration, i⟩) hsame)
    have hkept : Content.listed (c.erase ⟨list.childKind, .draft, id⟩) list i = c.listed list i := by
      have haddress : (⟨list.containerKind, .draft, i⟩ : Address) ≠ ⟨list.childKind, .draft, id⟩ :=
        fun h => hother ⟨congrArg Address.kind h, congrArg Address.id h⟩
      rw [Content.listed, Table.get?_erase, if_neg haddress]
      rfl
    rw [listed_removed hc hintact.storable, if_neg hother, if_pos rfl, hkept] at hlisted
    rw [← hlisted] at hmem
    simp at hmem
  · intro h
    unfold removed delisted
    split
    · rename_i list hlist
      have hunlinked : registrableDrafts (c.unlinked id list) = registrableDrafts c :=
        registrableDrafts_unlinked hc fun hhash =>
          h list hhash (RefList.ofChild?_eq_some_iff.mp hlist)
      refine Table.ext_get? fun s => ?_
      refine (get?_registrableDrafts_erase _ kind id s).trans ?_
      rw [hunlinked, get?_registrableDrafts_erase]
    · rfl

end Rewrites

section Step

variable {call : Call}

/-- While the service accepts everything, a call that fails has not changed what is registered. -/
theorem Ready.kept_or_done (hd : Ready d) (hg : d.registry.Accepting) (call : Call) :
    (¬ call.Succeeds d ∧ (call.after d).store.content = d.store.content ∧
      (call.after d).registry = d.registry) ∨
    (call.Succeeds d ∧ Done d.worktop call (call.after d)) := by
  obtain ⟨hfails, hvoid⟩ | hdone := hd.void_or_done call
  · exact .inl ⟨hfails, hvoid.content, eq_of_declined hvoid.registry hg⟩
  · exact .inr hdone

theorem accepting_after (hd : Ready d) (hg : d.registry.Accepting) (call : Call) :
    (call.after d).registry.Accepting := by
  obtain ⟨-, -, hregistry⟩ | ⟨-, c, g, hworked, -, hregistry, -⟩ := hd.kept_or_done hg call
  · rw [hregistry]
    exact hg
  · rw [hregistry]
    cases hworked with
    | create _ _ _ => exact (hg.took_told _).accepting hg
    | update _ _ => exact (hg.took_told _).accepting hg
    | delete _ _ _ => exact (hg.took_told _).accepting hg

theorem Tracks.after (h : Tracks d.registry.registered d.store.content) (hd : Ready d)
    (hg : d.registry.Accepting) (call : Call) :
    Tracks (call.after d).registry.registered (call.after d).store.content := by
  have htold (task : Option Task) : (d.worktop.registry.told task).registered =
      d.registry.registered.takeAll task.toList := (hg.took_told task).registered
  obtain ⟨-, hcontent, hregistry⟩ | ⟨-, c, g, hworked, hrefreshed, hregistry, -⟩ :=
    hd.kept_or_done hg call
  · rw [hcontent, hregistry]
    exact h
  · refine Tracks.congr ?_ hrefreshed.sameBare
    rw [hregistry]
    cases hworked with
    | create hkind hposition hr =>
      obtain ⟨hintact, -, hspace, -, -⟩ := created hr
      rw [htold]
      exact h.placed hd.filed hd.intact hintact hspace _
    | update hstored hr =>
      obtain ⟨hintact, -, hspace, -, -⟩ := updated (hd.filed _ _ hstored) hr
      rw [htold]
      exact h.filed hintact hspace
    | delete hstored hkind hchildless =>
      rw [htold]
      exact h.removed hd.filed hd.intact _ _

/-- The registered documents are exactly those of the draft integrations and rules. -/
def InStep (d : Desk) : Prop := d.registry.registered = registrableDrafts d.store.content

/-- The call changes what an integration lists, without being about the integration. -/
def Call.Relists (call : Call) (d : Desk) : Prop :=
  call.Succeeds d ∧ ∃ list ∈ RefList.hashOrder,
    match call with
    | .create id kind _ (some parent) =>
      list.childKind = kind ∧ id ∉ d.store.content.listed list parent
    | .delete kind id => list.childKind = kind ∧ ∃ i, id ∈ d.store.content.listed list i
    | _ => False

theorem relists_create_iff {id : String} {kind : Kind} {document : Json} {parent : Option String}
    {position : Option (String × RefList)}
    (hposition : Placed d.store.content kind parent position)
    (hsucceeds : (Call.create id kind document parent).Succeeds d) :
    (Call.create id kind document parent).Relists d ↔ ∃ container list,
      position = some (container, list) ∧ list ∈ RefList.hashOrder ∧
        id ∉ d.store.content.listed list container := by
  constructor
  · rintro ⟨-, list, hhash, hchanged⟩
    cases parent with
    | none => exact hchanged.elim
    | some parent =>
      cases position with
      | none =>
        have hcontainer := (hposition list hchanged.1).1
        cases hcontainer.symm.trans (mem_hashOrder_iff.mp hhash)
      | some position =>
        obtain ⟨container, list'⟩ := position
        obtain ⟨hlist, -, hparent⟩ := hposition
        obtain rfl : list = list' := RefList.childKind_injective (hchanged.1.trans hlist.symm)
        cases hparent (mem_hashOrder_iff.mp hhash)
        exact ⟨parent, list, rfl, hhash, hchanged.2⟩
  · rintro ⟨container, list, rfl, hhash, hunlisted⟩
    obtain ⟨hlist, -, hparent⟩ := hposition
    cases hparent (mem_hashOrder_iff.mp hhash)
    exact ⟨hsucceeds, list, hhash, hlist, hunlisted⟩

/-- A call that succeeds has registered what it is about, so that only a list which it has changed
elsewhere can be out of step. -/
theorem InStep.after_iff (h : InStep d) (hd : Ready d) (hg : d.registry.Accepting) (call : Call) :
    InStep (call.after d) ↔ ¬ call.Relists d := by
  have htold (task : Option Task) : (d.worktop.registry.told task).registered =
      (registrableDrafts d.store.content).takeAll task.toList := by
    rw [← h]
    exact (hg.took_told task).registered
  obtain ⟨hfails, hcontent, hregistry⟩ | ⟨hsucceeds, c, g, hworked, hrefreshed, hregistry, -⟩ :=
    hd.kept_or_done hg call
  · rw [InStep, hcontent, hregistry]
    exact ⟨fun _ hrelists => hfails hrelists.1, fun _ => h⟩
  rw [InStep, registrableDrafts_congr hrefreshed.sameBare, hregistry]
  cases hworked with
  | create hkind hposition hr =>
    rename_i id kind fs parent position r
    obtain ⟨hintact, rfl, hspace, rfl, -⟩ := created hr
    rw [htold, takeAll_upsert?_registrableDrafts hintact hspace,
      relists_create_iff hposition hsucceeds]
    cases position with
    | none =>
      refine ⟨fun _ hlinked => ?_, fun _ => rfl⟩
      obtain ⟨_, _, hnone, -⟩ := hlinked
      cases hnone
    | some position =>
      obtain ⟨container, list⟩ := position
      refine eq_comm.trans ((registrableDrafts_placed_iff hd.filed hd.intact hintact hspace
        hposition.1 hposition.2.1).trans ?_)
      constructor
      · rintro hlisted ⟨_, _, hsame, hhash, hunlisted⟩
        cases hsame
        exact hunlisted (hlisted hhash)
      · intro hkept hhash
        apply Classical.byContradiction
        intro hunlisted
        exact hkept ⟨container, list, rfl, hhash, hunlisted⟩
  | update hstored hr =>
    obtain ⟨hintact, -, hspace, -, -⟩ := updated (hd.filed _ _ hstored) hr
    rw [htold, takeAll_upsert?_registrableDrafts hintact hspace]
    refine ⟨fun _ hrelists => ?_, fun _ => rfl⟩
    obtain ⟨-, list, -, hchanged⟩ := hrelists
    exact hchanged
  | delete hstored hkind hchildless =>
    rename_i kind id stored
    rw [htold, takeAll_delete?_registrableDrafts]
    refine eq_comm.trans ((registrableDrafts_removed_iff hd.filed hd.intact kind id).trans ?_)
    constructor
    · rintro hunlisted ⟨-, list, hhash, hlist, i, hmem⟩
      exact hunlisted list hhash hlist i hmem
    · intro hkept list hhash hlist i hmem
      exact hkept ⟨hsucceeds, list, hhash, hlist, i, hmem⟩

end Step

section Session

variable {calls : List Call}

theorem accepting_afterAll (hd : Ready d) (hg : d.registry.Accepting) (calls : List Call) :
    (afterAll calls d).registry.Accepting := by
  induction calls generalizing d with
  | nil => exact hg
  | cons call calls ih => exact ih (hd.after call) (accepting_after hd hg call)

theorem Tracks.afterAll (h : Tracks d.registry.registered d.store.content) (hd : Ready d)
    (hg : d.registry.Accepting) (calls : List Call) :
    Tracks (afterAll calls d).registry.registered (afterAll calls d).store.content := by
  induction calls generalizing d with
  | nil => exact h
  | cons call calls ih => exact ih (h.after hd hg call) (hd.after call) (accepting_after hd hg call)

theorem Begun.inStep (h : Begun d) (hempty : d.registry.registered = .empty) : InStep d := by
  rw [InStep, hempty]
  refine Table.ext_get? fun s => ?_
  rw [get?_registrableDrafts, Table.get?_empty]
  split
  · rename_i hregistrable
    cases hr : d.store.content.get? ⟨s.kind, .draft, s.id⟩ with
    | none => rfl
    | some r =>
      have hkind : r.kind = s.kind := congrArg Address.kind (h.ready.filed _ _ hr)
      rw [← hkind, (h.ofDefaults _ _ hr).1] at hregistrable
      cases hregistrable
  · rfl

/-- In every state of a session every rule is registered as stored, and every integration but for its
lists. The lists agree as well, in every state, exactly if no call changes what an integration lists
without being about the integration. -/
theorem tracks_and_inStep_iff (hd : Begun d) (hempty : d.registry.registered = .empty)
    (hg : d.registry.Accepting) :
    (∀ part, part <+: calls →
      Tracks (afterAll part d).registry.registered (afterAll part d).store.content) ∧
    ((∀ part, part <+: calls → InStep (afterAll part d)) ↔
      ∀ part call, part ++ [call] <+: calls → ¬ call.Relists (afterAll part d)) := by
  have hbegun := hd.inStep hempty
  have hafter (part : List Call) (call : Call) (h : InStep (afterAll part d)) :
      InStep (afterAll (part ++ [call]) d) ↔ ¬ call.Relists (afterAll part d) := by
    rw [afterAll_concat]
    exact h.after_iff (hd.ready.afterAll part) (accepting_afterAll hd.ready hg part) call
  refine ⟨fun part _ => ?_, ?_, ?_⟩
  · have htracks : Tracks d.registry.registered d.store.content := by
      rw [hbegun]
      exact tracks_registrableDrafts _
    exact htracks.afterAll hd.ready hg part
  · intro hstep part call hpart
    have hbefore : part <+: calls := (List.prefix_append part [call]).trans hpart
    exact (hafter part call (hstep part hbefore)).mp (hstep _ hpart)
  · intro hkept part hpart
    -- Only from a state in step can the next call be judged by what it relists.
    induction part using List.reverseRecOn with
    | nil => exact hbegun
    | append_singleton part call ih =>
      have hbefore : part <+: calls := (List.prefix_append part [call]).trans hpart
      exact (hafter part call (ih hbefore)).mpr (hkept part call hpart)

end Session

section Trial

theorem not_relists_trialIntegration (d : Desk) : ¬ trialIntegration.Relists d := by
  rintro ⟨-, list, -, hchanged⟩
  exact hchanged

theorem trial_tracks_and_inStep : Begun trialDesk ∧ trialDesk.registry.registered = .empty ∧
    trialDesk.registry.Accepting ∧ ∀ part, part <+: [trialIntegration] →
      Tracks (afterAll part trialDesk).registry.registered (afterAll part trialDesk).store.content ∧
        InStep (afterAll part trialDesk) := by
  have haccepting : trialDesk.registry.Accepting := fun _ _ => rfl
  obtain ⟨htracks, hstep⟩ := tracks_and_inStep_iff begun_trialDesk rfl haccepting
  refine ⟨begun_trialDesk, rfl, haccepting, fun part hpart => ⟨htracks part hpart, ?_⟩⟩
  refine hstep.mpr (fun part call hcall => ?_) part hpart
  have hmem : call ∈ [trialIntegration] :=
    hcall.subset (List.mem_append_right part List.mem_cons_self)
  rw [List.mem_singleton.mp hmem]
  exact not_relists_trialIntegration _

/-- A rule is created under an integration, which lists it from then on and is not registered anew. -/
theorem rule_not_inStep : Begun trialDesk ∧ trialDesk.registry.registered = .empty ∧
    trialDesk.registry.Accepting ∧ ¬ InStep (afterAll [trialIntegration, trialRule] trialDesk) := by
  have haccepting : trialDesk.registry.Accepting := fun _ _ => rfl
  have hready := begun_trialDesk.ready
  have hbefore : InStep (trialIntegration.after trialDesk) :=
    ((begun_trialDesk.inStep rfl).after_iff hready haccepting trialIntegration).mpr
      (not_relists_trialIntegration trialDesk)
  have hsucceeds : trialRule.Succeeds (trialIntegration.after trialDesk) := by decide +kernel
  have hunlisted : "r" ∉ (trialIntegration.after trialDesk).store.content.listed .rules "i" := by
    decide +kernel
  have hrelists : trialRule.Relists (trialIntegration.after trialDesk) :=
    ⟨hsucceeds, .rules, by decide, rfl, hunlisted⟩
  have hafter := hbefore.after_iff (hready.after trialIntegration)
    (accepting_after hready haccepting trialIntegration) trialRule
  have hsession := afterAll_concat [trialIntegration] trialRule trialDesk
  rw [afterAll_singleton] at hsession
  refine ⟨begun_trialDesk, rfl, haccepting, ?_⟩
  rw [← hsession] at hafter
  exact fun hstep => hafter.mp hstep hrelists

end Trial

end Draft

end ContentSpaces
