import ContentSpaces.Proofs.Draft.Links

/-!
# Calls of the draft service

A call that succeeds makes the write it was asked for and the writes to the lists of containers that
go with it; then the containers get their aggregates. A call that fails leaves the content alone.
-/

namespace ContentSpaces

def Registry.told (g : Registry) : Option Task → Registry
  | some task => (Registry.request task g).2
  | none => g

namespace Draft

open Desk

/-- A call of the draft service. The ID of a new draft is drawn by the caller. -/
inductive Call where
  | create (id : String) (kind : Kind) (document : Json) (parent : Option String)
  | update (kind : Kind) (id : String) (document : Json)
  | delete (kind : Kind) (id : String)

def Call.run : Call → EditM Unit
  | .create id kind document parent => Draft.create id kind document parent
  | .update kind id document => Draft.update kind id document
  | .delete kind id => Draft.delete kind id

def Call.after (call : Call) (d : Desk) : Desk :=
  match call.run d with
  | .ok _ d' => d'
  | .error _ d' => d'

variable {w : Worktop} {E : EditError → Desk → Prop}

/-- Where a new draft of a kind with a given parent is linked. -/
def Placed (c : Content) (kind : Kind) (parent : Option String) :
    Option (String × RefList) → Prop
  | some (container, list) =>
    list.childKind = kind ∧ (c.get? ⟨list.containerKind, .draft, container⟩).isSome ∧
      (list.containerKind = .integration → parent = some container)
  | none => ∀ list : RefList, list.childKind = kind →
    list.containerKind = .policy ∧ c.policy? .draft = none

def placed (c : Content) (r : Resource) : Option (String × RefList) → Content
  | some (parent, list) => (c.file r).linked parent r.id list
  | none => c.file r

def delisted (c : Content) (kind : Kind) (id : String) : Content :=
  match RefList.ofChild? kind with
  | some list => c.unlinked id list
  | none => c

def removed (c : Content) (kind : Kind) (id : String) : Content :=
  (delisted c kind id).erase ⟨kind, .draft, id⟩

/-- What a call that succeeds has written before the aggregates, and the service after it. -/
inductive Worked (w : Worktop) : Call → Content → Registry → Prop
  | create {id : String} {kind : Kind} {fs : Json.Fields} {parent : Option String}
      {position : Option (String × RefList)} {r : Resource}
      (hkind : kind ≠ .policy ∧ kind ≠ .ioc) (hposition : Placed w.content kind parent position)
      (hr : Resource.create kind .draft (newDocument kind id fs) = .ok r) :
      Worked w (.create id kind (.object fs) parent) (placed w.content r position)
        (w.registry.told (Task.upsert? r))
  | update {kind : Kind} {id : String} {fs : Json.Fields} {stored r : Resource}
      (hstored : w.content.get? ⟨kind, .draft, id⟩ = some stored)
      (hr : stored.withDocument (keep kind id stored.document fs) = .ok r) :
      Worked w (.update kind id (.object fs)) (w.content.file r)
        (w.registry.told (Task.upsert? r))
  | delete {kind : Kind} {id : String} {stored : Resource}
      (hstored : w.content.get? ⟨kind, .draft, id⟩ = some stored) (hkind : kind ≠ .policy)
      (hchildless : kind = .integration → ∀ list ∈ RefList.deleteOrder, stored.references list = []) :
      Worked w (.delete kind id) (removed w.content kind id)
        (w.registry.told (Task.delete? kind id))

/-- The service after a call that fails: nothing was asked, or a deletion was refused. -/
def Declined (g g' : Registry) : Prop :=
  g' = g ∨ ∃ kind id e, Registry.request (.delete kind id) g = (.error e, g') ∧ e.isNotFound = false

section Parts

theorem ensures_register (r : Resource) :
    Ensures (At w) (register r)
      (fun _ => At { w with registry := w.registry.told (Task.upsert? r) }) E := by
  unfold register Task.upsert?
  split
  · exact Ensures.bind (ensures_request _) fun answer => .pure fun _ hd => hd.2
  · exact .pure fun _ hd => hd

theorem ensures_unregister (kind : Kind) (id : String) :
    Ensures (At w) (unregister kind id)
      (fun _ => At { w with registry := w.registry.told (Task.delete? kind id) })
      (fun _ d => ∃ g, Declined w.registry g ∧ At { w with registry := g } d) := by
  unfold unregister Task.delete?
  split
  · refine Ensures.bind (ensures_request _) fun answer => .of_and fun hanswer => ?_
    split
    · exact .pure fun _ hd => hd
    · rename_i e
      split
      · rename_i hrefused
        refine .throw fun d hd => ⟨_, .inr ⟨kind, id, e, ?_, ?_⟩, hd⟩
        · rw [hanswer]
          rfl
        · simpa using hrefused
      · exact .pure fun _ hd => hd
  · exact .pure fun _ hd => hd

def isDraftContainer (a : Address) : Bool := a.space == .draft && a.kind.isContainer

theorem ensures_recalculate (hfiled : w.content.Filed) :
    Ensures (At w) recalculate
      (fun _ d => Content.Refreshed isDraftContainer w.content d.store.content ∧
        d.registry = w.registry ∧ d.store.Up) E := by
  refine Ensures.bind (ensures_onStore (Q := fun _ c =>
    Content.Refreshed isDraftContainer w.content c) (R := fun _ _ => True) ?_
    (Store.answers_recalculate [.draft])) fun _ => .of_exists fun c => .of_and fun hc => ?_
  · refine Ensures.bind ((Store.ensures_recalculateAmong [.draft] hfiled).mono_error
      fun _ _ _ => trivial) fun _ => .pure ?_
    rintro s ⟨hrefreshed, -⟩
    refine hrefreshed.congr fun a r hr => ?_
    rw [isDraftContainer, List.contains_cons, List.contains_nil, Bool.or_false]
  · refine .pure fun d hd => ⟨?_, hd.registry, hd.up⟩
    rw [hd.content]
    exact hc

theorem eq_object_of_fields {document : Json} {fs : Json.Fields} (h : fields document = .ok fs) :
    document = .object fs := by
  unfold fields at h
  split at h
  · split at h
    · cases h
      rfl
    · cases h
  · cases h

theorem ensures_place (hfiled : w.content.Filed) (kind : Kind) (parent : Option String) :
    Ensures (At w) (place kind parent)
      (fun position d => Placed w.content kind parent position ∧ At w d) (fun _ => At w) := by
  unfold place
  split
  · exact .throw fun _ hd => hd
  · rename_i list parent hlist
    refine Ensures.bind (ensures_onStore_of_reads (Store.reads_exists? _)
      (Store.Answers.bind (.call _ _) fun _ => .pure _)) fun there => .of_and fun hthere => ?_
    have hlist : list.containerKind = .integration ∧ list.childKind = kind := by
      cases kind <;> cases hlist <;> exact ⟨rfl, rfl⟩
    split
    · rename_i hsome
      refine .pure fun d hd => ⟨⟨hlist.2, ?_, fun _ => rfl⟩, hd⟩
      rw [hlist.1, ← hthere, hsome]
    · exact .throw fun _ hd => hd
  · rename_i hnone
    split
    · rename_i hunlisted
      refine .pure fun d hd => ⟨fun list hlist => ?_, hd⟩
      rw [RefList.ofChild?_eq_some_iff.mpr hlist] at hunlisted
      cases hunlisted
    · rename_i list hlist
      refine Ensures.bind (ensures_onStore_of_reads (Store.reads_policy? .draft)
        (Store.answers_policy? .draft)) fun policy => .of_and fun hpolicy => .pure fun d hd => ⟨?_, hd⟩
      replace hpolicy : w.content.policy? .draft = policy := hpolicy.symm
      have hlist : list.containerKind = .policy ∧ list.childKind = kind := by
        cases kind <;> cases hnone <;> cases hlist <;> exact ⟨rfl, rfl⟩
      cases policy with
      | none =>
        intro list' hlist'
        rw [RefList.childKind_injective (hlist'.trans hlist.2.symm)]
        exact ⟨hlist.1, hpolicy⟩
      | some policy =>
        refine ⟨hlist.2, ?_, fun h => ?_⟩
        · rw [hlist.1, hfiled.get?_of_policy? hpolicy]
          rfl
        · cases hlist.1.symm.trans h

end Parts

section Worked

variable {call : Call} {c : Content} {g : Registry}

theorem filed_placed (hc : c.Filed) (r : Resource) (position : Option (String × RefList)) :
    (placed c r position).Filed := by
  cases position with
  | none => exact hc.file r
  | some position => exact (hc.file r).mapValues (Content.relisted_linkAt _ _ _)

theorem intact_placed (hc : c.Intact) {r : Resource} (hr : r.Intact)
    (position : Option (String × RefList)) : (placed c r position).Intact := by
  cases position with
  | none => exact hc.file hr
  | some position => exact (hc.file hr).mapValues (Content.relisted_linkAt _ _ _)

theorem filed_delisted (hc : c.Filed) (kind : Kind) (id : String) : (delisted c kind id).Filed := by
  unfold delisted
  split
  · exact hc.mapValues (Content.relisted_unlinkAt _ _)
  · exact hc

theorem intact_delisted (hc : c.Intact) (kind : Kind) (id : String) :
    (delisted c kind id).Intact := by
  unfold delisted
  split
  · exact hc.mapValues (Content.relisted_unlinkAt _ _)
  · exact hc

theorem filed_removed (hc : c.Filed) (kind : Kind) (id : String) : (removed c kind id).Filed :=
  Content.forall_get?_of_imp (filed_delisted hc kind id) fun _ _ => Content.get?_of_get?_erase

theorem intact_removed (hc : c.Intact) (kind : Kind) (id : String) : (removed c kind id).Intact :=
  Content.forall_get?_of_imp (intact_delisted hc kind id) fun _ _ => Content.get?_of_get?_erase

theorem Worked.filed (h : Worked w call c g) (hw : w.content.Filed) : c.Filed := by
  cases h with
  | create _ _ _ => exact filed_placed hw _ _
  | update _ _ => exact hw.file _
  | delete _ _ _ => exact filed_removed hw _ _

theorem Worked.intact (h : Worked w call c g) (hw : w.content.Intact) : c.Intact := by
  cases h with
  | create _ _ hr => exact intact_placed hw (Resource.create_intact hr) _
  | update _ hr =>
    obtain ⟨hdocument, rfl⟩ := Resource.withDocument_eq_ok_iff.mp hr
    exact hw.file ⟨hdocument, rfl⟩
  | delete _ _ _ => exact intact_removed hw _ _

end Worked

section Runs

def Done (w : Worktop) (call : Call) (d : Desk) : Prop :=
  ∃ c g, Worked w call c g ∧ Content.Refreshed isDraftContainer c d.store.content ∧
    d.registry = g ∧ d.store.Up

structure Void (w : Worktop) (d : Desk) : Prop where
  content : d.store.content = w.content
  registry : Declined w.registry d.registry
  up : d.store.Up

theorem void_of_at {w' : Worktop} {d : Desk} (hd : At w' d) (hcontent : w'.content = w.content)
    (hregistry : Declined w.registry w'.registry) : Void w d :=
  ⟨hd.content.trans hcontent, hd.registry ▸ hregistry, hd.up⟩

/-- Every call ends with a registration, if any, and the aggregates. -/
theorem ensures_conclude {call : Call} {c : Content} {v : Validator} {g : Registry}
    (h : Worked w call c g) (hw : w.content.Filed) :
    Ensures (At ⟨c, v, g⟩) recalculate (fun _ => Done w call) E := by
  refine (ensures_recalculate (w := ⟨c, v, g⟩) (h.filed hw)).mono_ok ?_
  rintro _ d ⟨hrefreshed, hregistry, hup⟩
  exact ⟨c, g, h, hrefreshed, hregistry, hup⟩

theorem ensures_validateDraft (kind : Kind) (document : Json) :
    Ensures (At w) (validate kind document) (fun _ d => ∃ v, At { w with validator := v } d)
      (fun _ => Void w) := by
  refine (ensures_validate kind document).mono (fun _ hd => hd) ?_ ?_
  · rintro _ d ⟨-, hd⟩
    exact ⟨_, hd⟩
  · rintro _ d ⟨-, hd⟩
    exact void_of_at hd rfl (.inl rfl)

theorem ensures_fields (document : Json) :
    Ensures (At w) (ofExcept (fields document) : EditM Json.Fields)
      (fun fs d => document = .object fs ∧ At w d) (fun _ => Void w) :=
  .ofExcept (fun _ _ hfs hd => ⟨eq_object_of_fields hfs, hd⟩)
    fun _ _ _ hd => void_of_at hd rfl (.inl rfl)

theorem ensures_checked {α : Type} (x : Except ContentError α) (v : Validator) :
    Ensures (At { w with validator := v }) (onStore (ofExcept x))
      (fun a d => x = .ok a ∧ At { w with validator := v } d) (fun _ => Void w) := by
  intro d hd
  cases x with
  | ok a => exact ⟨rfl, hd⟩
  | error e => exact void_of_at hd rfl (.inl rfl)

theorem ensures_create (hfiled : w.content.Filed) (hstorable : w.content.Storable) (id : String)
    (kind : Kind) (document : Json) (parent : Option String) :
    Ensures (At w) (Draft.create id kind document parent)
      (fun _ => Done w (.create id kind document parent)) (fun _ => Void w) := by
  have hvoid (d : Desk) (hd : At w d) : Void w d := void_of_at hd rfl (.inl rfl)
  unfold Draft.create
  split
  · exact .throw_bind hvoid
  rename_i hkind
  rw [not_or] at hkind
  refine Ensures.bind (ensures_fields document) fun fs => .of_and ?_
  rintro rfl
  refine Ensures.bind ((ensures_place hfiled kind parent).mono_error fun _ => hvoid)
    fun position => .of_and fun hposition => ?_
  refine Ensures.bind (ensures_validateDraft kind _) fun _ => .of_exists fun v => ?_
  refine Ensures.bind (ensures_checked _ v) fun r => .of_and fun hr => ?_
  -- From here on nothing can fail: the container to link to is known to be there.
  have hconclude : Ensures (At { w with content := placed w.content r position, validator := v })
      (register r >>= fun _ => recalculate)
      (fun _ => Done w (.create id kind (.object fs) parent)) (fun _ => Void w) :=
    Ensures.bind (ensures_register r) fun _ => ensures_conclude (.create hkind hposition hr) hfiled
  cases position with
  | none =>
    exact Ensures.bind (ensures_onStore_create r) fun _ => hconclude
  | some position =>
    refine Ensures.bind (ensures_createLinked (w := { w with validator := v }) hfiled hstorable
      (Resource.create_intact hr).storable hposition.2.1) fun _ => hconclude

theorem ensures_update (hfiled : w.content.Filed) (kind : Kind) (id : String) (document : Json) :
    Ensures (At w) (Draft.update kind id document)
      (fun _ => Done w (.update kind id document)) (fun _ => Void w) := by
  refine Ensures.bind ((ensures_require _).mono_error fun _ d hd => void_of_at hd.2 rfl (.inl rfl))
    fun stored => .of_and fun hstored => ?_
  refine Ensures.bind (ensures_fields document) fun fs => .of_and ?_
  rintro rfl
  refine Ensures.bind (ensures_validateDraft kind _) fun _ => .of_exists fun v => ?_
  refine Ensures.bind (ensures_checked _ v) fun r => .of_and fun hr => ?_
  refine Ensures.bind (ensures_onStore_create r) fun _ => ?_
  exact Ensures.bind (ensures_register r) fun _ => ensures_conclude (.update hstored hr) hfiled

theorem ensures_delete (hfiled : w.content.Filed) (hstorable : w.content.Storable) (kind : Kind)
    (id : String) :
    Ensures (At w) (Draft.delete kind id) (fun _ => Done w (.delete kind id))
      (fun _ => Void w) := by
  have hvoid (d : Desk) (hd : At w d) : Void w d := void_of_at hd rfl (.inl rfl)
  refine Ensures.bind ((ensures_require _).mono_error fun _ d hd => hvoid d hd.2)
    fun stored => .of_and fun hstored => ?_
  extract_lets drop finish check
  split
  · exact .throw_bind hvoid
  rename_i hkind
  have hfinish (hchildless : kind = .integration → ∀ list ∈ RefList.deleteOrder,
      stored.references list = []) :
      Ensures (At w) (finish ()) (fun _ => Done w (.delete kind id)) (fun _ => Void w) := by
    have hworked := Worked.delete (w := w) hstored hkind hchildless
    -- The service is asked before the first write, so its refusal leaves the content alone.
    refine Ensures.bind ((ensures_unregister kind id).mono_error ?_) fun _ => ?_
    · rintro _ d ⟨g, hdeclined, hd⟩
      exact void_of_at hd rfl hdeclined
    unfold removed delisted at hworked
    cases hlist : RefList.ofChild? kind with
    | none =>
      rw [hlist] at hworked
      refine Ensures.bind (ensures_onStore_delete _) fun _ => ?_
      exact ensures_conclude hworked hfiled
    | some list =>
      rw [hlist] at hworked
      let told : Worktop := { w with registry := w.registry.told (Task.delete? kind id) }
      refine Ensures.bind (ensures_unlink (w := told) hfiled hstorable id list) fun _ =>
        Ensures.bind (ensures_onStore_delete _) fun _ => ?_
      exact ensures_conclude hworked hfiled
  unfold check
  split
  · rename_i hintegration
    refine Ensures.bind (.ofExcept (Q := fun _ d => (∀ list ∈ RefList.deleteOrder,
      stored.references list = []) ∧ At w d) ?_ fun _ d _ hd => hvoid d hd) fun _ =>
        .of_and fun hchildless => hfinish fun _ => hchildless
    intro _ d hchecked hd
    refine ⟨fun list hlist => ?_, hd⟩
    unfold checkDeletable at hchecked
    split at hchecked
    · cases hchecked
    · rename_i hnone
      simpa using List.find?_eq_none.mp hnone list hlist
  · rename_i hother
    exact hfinish fun h => absurd h hother

theorem ensures_run (hfiled : w.content.Filed) (hstorable : w.content.Storable) (call : Call) :
    Ensures (At w) call.run (fun _ => Done w call) (fun _ => Void w) := by
  cases call with
  | create id kind document parent => exact ensures_create hfiled hstorable id kind document parent
  | update kind id document => exact ensures_update hfiled kind id document
  | delete kind id => exact ensures_delete hfiled hstorable kind id

end Runs

end Draft

end ContentSpaces
