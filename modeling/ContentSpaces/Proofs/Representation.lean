import ContentSpaces.Proofs.Isolation

/-!
# What a store holds

Resources come about by a few functions, each of which checks and hashes the document it is given.
So whatever is done to an empty store, and whatever fails meanwhile, each resource stands under its
own kind, space and ID with the digest of its document.
-/

namespace ContentSpaces

namespace Resource

variable {r r' : Resource}

/-- The ways in which resources come about, short of reading them back from where they were kept. -/
inductive Made : Resource → Prop
  | create {kind : Kind} {space : Space} {document : Json} {r : Resource}
      (h : create kind space document = .ok r) : Made r
  | ingest {kind : Kind} {space : Space} {document : Json} {r : Resource}
      (h : ingest kind space document = .ok r) : Made r
  | inSpace {r : Resource} (h : Made r) (space : Space) : Made (r.inSpace space)
  | withAggregate {r : Resource} (h : Made r) (digest : String) : Made (r.withAggregate digest)
  | withDocument {r r' : Resource} {document : Json} (h : Made r)
      (h' : r.withDocument document = .ok r') : Made r'
  | applyPatch {r r' : Resource} {ops : List Patch.Operation} (h : Made r)
      (h' : r.applyPatch ops = .ok r') : Made r'
  | withReferences {r r' : Resource} {list : RefList} {ids : List String} (h : Made r)
      (h' : r.withReferences list ids = .ok r') : Made r'

theorem Made.intact (h : Made r) : r.Intact := by
  induction h with
  | create h => exact create_intact h
  | ingest h => exact create_intact h
  | inSpace _ space ih => exact ⟨ih.document, ih.hash⟩
  | withAggregate _ digest ih => exact ih.withAggregate digest
  | withDocument _ h' _ => exact (withDocument_keeps h').2.2
  | applyPatch _ h' _ => exact (applyPatch_keeps h').2.2
  | withReferences _ h' _ => exact (withReferences_keeps h').2.2

/-- An intact resource could have been made from its parts, so one that is read may be written. -/
theorem made_iff_intact : Made r ↔ r.Intact := by
  constructor
  · exact Made.intact
  · intro h
    obtain ⟨kind, document, space, aggregate, hash⟩ := r
    obtain rfl : hash = Digest.ofDocument document := h.hash
    have hbare : Made ⟨kind, document, space, none, Digest.ofDocument document⟩ :=
      .create (create_eq_ok_iff.mpr ⟨h.document, rfl⟩)
    cases aggregate with
    | none => exact hbare
    | some digest => exact hbare.withAggregate digest

/-- The resource stands where it belongs, and its parts agree with each other. -/
structure Represents (r : Resource) (a : Address) : Prop where
  kind : r.kind = a.kind
  space : r.space = a.space
  id : r.document.stringField? "id" = some a.id
  named : a.id ≠ ""
  object : ∃ fs, r.document = .object fs
  hash : r.hash = Digest.ofDocument r.document

theorem Intact.represents {a : Address} (h : r.Intact) (ha : r.address = a) : r.Represents a := by
  subst ha
  obtain ⟨fs, hfs⟩ := h.exists_fields
  refine ⟨rfl, rfl, h.stringField_id, ?_, ⟨fs, hfs⟩, h.hash⟩
  have hchecked := h.document
  rw [hfs, checkDocument_object, ← hfs] at hchecked
  exact hchecked

end Resource

inductive Store.Operation where
  | get (address : Address)
  | require (address : Address)
  | contains (address : Address)
  | locate (space : Space) (id : String)
  | search (kind : Kind) (space : Space)
  | create (r : Resource) (made : r.Made)
  | createAll (rs : List Resource) (made : ∀ r ∈ rs, r.Made)
  | update (address : Address) (ops : List Patch.Operation)
  | delete (address : Address)
  | clear (kind : Kind) (space : Space)
  | hashesOf (kind : Kind) (space : Space)
  | resourcesOf (space : Space)
  | policy (space : Space)
  | integrationHash (space : Space) (id : String)
  | recalculate (spaces : List Space)
  | initializeSpaces

def Store.Operation.after : Store.Operation → Store → Store
  | .get a => ContentSpaces.after (Store.get? a)
  | .require a => ContentSpaces.after (Store.require a)
  | .contains a => ContentSpaces.after (Store.exists? a)
  | .locate space id => ContentSpaces.after (Store.locate space id)
  | .search kind space => ContentSpaces.after (Store.search kind space)
  | .create r _ => ContentSpaces.after (Store.create r)
  | .createAll rs _ => ContentSpaces.after (Store.createAll rs)
  | .update a ops => ContentSpaces.after (Store.update a ops)
  | .delete a => ContentSpaces.after (Store.delete a)
  | .clear kind space => ContentSpaces.after (Store.clear kind space)
  | .hashesOf kind space => ContentSpaces.after (Store.hashesOf kind space)
  | .resourcesOf space => ContentSpaces.after (Store.resourcesOf space)
  | .policy space => ContentSpaces.after (Store.policy? space)
  | .integrationHash space id => ContentSpaces.after (Store.integrationHash? space id)
  | .recalculate spaces => ContentSpaces.after (Store.recalculate spaces)
  | .initializeSpaces => ContentSpaces.after Store.initializeSpaces

inductive Desk.Operation where
  | link (parent child : String) (list : RefList)
  | unlink (child : String) (list : RefList)
  | createLinked (child : Resource) (made : child.Made) (parent : String) (list : RefList)
  | draft (call : Draft.Call)
  | preview (source : Space)
  | execute (excluded : List Space) (request : Promotion.Request)

def Desk.Operation.after : Desk.Operation → Desk → Desk
  | .link parent child list => ContentSpaces.after (Draft.link parent child list)
  | .unlink child list => ContentSpaces.after (Draft.unlink child list)
  | .createLinked child _ parent list => ContentSpaces.after (Draft.createLinked child parent list)
  | .draft call => ContentSpaces.after call.run
  | .preview source => ContentSpaces.after (Promotion.preview source)
  | .execute excluded request => ContentSpaces.after (Promotion.execute excluded request)

inductive Replica.Operation where
  | bootstrap (cfg : Config) (remote : Remote) (url : String) (offset : Nat)
  | update (cfg : Config) (remote : Remote) (lower upper : Nat)
  | synchronize (cfg : Config) (remote : Remote)

def Replica.Operation.after : Replica.Operation → Replica → Replica
  | .bootstrap cfg remote url offset =>
    ContentSpaces.after (Snapshot.bootstrap cfg remote url offset)
  | .update cfg remote lower upper => ContentSpaces.after (Cycle.update cfg remote lower upper)
  | .synchronize cfg remote => ContentSpaces.after (Sync.synchronize cfg remote)

namespace Content

/-- The content of a store that was empty at first. Each operation may meet another outage,
validator, registry or remote, and may fail. -/
inductive Reachable : Content → Prop
  | empty : Reachable .empty
  | store {s : Store} (h : Reachable s.content) (op : Store.Operation) :
      Reachable (op.after s).content
  | desk {d : Desk} (h : Reachable d.store.content) (op : Desk.Operation) :
      Reachable (op.after d).store.content
  | replica {m : Replica} (h : Reachable m.store.content) (op : Replica.Operation) :
      Reachable (op.after m).store.content

end Content

section Steps

abbrev Anywhere (_ : Address) : Prop := True

theorem Store.Operation.confined (op : Store.Operation) {s : Store} (hs : s.content.Filed) :
    s.content.Confined Anywhere (op.after s).content := by
  have hstart : s.content.Confined Anywhere s.content := .refl hs
  have hread {α : Type} {act : StoreM α} {f : Content → α} (h : Reads act f) :
      s.content.Confined Anywhere (ContentSpaces.after act s).content :=
    Keeps.after (h.confines (Q := fun _ => True) fun _ _ => trivial) hstart
  cases op with
  | get a => exact hread (reads_get? a)
  | require a => exact Keeps.after (confines_require a) hstart
  | contains a => exact hread (reads_exists? a)
  | locate space id => exact hread (reads_locate space id)
  | search kind space => exact hread (reads_search kind space)
  | create r made => exact Keeps.after (confines_create trivial fun _ => made.intact) hstart
  | createAll rs made =>
    exact Keeps.after (confines_createAll fun r hr => ⟨trivial, fun _ => (made r hr).intact⟩) hstart
  | update a ops => exact Keeps.after (confines_update ops fun _ _ => trivial) hstart
  | delete a => exact Keeps.after (confines_delete trivial) hstart
  | clear kind space => exact Keeps.after (confines_clear kind fun _ _ => trivial) hstart
  | hashesOf kind space => exact hread (reads_hashesOf kind space)
  | resourcesOf space =>
    exact hread (Reads.mapM (fun kind => (reads_hashesOf kind space).bind fun _ => .pure _) _)
  | policy space => exact hread (reads_policy? space)
  | integrationHash space id =>
    refine Keeps.after (Q := fun _ => True) ((confines_get? _).bind fun found _ => ?_) hstart
    cases found with
    | none => exact .pure trivial
    | some integration =>
      exact ((reads_coverIntegration integration).confines (Q := fun _ => True)
        fun _ _ => trivial).bind fun _ _ => .pure trivial
  | recalculate spaces => exact Keeps.after (confines_recalculate fun _ _ _ => trivial) hstart
  | initializeSpaces => exact Keeps.after (confines_initializeSpaces fun _ => trivial) hstart

theorem Desk.Operation.confined (op : Desk.Operation) {d : Desk} (hd : d.store.content.Filed) :
    d.store.content.Confined Anywhere (op.after d).store.content := by
  cases op with
  | link parent child list =>
    exact Confines.after (Draft.confines_link (fun _ _ => trivial) parent child list) hd
  | unlink child list =>
    exact Confines.after (Draft.confines_unlink (fun _ _ => trivial) child list) hd
  | createLinked child made parent list =>
    exact Confines.after (Draft.confines_createLinked (fun _ _ => trivial) trivial
      (fun _ => made.intact) parent list) hd
  | draft call => exact Confines.after (Draft.confines_run (fun _ _ => trivial) call) hd
  | preview source => exact Confines.after (Promotion.confines_preview source) hd
  | execute excluded request =>
    exact Confines.after (Promotion.confines_execute excluded request fun _ _ _ _ => trivial) hd

theorem Replica.Operation.confined (op : Replica.Operation) {m : Replica}
    (hm : m.store.content.Filed) :
    m.store.content.Confined Anywhere (op.after m).store.content := by
  cases op with
  | bootstrap cfg remote url offset =>
    have hedits := Snapshot.edits_bootstrap cfg remote url offset m
    exact (Content.Edits.confined hedits hm).mono fun _ _ => trivial
  | update cfg remote lower upper =>
    have hedits := Cycle.edits_update cfg remote lower upper m
    exact (Content.Edits.confined hedits hm).mono fun _ _ => trivial
  | synchronize cfg remote =>
    obtain ⟨c, hedits, hupkeeps⟩ := ((Sync.call_after cfg remote m).wrote hm).content
    have hconfined := (Content.Edits.confined hedits hm).mono (q := Anywhere) fun _ _ => trivial
    exact hconfined.trans (Content.Upkeeps.confined hupkeeps hconfined.filed)

end Steps

namespace Content

variable {c : Content}

theorem Reachable.filed_and_intact (h : Reachable c) : c.Filed ∧ c.Intact := by
  induction h with
  | empty => exact ⟨.empty, .empty⟩
  | store _ op ih =>
    have hstep := op.confined ih.1
    exact ⟨hstep.filed, hstep.intact ih.2⟩
  | desk _ op ih =>
    have hstep := op.confined ih.1
    exact ⟨hstep.filed, hstep.intact ih.2⟩
  | replica _ op ih =>
    have hstep := op.confined ih.1
    exact ⟨hstep.filed, hstep.intact ih.2⟩

/-- Whatever was done to a store that was empty at first, its resources are where they belong. -/
theorem Reachable.represented (h : Reachable c) {a : Address} {r : Resource}
    (hr : c.get? a = some r) : r.Represents a :=
  (h.filed_and_intact.2 a r hr).represents (h.filed_and_intact.1 a r hr)

section Trial

theorem reachable_trialDesk : Reachable Draft.trialDesk.store.content :=
  .store (s := .ofContent .empty) .empty .initializeSpaces

def ruleDocument : Json := .object [("id", .string "r")]

def newRule : Resource := ⟨.rule, ruleDocument, .draft, none, Digest.ofDocument ruleDocument⟩

theorem made_newRule : newRule.Made := by
  have hcreated : Resource.create .rule .draft ruleDocument = .ok newRule := by rfl
  exact .create hcreated

theorem Reachable.file (h : Reachable c) {r : Resource} (made : r.Made) : Reachable (c.file r) :=
  .store (s := .ofContent c) h (.create r made)

def draftedContent : Content :=
  ((Desk.Operation.draft Draft.trialIntegration).after Draft.trialDesk).store.content

theorem reachable_draftedContent : Reachable draftedContent := .desk reachable_trialDesk _

theorem ofDocument_ruleDocument : Digest.ofDocument ruleDocument =
    "274357f106ca0680e81b3a3ec65793d8417bb8c8cce588566e3c92127a3bb1bf" := by
  have hsorted : ruleDocument.sorted = ruleDocument := by
    rw [ruleDocument, Json.sorted, Json.sortedFields, Json.sortedFields, List.mergeSort_singleton]
    rfl
  rw [Digest.ofDocument, Json.canonical, hsorted]
  decide +kernel

/-- A rule is stored beside an integration and the policies of the user spaces. -/
theorem trial_represented : ∃ i r,
    (draftedContent.file newRule).get? ⟨.integration, .draft, "i"⟩ = some i ∧
      i.Represents ⟨.integration, .draft, "i"⟩ ∧
      (draftedContent.file newRule).get? ⟨.rule, .draft, "r"⟩ = some r ∧
      r.Represents ⟨.rule, .draft, "r"⟩ ∧
      r.hash = "274357f106ca0680e81b3a3ec65793d8417bb8c8cce588566e3c92127a3bb1bf" := by
  have hreachable : Reachable (draftedContent.file newRule) :=
    reachable_draftedContent.file made_newRule
  have hstored : ((draftedContent.file newRule).get? ⟨.integration, .draft, "i"⟩).isSome := by
    decide +kernel
  obtain ⟨i, hi⟩ := Option.isSome_iff_exists.mp hstored
  have hr : (draftedContent.file newRule).get? ⟨.rule, .draft, "r"⟩ = some newRule :=
    (get?_file ..).trans (if_pos rfl)
  exact ⟨i, newRule, hi, hreachable.represented hi, hr, hreachable.represented hr,
    ofDocument_ruleDocument⟩

end Trial

end Content

end ContentSpaces
