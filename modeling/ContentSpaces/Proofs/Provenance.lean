import ContentSpaces.Feed.Http
import ContentSpaces.Proofs.Json.Order
import ContentSpaces.Proofs.Snapshot.Failure

/-!
# Content that comes from text

Snapshots and batches of changes are read from text, so their documents and the values of their
patches list their keys in order. A condition on the content that outlives each write of such values
is upheld by following a remote catalog, whatever fails meanwhile; that all documents are in order
is one.
-/

namespace ContentSpaces

open Json (Tree)

/-! ## What is read -/

namespace Wire

variable {α : Type} {read : Decoder α} {r : Record} {name : String} {a default : α}

theorem Record.exists_of_required (h : r.required name read = some a) :
    ∃ t, read r.depth t = some a := by
  obtain ⟨t, -, h⟩ := Option.bind_eq_some_iff.mp h
  exact ⟨t, h⟩

theorem Record.eq_or_exists_of_withDefault (h : r.withDefault name default read = some a) :
    a = default ∨ ∃ t, read r.depth t = some a := by
  unfold withDefault at h
  split at h
  · cases h
    exact .inl rfl
  · exact .inr ⟨_, h⟩

theorem exists_of_mem_list {depth : Nat} {t : Tree} {as : List α} (h : list read depth t = some as) :
    ∀ a ∈ as, ∃ depth t, read depth t = some a := by
  unfold list at h
  split at h
  · rename_i depth ts
    induction ts generalizing as with
    | nil =>
      cases h
      nofun
    | cons t ts ih =>
      rw [List.mapM_cons] at h
      obtain ⟨a, ha, h⟩ := Option.bind_eq_some_iff.mp h
      obtain ⟨rest, hrest, h⟩ := Option.bind_eq_some_iff.mp h
      cases h
      exact List.forall_mem_cons.mpr ⟨⟨depth, t, ha⟩, ih hrest⟩
  · cases h

theorem eq_none_or_exists_of_optional {depth : Nat} {t : Tree} {found : Option α}
    (h : optional read depth t = some found) :
    found = none ∨ ∃ a, found = some a ∧ read depth t = some a := by
  unfold optional at h
  split at h
  · cases h
    exact .inl rfl
  · obtain ⟨a, ha, rfl⟩ := Option.map_eq_some_iff.mp h
    exact .inr ⟨a, rfl, ha⟩

end Wire

variable {depth : Nat} {t : Tree}

theorem Patch.Operation.ordered_of_decode {op : Operation} (h : decode depth t = some op) :
    op.Ordered := by
  obtain ⟨r, -, h⟩ := Option.bind_eq_some_iff.mp h
  obtain ⟨verb, -, h⟩ := Option.bind_eq_some_iff.mp h
  obtain ⟨path, -, h⟩ := Option.bind_eq_some_iff.mp h
  obtain ⟨source, -, h⟩ := Option.bind_eq_some_iff.mp h
  obtain ⟨found, hfound, h⟩ := Option.bind_eq_some_iff.mp h
  cases h
  rintro value rfl
  obtain hnone | ⟨t', hvalue⟩ := Wire.Record.eq_or_exists_of_withDefault hfound
  · cases hnone
  · obtain ⟨_, hvalue, hsome⟩ := Option.map_eq_some_iff.mp hvalue
    cases hsome
    exact Tree.ordered_of_value? t' hvalue

theorem Payload.ordered_of_decode {p : Payload} (h : decode depth t = some p) :
    p.document.Ordered := by
  obtain ⟨r, -, h⟩ := Option.bind_eq_some_iff.mp h
  obtain ⟨name, -, h⟩ := Option.bind_eq_some_iff.mp h
  obtain ⟨document, hdocument, h⟩ := Option.bind_eq_some_iff.mp h
  cases h
  obtain ⟨t', hdocument⟩ := Wire.Record.exists_of_required hdocument
  exact Tree.ordered_of_value? t' hdocument

namespace Change

structure Ordered (c : Change) : Prop where
  operations : ∀ op ∈ c.operations, op.Ordered
  payload : ∀ p, c.payload = some p → p.document.Ordered

instance (c : Change) : Decidable c.Ordered :=
  decidable_of_iff ((∀ op ∈ c.operations, op.Ordered) ∧ ∀ p ∈ c.payload.toList, p.document.Ordered)
    ⟨fun h => ⟨h.1, by simpa using h.2⟩, fun h => ⟨h.operations, by simpa using h.payload⟩⟩

theorem ordered_of_decode {c : Change} (h : decode depth t = some c) : c.Ordered := by
  obtain ⟨r, -, h⟩ := Option.bind_eq_some_iff.mp h
  obtain ⟨offset, -, h⟩ := Option.bind_eq_some_iff.mp h
  obtain ⟨resource, -, h⟩ := Option.bind_eq_some_iff.mp h
  obtain ⟨kind, -, h⟩ := Option.bind_eq_some_iff.mp h
  obtain ⟨context, -, h⟩ := Option.bind_eq_some_iff.mp h
  obtain ⟨version, -, h⟩ := Option.bind_eq_some_iff.mp h
  obtain ⟨operations, hoperations, h⟩ := Option.bind_eq_some_iff.mp h
  obtain ⟨payload, hpayload, h⟩ := Option.bind_eq_some_iff.mp h
  cases h
  constructor
  · intro op hop
    obtain rfl | ⟨t', hlist⟩ := Wire.Record.eq_or_exists_of_withDefault hoperations
    · cases hop
    · obtain ⟨_, _, hread⟩ := Wire.exists_of_mem_list hlist op hop
      exact Patch.Operation.ordered_of_decode hread
  · rintro p rfl
    obtain hnone | ⟨t', hfound⟩ := Wire.Record.eq_or_exists_of_withDefault hpayload
    · cases hnone
    · obtain hnone | ⟨_, hsome, hread⟩ := Wire.eq_none_or_exists_of_optional hfound
      · cases hnone
      · cases hsome
        exact Payload.ordered_of_decode hread

theorem ordered_of_decodeBatch {cs : List Change} (h : decodeBatch depth t = some cs) :
    ∀ c ∈ cs, c.Ordered := by
  obtain ⟨r, -, h⟩ := Option.bind_eq_some_iff.mp h
  obtain rfl | ⟨t', hlist⟩ := Wire.Record.eq_or_exists_of_withDefault h
  · nofun
  · intro c hc
    obtain ⟨_, _, hread⟩ := Wire.exists_of_mem_list hlist c hc
    exact ordered_of_decode hread

end Change

def Remote.Ordered (remote : Remote) : Prop :=
  ∀ lower upper changes, (remote.changes lower upper).changes = .ok changes →
    ∀ c ∈ changes, c.Ordered

/-- Every batch of changes is read from a text, or from bytes that spell one. -/
def Remote.Textual (remote : Remote) : Prop :=
  ∀ lower upper changes, (remote.changes lower upper).changes = .ok changes →
    (∃ text, Wire.ofText? Change.decodeBatch text = some changes) ∨
      ∃ bytes, Wire.ofBytes? Change.decodeBatch bytes = some changes

theorem Remote.Textual.ordered {remote : Remote} (h : remote.Textual) : remote.Ordered := by
  intro lower upper changes hchanges
  obtain ⟨text, htext⟩ | ⟨bytes, hbytes⟩ := h lower upper changes hchanges
  · obtain ⟨t, -, hread⟩ := Option.bind_eq_some_iff.mp htext
    exact Change.ordered_of_decodeBatch hread
  · obtain ⟨t, -, hread⟩ := Option.bind_eq_some_iff.mp hbytes
    exact Change.ordered_of_decodeBatch hread

/-- A remote that asks a server over HTTP for its changes gets them as text. -/
theorem Feed.Http.textual_of_fetchChanges {cfg : Config} {routes : Routes} {remote : Remote}
    (hfetch : ∀ lower upper,
      (remote.changes lower upper).changes = fetchChanges cfg routes lower upper) :
    remote.Textual := by
  intro lower upper changes hchanges
  right
  have h : fetchChanges cfg routes lower upper = .ok changes := hfetch lower upper ▸ hchanges
  obtain ⟨⟨bytes, took⟩, -, h⟩ := except_bind_eq_ok.mp h
  refine ⟨bytes, ?_⟩
  dsimp only at h
  split at h
  · rename_i hread
    cases h
    exact hread
  · cases h

namespace Resource

variable {r r' : Resource}

theorem ordered_of_ingest {kind : Kind} {space : Space} {document : Json} (h : document.Ordered)
    (hr : ingest kind space document = .ok r) : r.document.Ordered := by
  obtain ⟨-, rfl⟩ := create_eq_ok_iff.mp hr
  exact Sanitize.ordered_document h

theorem ordered_of_applyPatch {ops : List Patch.Operation} (hops : ∀ op ∈ ops, op.Ordered)
    (h : r.document.Ordered) (hr : r.applyPatch ops = .ok r') : r'.document.Ordered := by
  obtain ⟨patched, hpatched, hr⟩ := applyPatch_eq_ok_iff.mp hr
  obtain ⟨-, rfl⟩ := withDocument_eq_ok_iff.mp hr
  exact Sanitize.ordered_document (Patch.ordered_applyAll hops h hpatched)

end Resource

theorem Snapshot.exists_ingest_of_readLine {space : Space} {line : Line} {r : Resource}
    (h : readLine space line = .ok (.resource r)) :
    ∃ kind document, document.Ordered ∧ Resource.ingest kind space document = .ok r := by
  unfold readLine at h
  split at h
  · cases h
  extract_lets text at h
  split at h
  · cases h
  split at h
  · cases h
  rename_i record hrecord
  cases hr : ofRecord space record with
  | none =>
    rw [hr] at h
    cases h
  | some r' =>
    rw [hr] at h
    cases h
    unfold ofRecord at hr
    simp only [Option.bind_eq_bind, Option.bind_eq_some_iff] at hr
    obtain ⟨payload, hpayload, name, -, kind, -, document, hdocument, hr⟩ := hr
    have hordered : document.Ordered :=
      ((Json.ordered_of_ofText? hrecord).field? hpayload).field? hdocument
    cases hingest : Resource.ingest kind space document with
    | error e =>
      rw [hingest] at hr
      cases hr
    | ok r'' =>
      rw [hingest] at hr
      cases hr
      exact ⟨kind, document, hordered, hingest⟩

/-! ## What is stored -/

namespace Content

variable {c c' : Content}

/-- The condition outlives every write of a space that follows a remote catalog. -/
structure Lasting (space : Space) (P : Content → Prop) : Prop where
  ingest : ∀ {c kind document r}, P c → document.Ordered →
    Resource.ingest kind space document = .ok r → P (c.file r)
  patch : ∀ {c a r r' ops}, P c → a.space = space → c.get? a = some r →
    (∀ op ∈ ops, Patch.Operation.Ordered op) → r.applyPatch ops = .ok r' → P (c.file r')
  removal : ∀ {c c'}, P c → (∀ a r, c'.get? a = some r → c.get? a = some r) → P c'

/-- Every resource stands under its own address, and its document has its keys in order. -/
structure Orderly (c : Content) : Prop where
  filed : c.Filed
  ordered : ∀ a r, c.get? a = some r → r.document.Ordered

namespace Orderly

theorem empty : Orderly .empty := ⟨.empty, fun _ _ h => nomatch h⟩

theorem file (h : c.Orderly) {r : Resource} (hr : r.document.Ordered) : (c.file r).Orderly := by
  refine ⟨h.filed.file r, fun a r' hr' => ?_⟩
  rw [get?_file] at hr'
  split at hr'
  · cases hr'
    exact hr
  · exact h.ordered a r' hr'

theorem of_imp (h : c.Orderly) (hsub : ∀ a r, c'.get? a = some r → c.get? a = some r) :
    c'.Orderly :=
  ⟨forall_get?_of_imp h.filed hsub, forall_get?_of_imp h.ordered hsub⟩

theorem lasting (space : Space) : Lasting space Orderly where
  ingest h hdocument hr := h.file (Resource.ordered_of_ingest hdocument hr)
  patch h _ hstored hops hr :=
    h.file (Resource.ordered_of_applyPatch hops (h.ordered _ _ hstored) hr)
  removal h hsub := h.of_imp hsub

theorem ordered_defaultPolicyDocument : Store.defaultPolicyDocument.Ordered := by
  refine Json.ordered_object_iff.mpr ⟨by decide, ?_⟩
  simp [Json.Ordered, Json.OrderedItems]

theorem upkeeps (h : c.Orderly) (hkept : Upkeeps c c') : c'.Orderly := by
  induction hkept with
  | refl => exact h
  | tail _ hlast ih =>
    cases hlast with
    | policy _ _ hr =>
      obtain ⟨-, rfl⟩ := Resource.create_eq_ok_iff.mp hr
      exact ih.file ordered_defaultPolicyDocument
    | @aggregate a r hstored digest =>
      have hr : (r.withAggregate digest).document.Ordered := ih.ordered a r hstored
      exact ih.file hr

end Orderly

end Content

namespace Replica

variable {α : Type} {P : Content → Prop}

/-- The work keeps the condition on the content, however it ends. -/
abbrev Upholds (P : Content → Prop) (act : ReplicaM α) (Q : α → Prop) : Prop :=
  Keeps (fun m => P m.store.content) act Q

theorem upholds_onStore {act : StoreM α} {Q : α → Prop}
    (h : Keeps (fun s => P s.content) act Q) : Upholds P (onStore act) Q :=
  ensures_onStore_of_ensures h

theorem upholds_reads {act : StoreM α} {f : Content → α} (h : Store.Reads act f) :
    Upholds P (onStore act) fun _ => True := upholds_onStore (h.keeps fun _ _ => trivial)

/-- Work that leaves the store alone keeps what it holds. -/
theorem upholds_of_store {act : ReplicaM α} {Q : α → Prop}
    (h : ∀ s, Keeps (fun m => m.store = s) act Q) : Upholds P act Q := by
  intro m hm
  refine Ensures.mono (h m.store) (fun _ hs => hs) ?_ ?_ m rfl
  · rintro a m' ⟨ha, hs⟩
    exact ⟨ha, (congrArg (fun s => P s.content) hs).mpr hm⟩
  · intro e m' hs
    exact (congrArg (fun s => P s.content) hs).mpr hm

theorem upholds_onCursors (act : CursorM α) : Upholds P (onCursors act) fun _ => True :=
  keeps_onCursors (I := fun s => P s.content) act

theorem upholds_onEngine (change : Engine → Engine) : Upholds P (onEngine change) fun _ => True :=
  fun _ hm => ⟨trivial, hm⟩

theorem upholds_ask (request : RemoteRequest) (answer : α) :
    Upholds P (ask request answer) (· = answer) := fun _ hm => ⟨rfl, hm⟩

theorem upholds_get : Upholds P get fun _ => True := fun _ hm => ⟨trivial, hm⟩

theorem upholds_attempt {act : ReplicaM α} {Q : α → Prop} (h : Upholds P act Q) :
    Upholds P (attempt act) fun _ => True :=
  Keeps.tryCatch (h.bind fun _ _ => .pure trivial) fun _ => .pure trivial

end Replica

open Replica

namespace Snapshot

variable {cfg : Config} {P : Content → Prop}

theorem upholds_load (hP : Content.Lasting cfg.space P) (lines : List Line) :
    Upholds P (load cfg lines .none) fun _ => True := by
  refine keeps_load (I := fun s => P s.content) (fun line r hr => ?_) lines (List.forall_mem_nil _)
  obtain ⟨kind, document, hdocument, hingest⟩ := exists_ingest_of_readLine hr
  exact Store.keeps_create fun c hc => hP.ingest hc hdocument hingest

theorem upholds_clearSpace (hP : Content.Lasting cfg.space P) :
    Upholds P (onStore (Store.clearSpace cfg.space)) fun _ => True :=
  upholds_onStore (Store.keeps_clearSpace fun _ _ hc =>
    hP.removal hc fun _ _ => Content.get?_of_get?_withoutCollection)

theorem upholds_replaceContent (hP : Content.Lasting cfg.space P) (files : List SourceFile) :
    Upholds P (replaceContent cfg files) fun _ => True := by
  have hcleared := upholds_clearSpace hP
  refine hcleared.bind fun _ _ => ?_
  refine Keeps.tryCatch ?_ fun e => (upholds_attempt hcleared).bind fun _ _ => .throw
  split
  · exact .throw_bind
  · exact upholds_load hP _

theorem upholds_bootstrap (hP : Content.Lasting cfg.space P) (remote : Remote) (url : String)
    (offset : Nat) : Upholds P (bootstrap cfg remote url offset) fun _ => True := by
  have hfetch : Upholds P (fetch cfg remote url) fun _ => True :=
    upholds_of_store ensures_fetch_store
  unfold bootstrap
  split
  · exact .pure trivial
  refine upholds_get.bind fun now _ => ?_
  extract_lets go
  have hgo (u : Unit) : Upholds P (go u) fun _ => True := by
    refine hfetch.bind fun files _ => (upholds_replaceContent hP _).bind fun l _ => ?_
    exact (upholds_onCursors _).bind fun _ _ => .pure trivial
  split
  · exact .throw_bind
  · exact hgo ()

end Snapshot

namespace Cycle

variable {cfg : Config} {space : Space} {P : Content → Prop}

theorem upholds_updateTarget (change : Change) :
    Upholds P (updateTarget space change) fun target => target.space = space := by
  have hlocated {next : Option Kind → ReplicaM Address}
      (hnone : Upholds P (next none) fun target => target.space = space)
      (hsome : ∀ kind, Upholds P (next (some kind)) fun target => target.space = space) :
      Upholds P (onStore (Store.locate space change.resource) >>= next)
        fun target => target.space = space := by
    refine (upholds_reads (Store.reads_locate space change.resource)).bind fun found _ => ?_
    cases found with
    | none => exact hnone
    | some kind => exact hsome kind
  unfold updateTarget
  split
  · refine (upholds_reads (Store.reads_policy? space)).bind fun policy _ => ?_
    cases policy with
    | some policy => exact .pure rfl
    | none => exact hlocated .throw fun _ => .pure rfl
  · exact hlocated .throw fun _ => .pure rfl

theorem upholds_apply (hP : Content.Lasting space P) {change : Change} (hchange : change.Ordered) :
    Upholds P (apply space change) fun _ => True := by
  unfold apply
  cases change.kind with
  | create =>
    cases hpayload : change.payload with
    | none => exact .throw
    | some payload =>
      dsimp only
      cases payload.kind? with
      | none => exact .pure trivial
      | some kind =>
        refine upholds_onStore (Keeps.bind (.ofExcept fun r hr => hr) fun r hr => ?_)
        have hdocument := hchange.payload _ hpayload
        exact (Store.keeps_create fun c hc => hP.ingest hc hdocument hr).bind
          fun _ _ => .pure trivial
  | update =>
    refine (upholds_updateTarget change).bind fun target htarget => ?_
    refine (upholds_onStore (Store.keeps_update fun c r r' hc hstored hpatch => ?_)).bind
      fun _ _ => .pure trivial
    exact hP.patch hc htarget hstored hchange.operations hpatch
  | delete =>
    refine upholds_onStore (((Store.reads_locate space change.resource).keeps (Q := fun _ => True)
      fun _ _ => trivial).bind fun kind _ => ?_)
    cases kind with
    | none => exact .pure trivial
    | some kind =>
      refine (Store.keeps_delete fun c hc => ?_).bind fun _ _ => .pure trivial
      exact hP.removal hc fun _ _ => Content.get?_of_get?_erase

theorem upholds_applyAll (hP : Content.Lasting space P) {cancelled : Bool} {changes : List Change}
    (h : ∀ change ∈ changes, change.Ordered) :
    Upholds P (applyAll space cancelled changes) fun _ => True := by
  induction changes with
  | nil => exact .pure trivial
  | cons change changes ih =>
    obtain ⟨hchange, hrest⟩ := List.forall_mem_cons.mp h
    unfold applyAll
    extract_lets go
    have hgo (u : Unit) : Upholds P (go u) fun _ => True :=
      (upholds_apply hP hchange).bind fun effect _ => (upholds_onEngine _).bind fun _ _ => ih hrest
    split
    · exact .throw_bind
    · exact hgo ()

theorem upholds_commit (hP : Content.Lasting cfg.space P) {lower upper : Nat} {cancelled : Bool}
    {changes : List Change} (h : ∀ change ∈ changes, change.Ordered) :
    Upholds P (commit cfg lower upper cancelled changes) fun _ => True := by
  refine Keeps.bind (R := fun _ => True) (.ofExcept fun _ _ => trivial) fun _ _ => ?_
  refine (upholds_applyAll hP h).bind fun _ _ => (upholds_onCursors _).bind fun _ _ => .pure trivial

theorem upholds_update (hP : Content.Lasting cfg.space P) {remote : Remote}
    (hremote : remote.Ordered) (lower upper : Nat) :
    Upholds P (update cfg remote lower upper) fun _ => True := by
  refine upholds_get.bind fun now _ => ?_
  extract_lets phase go
  have hgo (u : Unit) : Upholds P (go u) fun _ => True := by
    refine (upholds_onEngine _).bind fun _ _ => (upholds_ask _ _).bind fun batch hbatch => ?_
    subst hbatch
    cases hchanges : (remote.changes lower upper).changes with
    | error e => exact (upholds_onEngine _).bind fun _ _ => .throw
    | ok changes =>
      have hordered : ∀ change ∈ inOrder changes, change.Ordered := fun change hchange =>
        hremote lower upper changes hchanges change (List.mem_mergeSort.mp hchange)
      refine (upholds_onEngine _).bind fun _ _ => ?_
      refine Keeps.bind (R := fun ending => ∃ report, ending = .error report) ?_ ?_
      · refine Keeps.tryCatch ?_ fun e => ?_
        · refine (upholds_commit hP hordered).bind fun committed _ => ?_
          refine (upholds_onEngine _).bind fun _ _ => upholds_get.bind fun now _ => ?_
          exact .pure ⟨_, rfl⟩
        · refine (upholds_attempt (upholds_onCursors _)).bind fun _ _ => ?_
          exact (upholds_onEngine _).bind fun _ _ => .throw_bind
      · rintro ending ⟨report, rfl⟩
        exact .pure trivial
  split
  · exact .throw_bind
  · exact hgo ()

end Cycle

end ContentSpaces
