import ContentSpaces.Proofs.Provenance
import ContentSpaces.Proofs.Wire

/-!
# Exchanged shapes read back

Every type that is exchanged reads back from what it is written as, with its optional fields absent
or present as they were. So two values of a type are never written alike; in particular the value
null of a patch operation is not taken for a missing one.
-/

namespace ContentSpaces

open Json (Tree)
open Wire

namespace Patch.Operation

@[simp]
theorem decode_verb (depth : Nat) (verb : Verb) :
    oneOf Verb.ofWord? depth (Tree.ofJson (.string verb.name)) = some verb := by
  rw [oneOf_string]
  cases verb <;> rfl

theorem readsAs_toJson {op : Patch.Operation} (h : op.Ordered) : ReadsAs decode op.toJson op := by
  obtain ⟨verb, path, source, value⟩ := op
  have hsource (source : String) (depth : Nat) : optional text depth
      (Tree.ofJson (.string source)) = some (some source) :=
    congrArg (Option.map some) (text_string depth source)
  refine readsAs_record (fun _ _ => rfl) ?_ ?_ fun r hfields => ?_
  · cases source <;> cases value <;> simp
  · cases source <;> cases value <;> simp
  · cases value with
    | none =>
      cases source <;>
        simp [Record.required, Record.withDefault, hfields, Entries.get?, hsource, Json.depthFields]
    | some value =>
      have hvalue := readsAs_json (h value rfl) r.depth
      cases source <;>
        simp [Record.required, Record.withDefault, hfields, Entries.get?, hsource,
          Json.depthFields, hvalue]

end Patch.Operation

theorem Payload.readsAs_toJson {p : Payload} (h : p.document.Ordered) :
    ReadsAs decode p.toJson p := by
  refine readsAs_record (fun _ _ => rfl) (by simp) (by simp) fun r hfields => ?_
  have hdocument := readsAs_json h r.depth
  simp [Record.required, hfields, Entries.get?, Json.depthFields, hdocument]

namespace Change

@[simp]
theorem decodeKind_name (depth : Nat) (kind : ChangeKind) :
    decodeKind depth (Tree.ofJson (.string kind.name)) = some kind := by
  rw [decodeKind, text_string]
  cases kind <;> decide

theorem readsAs_toJson {c : Change} (h : c.Ordered) : ReadsAs decode c.toJson c := by
  refine readsAs_record (fun _ _ => rfl) (by simp) (by simp) fun r hfields => ?_
  have hversion : ReadsAs (optional natural) (c.version.elim .null .ofNat) c.version :=
    readsAs_optional fun _ _ => ⟨readsAs_of_forall rfl fun _ => rfl, nofun⟩
  have hoperations : ReadsAs (list Patch.Operation.decode)
      (.array (c.operations.map Patch.Operation.toJson)) c.operations :=
    readsAs_list fun op hop => Patch.Operation.readsAs_toJson (h.operations op hop)
  have hpayload : ReadsAs (optional Payload.decode) (c.payload.elim .null Payload.toJson)
      c.payload :=
    readsAs_optional fun p hp => ⟨Payload.readsAs_toJson (h.payload p hp), nofun⟩
  simp [Record.required, Record.withDefault, hfields, Entries.get?, Json.depthFields,
    hversion r.depth, hoperations r.depth, hpayload r.depth, ite_and]

theorem readsAs_batchJson {cs : List Change} (h : ∀ c ∈ cs, c.Ordered) :
    ReadsAs decodeBatch (batchJson cs) cs := by
  refine readsAs_record (fun _ _ => rfl) (by simp) (by simp) fun r hfields => ?_
  have hdata := readsAs_list (fun c hc => readsAs_toJson (h c hc)) r.depth
  simp [Record.withDefault, hfields, Entries.get?, Json.depthFields, hdata]

end Change

theorem Cursor.readsAs_toJson (c : Cursor) : ReadsAs decode c.toJson c := by
  refine readsAs_record (fun _ _ => rfl) (by simp) (by simp) fun r hfields => ?_
  simp [Record.required, Record.withDefault, hfields, Entries.get?, Json.depthFields]

theorem RemoteConsumer.readsAs_toJson (c : RemoteConsumer) : ReadsAs decode c.toJson c := by
  refine readsAs_record (fun _ _ => rfl) (by simp) (by simp) fun r hfields => ?_
  have hlink : ReadsAs (optional text) (c.lastSnapshotLink.elim .null .string)
      c.lastSnapshotLink :=
    readsAs_optional fun link _ => ⟨readsAs_of_forall rfl fun depth => text_string depth link, nofun⟩
  simp [Record.withDefault, hfields, Entries.get?, Json.depthFields, hlink r.depth]

namespace Promotion

@[simp]
theorem decode_name (depth : Nat) (operation : Promotion) :
    decode depth (Tree.ofJson (.string operation.name)) = some operation := by
  rw [decode, oneOf_string]
  cases operation <;> rfl

theorem Row.readsAs_toJson (row : Row) : ReadsAs decode row.toJson row := by
  refine readsAs_record (fun _ _ => rfl) (by simp) (by simp) fun r hfields => ?_
  simp [Record.required, hfields, Entries.get?, Json.depthFields]

theorem Item.readsAs_toJson (item : Item) : ReadsAs decode item.toJson item := by
  refine readsAs_record (fun _ _ => rfl) (by simp) (by simp) fun r hfields => ?_
  simp [Record.required, hfields, Entries.get?, Json.depthFields]

theorem Changes.readsAs_toJson (c : Changes) : ReadsAs decode c.toJson c := by
  refine readsAs_record (fun _ _ => rfl) (by simp) (by simp) fun r hfields => ?_
  have hitems (items : List Item) :
      ReadsAs (list Item.decode) (.array (items.map Item.toJson)) items :=
    readsAs_list fun item _ => item.readsAs_toJson
  simp [Record.required, Record.withDefault, hfields, Entries.get?, Json.depthFields,
    fun items => hitems items r.depth, ite_and]

theorem Request.readsAs_toJson (request : Request) : ReadsAs decode request.toJson request := by
  refine readsAs_record (fun _ _ => rfl) (by simp) (by simp) fun r hfields => ?_
  have hchanges := request.changes.readsAs_toJson r.depth
  simp [Record.required, hfields, Entries.get?, Json.depthFields, hchanges]

end Promotion

theorem Patch.Operation.toJson_null_ne_toJson_none (op : Patch.Operation) :
    { op with value := some .null }.toJson ≠ { op with value := none }.toJson := by
  intro hsame
  have hnull : ReadsAs decode { op with value := some .null }.toJson
      { op with value := some .null } :=
    readsAs_toJson fun value hvalue => Option.some.inj hvalue ▸ trivial
  have hnone : ReadsAs decode { op with value := none }.toJson { op with value := none } :=
    readsAs_toJson nofun
  cases congrArg value (hnull.unique (hsame ▸ hnone))

/-- Whatever is exchanged reads back, absent fields as absent, and the value null of a patch
operation stays apart from a missing one. -/
theorem exchanged_readsAs :
    (∀ c : Change, c.Ordered → ReadsAs Change.decode c.toJson c) ∧
    (∀ cs : List Change, (∀ c ∈ cs, c.Ordered) →
      ReadsAs Change.decodeBatch (Change.batchJson cs) cs) ∧
    (∀ c : Cursor, ReadsAs Cursor.decode c.toJson c) ∧
    (∀ c : RemoteConsumer, ReadsAs RemoteConsumer.decode c.toJson c) ∧
    (∀ request : Promotion.Request, ReadsAs Promotion.Request.decode request.toJson request) ∧
    (∀ row : Promotion.Row, ReadsAs Promotion.Row.decode row.toJson row) ∧
    (∀ r : Resource, r.document.Ordered → ReadsAs Resource.decode r.toJson r) ∧
    (∀ op : Patch.Operation, op.Ordered → ReadsAs Patch.Operation.decode op.toJson op) ∧
    ∀ op : Patch.Operation,
      { op with value := some .null }.toJson ≠ { op with value := none }.toJson :=
  ⟨fun _ => Change.readsAs_toJson, fun _ => Change.readsAs_batchJson, Cursor.readsAs_toJson,
    RemoteConsumer.readsAs_toJson, Promotion.Request.readsAs_toJson, Promotion.Row.readsAs_toJson,
    fun _ => Resource.readsAs_toJson, fun _ => Patch.Operation.readsAs_toJson,
    Patch.Operation.toJson_null_ne_toJson_none⟩

section Trial

/-- An update whose patch sets one field to null, moves another, and gives a third no value. -/
def nullingChange : Change :=
  .revision 7 "r" [.withValue .replace "/a" .null, .withSource .move "/b" "/c",
    ⟨.replace, "/d", none, none⟩,
    .withValue .test "/e" (.object [("x", .array [.null]), ("y", .object [])])]

theorem nullingChange_reads_back : nullingChange.Ordered ∧
    Change.decode 6 (Tree.ofJson nullingChange.toJson) = some nullingChange ∧
    Change.decode 4 (Tree.ofJson nullingChange.toJson) = none := by
  have hordered : nullingChange.Ordered := by
    refine ⟨?_, nofun⟩
    simp [nullingChange, Change.revision, Patch.Operation.Ordered, Patch.Operation.withValue,
      Patch.Operation.withSource, Json.Ordered, Json.OrderedItems, Json.OrderedFields,
      Entries.Ascending]
    decide
  have hreads := exchanged_readsAs.1 nullingChange hordered
  exact ⟨hordered, (hreads 6).trans (if_pos (by decide)), (hreads 4).trans (if_neg (by decide))⟩

end Trial

end ContentSpaces
