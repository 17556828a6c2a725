import ContentSpaces.Feed.Change
import ContentSpaces.Feed.Cursor
import ContentSpaces.Promotion.Diff
import ContentSpaces.Wire.Record

/-!
# Exchanged shapes

How each type is written as JSON and read back. Absent optional fields of patch operations and
space tags are left out; those of changes are written as null. A patch operation whose value is an
explicit null has that value.
-/

namespace ContentSpaces

open Wire

namespace Patch

def Verb.ofWord? (word : String) : Option Verb := Verb.all.find? fun verb => verb.name == word

namespace Operation

def toJson (op : Operation) : Json :=
  .object ([("op", .string op.verb.name), ("path", .string op.path)] ++
    (op.source.map fun source => ("from", Json.string source)).toList ++
    (op.value.map fun value => ("value", value)).toList)

def decode : Decoder Operation := fun depth t => do
  let r ← Record.read? ["op", "path", "from", "value"] depth t
  some {
    verb := ← r.required "op" (oneOf Verb.ofWord?)
    path := ← r.required "path" text
    source := ← r.withDefault "from" none (optional text)
    value := ← r.withDefault "value" none fun depth t => (json depth t).map some }

end Operation

end Patch

namespace Kind

def ofWord? (word : String) : Option Kind :=
  if word = "policies" then some .policy
  else all.find? fun kind => kind.name == word || (kind != .policy && kind.plural == word)

def toJson (kind : Kind) : Json := .string kind.name

def decode : Decoder Kind := oneOf ofWord?

end Kind

namespace Space

def toJson (space : Space) : Json := .string space.name

def decode : Decoder Space := oneOf ofWord?

end Space

namespace Resource

def digestJson (digest : String) : Json := .object [("sha256", .string digest)]

def decodeDigest : Decoder String := fun depth t => do
  (← Record.read? ["sha256"] depth t).required "sha256" text

def tagJson (r : Resource) : Json :=
  .object (("name", r.space.toJson) ::
    (r.aggregate.map fun digest => ("hash", digestJson digest)).toList)

def decodeTag : Decoder (Space × Option String) := fun depth t => do
  let r ← Record.read? ["name", "hash"] depth t
  some (← r.required "name" Space.decode, ← r.withDefault "hash" none (optional decodeDigest))

def toJson (r : Resource) : Json :=
  .object [("type", r.kind.toJson), ("document", r.document), ("space", r.tagJson),
    ("hash", digestJson r.hash)]

/-- The stored digest is taken as it stands. -/
def decode : Decoder Resource := fun depth t => do
  let r ← Record.read? ["type", "document", "space", "hash"] depth t
  let (space, aggregate) ← r.required "space" decodeTag
  some {
    kind := ← r.required "type" Kind.decode
    document := ← r.required "document" json
    space := space
    aggregate := aggregate
    hash := ← r.required "hash" decodeDigest }

end Resource

namespace Payload

def toJson (p : Payload) : Json :=
  .object [("type", .string p.kindName), ("document", p.document)]

def decode : Decoder Payload := fun depth t => do
  let r ← Record.read? ["type", "document"] depth t
  some { kindName := ← r.required "type" text, document := ← r.required "document" json }

end Payload

namespace Change

def toJson (c : Change) : Json :=
  .object [("offset", .ofNat c.offset), ("resource", .string c.resource),
    ("type", .string c.kind.name), ("context", .string c.context),
    ("version", c.version.elim .null .ofNat),
    ("operations", .array (c.operations.map Patch.Operation.toJson)),
    ("payload", c.payload.elim .null Payload.toJson)]

def decodeKind : Decoder ChangeKind := fun depth t => (text depth t).bind ChangeKind.parse?

def decode : Decoder Change := fun depth t => do
  let r ← Record.read?
    ["offset", "resource", "type", "context", "version", "operations", "payload"] depth t
  some {
    offset := ← r.required "offset" natural
    resource := ← r.required "resource" text
    kind := ← r.required "type" decodeKind
    context := ← r.withDefault "context" "" text
    version := ← r.withDefault "version" none (optional natural)
    operations := ← r.withDefault "operations" [] (list Patch.Operation.decode)
    payload := ← r.withDefault "payload" none (optional Payload.decode) }

def batchJson (cs : List Change) : Json := .object [("data", .array (cs.map toJson))]

def decodeBatch : Decoder (List Change) := fun depth t => do
  (← Record.read? ["data"] depth t).withDefault "data" [] (list decode)

end Change

namespace Cursor

def toJson (c : Cursor) : Json :=
  .object [("name", .string c.name), ("context", .string c.context),
    ("local_offset", .ofNat c.localOffset), ("remote_offset", .ofNat c.remoteOffset),
    ("snapshot_link", .string c.snapshotLink)]

def decode : Decoder Cursor := fun depth t => do
  let r ← Record.read? ["name", "context", "local_offset", "remote_offset", "snapshot_link"] depth t
  some {
    name := ← r.required "name" text
    context := ← r.required "context" text
    localOffset := ← r.withDefault "local_offset" 0 natural
    remoteOffset := ← r.withDefault "remote_offset" 0 natural
    snapshotLink := ← r.withDefault "snapshot_link" "" text }

end Cursor

namespace Cursors

def exportText (cs : Cursors) : String := (Json.array (cs.values.map Cursor.toJson)).indented

/-- Adds the cursors of an exported text; `none` if it is no such text. -/
def import? (cs : Cursors) (exported : String) : Option (Nat × Cursors) := do
  let added ← ofText? (list Cursor.decode) exported
  some (added.length, cs.putAll added)

end Cursors

namespace RemoteConsumer

def toJson (c : RemoteConsumer) : Json :=
  .object [("name", .string c.name), ("context", .string c.context),
    ("last_offset", .ofNat c.lastOffset),
    ("last_snapshot_link", c.lastSnapshotLink.elim .null .string),
    ("last_snapshot_offset", .ofNat c.lastSnapshotOffset)]

def decode : Decoder RemoteConsumer := fun depth t => do
  let r ← Record.read?
    ["name", "context", "last_offset", "last_snapshot_link", "last_snapshot_offset"] depth t
  some {
    name := ← r.withDefault "name" "" text
    context := ← r.withDefault "context" "" text
    lastOffset := ← r.withDefault "last_offset" 0 natural
    lastSnapshotLink := ← r.withDefault "last_snapshot_link" none (optional text)
    lastSnapshotOffset := ← r.withDefault "last_snapshot_offset" 0 natural }

end RemoteConsumer

namespace Promotion

def decode : Decoder Promotion := oneOf ofWord?

namespace Row

def toJson (row : Row) : Json :=
  .object [("resourceType", row.kind.toJson), ("id", .string row.id),
    ("operation", .string row.operation.name)]

def decode : Decoder Row := fun depth t => do
  let r ← Record.read? ["resourceType", "id", "operation"] depth t
  some {
    kind := ← r.required "resourceType" Kind.decode
    id := ← r.required "id" text
    operation := ← r.required "operation" Promotion.decode }

end Row

namespace Item

def toJson (item : Item) : Json :=
  .object [("operation", .string item.operation.name), ("id", .string item.id)]

def decode : Decoder Item := fun depth t => do
  let r ← Record.read? ["operation", "id"] depth t
  some { operation := ← r.required "operation" Promotion.decode, id := ← r.required "id" text }

end Item

namespace Changes

def toJson (c : Changes) : Json :=
  let items (xs : List Item) : Json := .array (xs.map Item.toJson)
  .object [("policy", items c.policy), ("integrations", items c.integrations),
    ("kvdbs", items c.kvdbs), ("decoders", items c.decoders), ("filters", items c.filters),
    ("rules", items c.rules)]

def decode : Decoder Changes := fun depth t => do
  let r ← Record.read?
    ["policy", "integrations", "kvdbs", "decoders", "filters", "rules"] depth t
  some {
    policy := ← r.required "policy" (list Item.decode)
    integrations := ← r.required "integrations" (list Item.decode)
    kvdbs := ← r.required "kvdbs" (list Item.decode)
    decoders := ← r.required "decoders" (list Item.decode)
    filters := ← r.required "filters" (list Item.decode)
    rules := ← r.withDefault "rules" [] (list Item.decode) }

end Changes

namespace Request

def toJson (r : Request) : Json :=
  .object [("space", r.space.toJson), ("changes", r.changes.toJson)]

def decode : Decoder Request := fun depth t => do
  let r ← Record.read? ["space", "changes"] depth t
  some {
    space := ← r.required "space" Space.decode
    changes := ← r.required "changes" Changes.decode }

end Request

def previewJson (preview : Preview) : Json :=
  .object (preview.map fun e => (e.1.name, .array (e.2.map Row.toJson)))

end Promotion

end ContentSpaces
