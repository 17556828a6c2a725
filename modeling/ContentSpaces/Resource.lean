import ContentSpaces.Digest
import ContentSpaces.Patch
import ContentSpaces.Resource.Address
import ContentSpaces.Resource.Sanitize

/-!
# Stored resources

A resource is one copy of a document in one space, with the digest of the document; a container
also carries the aggregate digest over its children once it has been computed. Every change of the
document goes through `Resource.withDocument`, so the digest never lags behind.
-/

namespace ContentSpaces

structure Resource where
  kind : Kind
  document : Json
  space : Space
  aggregate : Option String
  hash : String

abbrev Hashes := Table String String

inductive ContentError where
  | notFound (address : Address)
  | notAnObject
  | missingId
  | unknownKind (name : String)
  | unknownSpace (name : String)
  | patch (e : Patch.Error)
  | refused (method : String)
  deriving DecidableEq

namespace ContentError

def message : ContentError → String
  | .notFound a => s!"{a.kind.name} '{a.id}' not found in space '{a.space.name}'"
  | .notAnObject => "invalid document: document is not an object"
  | .missingId => "invalid document: document has no string 'id'"
  | .unknownKind name => s!"invalid document: unknown resource type '{name}'"
  | .unknownSpace name => s!"invalid document: unknown space '{name}'"
  | .patch e => s!"patch failed: {e.message}"
  | .refused method => s!"storage error: {method} refused"

def isNotFound : ContentError → Bool
  | .notFound _ => true
  | _ => false

end ContentError

def Kind.parse (text : String) : Except ContentError Kind :=
  (Kind.parse? text).elim (.error (.unknownKind text)) .ok

def Space.parse (text : String) : Except ContentError Space :=
  let word := Text.lower (Text.trim text)
  (Space.ofWord? word).elim (.error (.unknownSpace word)) .ok

/-- The ID that a document carries; without one the empty string. -/
def documentId (document : Json) : String := (document.stringField? "id").getD ""

/-- A document is an object whose `id` is a non-empty string. -/
def checkDocument (document : Json) : Except ContentError Unit :=
  match document with
  | .object _ => if documentId document = "" then .error .missingId else .ok ()
  | _ => .error .notAnObject

namespace Resource

def id (r : Resource) : String := documentId r.document

def address (r : Resource) : Address := ⟨r.kind, r.space, r.id⟩

def create (kind : Kind) (space : Space) (document : Json) : Except ContentError Resource := do
  checkDocument document
  .ok ⟨kind, document, space, none, Digest.ofDocument document⟩

/-- A resource from outside content, sanitised before it is hashed. -/
def ingest (kind : Kind) (space : Space) (document : Json) : Except ContentError Resource :=
  create kind space (Sanitize.document document)

/-- The copy for another space; an aggregate belongs to the space it was computed in. -/
def inSpace (r : Resource) (space : Space) : Resource :=
  { r with space := space, aggregate := none }

def withAggregate (r : Resource) (digest : String) : Resource :=
  { r with aggregate := some digest }

def withDocument (r : Resource) (document : Json) : Except ContentError Resource := do
  checkDocument document
  .ok { r with document := document, hash := Digest.ofDocument document }

/-- Applies a patch to the document and sanitises the outcome. -/
def applyPatch (r : Resource) (ops : List Patch.Operation) : Except ContentError Resource :=
  match Patch.applyAll r.document ops with
  | .error e => .error (.patch e)
  | .ok patched => r.withDocument (Sanitize.document patched)

/-- The strings under a reference list; a list that is missing or no array has none. -/
def references (r : Resource) (list : RefList) : List String :=
  (((r.document.field? list.key).bind Json.items?).getD []).filterMap Json.string?

def withReferences (r : Resource) (list : RefList) (ids : List String) :
    Except ContentError Resource :=
  match r.document with
  | .object fs => r.withDocument (.object (Entries.insert list.key (.ofStrings ids) fs))
  | _ => .error .notAnObject

end Resource

end ContentSpaces
