import ContentSpaces.Resource

/-!
# Changes of a remote catalog

A change has a position in the log, the ID of the resource it concerns, and what happened to it: a
creation carries the whole document, an update a patch.
-/

namespace ContentSpaces

inductive ChangeKind where
  | create
  | update
  | delete
  deriving DecidableEq, Repr

namespace ChangeKind

def name : ChangeKind → String
  | .create => "CREATE"
  | .update => "UPDATE"
  | .delete => "DELETE"

def parse? (text : String) : Option ChangeKind :=
  match Text.upper (Text.trim text) with
  | "CREATE" => some .create
  | "UPDATE" => some .update
  | "DELETE" => some .delete
  | _ => none

end ChangeKind

/-- A document with the name of its kind, which need not be a known one. -/
structure Payload where
  kindName : String
  document : Json

def Payload.kind? (p : Payload) : Option Kind := Kind.parse? p.kindName

structure Change where
  offset : Nat
  resource : String
  kind : ChangeKind
  context : String
  version : Option Nat
  operations : List Patch.Operation
  payload : Option Payload

namespace Change

def creation (offset : Nat) (kind : Kind) (document : Json) : Change :=
  ⟨offset, documentId document, .create, "", none, [], some ⟨kind.name, document⟩⟩

def revision (offset : Nat) (resource : String) (operations : List Patch.Operation) : Change :=
  ⟨offset, resource, .update, "", none, operations, none⟩

def deletion (offset : Nat) (resource : String) : Change :=
  ⟨offset, resource, .delete, "", none, [], none⟩

end Change

end ContentSpaces
