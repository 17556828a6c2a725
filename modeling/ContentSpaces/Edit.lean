import ContentSpaces.Aggregate
import ContentSpaces.Promotion.Diff
import ContentSpaces.Registration

/-!
# Edits

Promotions and the authoring of drafts work at a desk: a content store, a validator that may object
to documents before they are written, and the registration service. What an edit did before it
failed stays done, so every edit says itself what it leaves behind.
-/

namespace ContentSpaces

inductive EditError where
  | unpromotable (space : Space)
  | policyOperation (operation : Promotion)
  | notAuthored (kind : Kind)
  | missingParent (kind : Kind)
  | notAnObject
  | untitled
  | permanentPolicy
  | objection (message : String)
  | notFound (address : Address)
  | alreadyExists (address : Address)
  | stillLinked (id : String) (list : RefList)
  | linkFailed (parent child : String) (cause : EditError)
  | registration (e : RegistrationError)
  | content (e : ContentError)
  deriving DecidableEq

namespace EditError

def message : EditError → String
  | .unpromotable space => s!"space '{space.name}' cannot be promoted"
  | .policyOperation op =>
    s!"invalid policy operation '{op.name}': a space always has exactly one policy"
  | .notAuthored kind => s!"validation error: {kind.plural} cannot be created in draft"
  | .missingParent kind => s!"validation error: a {kind.name} needs a parent integration"
  | .notAnObject => "validation error: document must be an object"
  | .untitled => "validation error: title is required"
  | .permanentPolicy => "validation error: the policy of a space cannot be deleted"
  | .objection text => s!"validation failed: {text}"
  | .notFound a => s!"{a.kind.name} '{a.id}' not found in space '{a.space.name}'"
  | .alreadyExists a => s!"{a.kind.name} '{a.id}' already exists in space '{a.space.name}'"
  | .stillLinked id list => s!"integration '{id}' still has {list.key} attached"
  | .linkFailed parent child cause => s!"failed to link '{child}' to '{parent}': {cause.message}"
  | .registration e => s!"registration error: {e.message}"
  | .content e => s!"content error: {e.message}"

/-- The request can never succeed as it is. -/
def isClientError : EditError → Bool
  | .linkFailed .. | .registration _ => false
  | .content e =>
    match e with
    | .notFound _ | .patch _ | .refused _ => false
    | _ => true
  | _ => true

end EditError

/-- Objects to documents, by the number of the question; counts the questions. -/
structure Validator where
  objects : Nat → Kind → Json → Option String
  questions : Nat

namespace Validator

def acceptAll : Nat → Kind → Json → Option String := fun _ _ _ => none

/-- Objects to documents whose `id`, or else whose `title`, is listed. -/
def rejecting (rejections : Table String String) : Nat → Kind → Json → Option String :=
  fun _ _ document =>
    let objection (key : String) := (document.stringField? key).bind rejections.get?
    (objection "id").orElse fun _ => objection "title"

end Validator

structure Desk where
  store : Store
  validator : Validator
  registry : Registry

abbrev EditM := EStateM EditError Desk

namespace Desk

def onStore {α : Type} (act : StoreM α) : EditM α := fun d =>
  match act d.store with
  | .ok a store => .ok a { d with store := store }
  | .error e store => .error (.content e) { d with store := store }

def validate (kind : Kind) (document : Json) : EditM Unit := fun d =>
  let v := d.validator
  let asked := { d with validator := { v with questions := v.questions + 1 } }
  match v.objects v.questions kind document with
  | none => .ok () asked
  | some text => .error (.objection text) asked

def request (task : Task) : EditM (Except RegistrationError Unit) := fun d =>
  let (answer, registry) := Registry.request task d.registry
  .ok answer { d with registry := registry }

def require (address : Address) : EditM Resource := do
  match ← onStore (Store.get? address) with
  | some r => return r
  | none => throw (.notFound address)

end Desk

end ContentSpaces
