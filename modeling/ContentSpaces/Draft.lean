import ContentSpaces.Draft.Link

/-!
# Drafts

Drafts are what users write. Creating, updating and deleting one keeps the lists of its containers,
its registration and the aggregates of draft in step with the store. The ID of a new draft is
supplied by the caller.
-/

namespace ContentSpaces.Draft

open Desk

def fields (document : Json) : Except EditError Json.Fields :=
  match document with
  | .object fs =>
    if ((Json.object fs).stringField? "title").any fun title => !Text.isBlankText title then .ok fs
    else .error .untitled
  | _ => .error .notAnObject

def withDefault (key : String) (v : Json) (fs : Json.Fields) : Json.Fields :=
  if Entries.contains key fs then fs else Entries.insert key v fs

/-- Where a new draft is to be linked: under its parent, or under the policy if there is one. -/
def place (kind : Kind) (parent : Option String) : EditM (Option (String × RefList)) := do
  match RefList.ofIntegrationChild? kind, parent with
  | some _, none => throw (.missingParent kind)
  | some list, some parent =>
    if ← onStore (Store.exists? ⟨.integration, .draft, parent⟩) then return some (parent, list)
    else throw (.notFound ⟨.integration, .draft, parent⟩)
  | none, _ =>
    match RefList.ofChild? kind with
    | none => return none
    | some list => return (← onStore (Store.policy? .draft)).map fun policy => (policy.id, list)

/-- The document of a new draft; an integration has all its lists. -/
def newDocument (kind : Kind) (id : String) (fs : Json.Fields) : Json :=
  let fs := Entries.insert "id" (.string id) fs
  .object <|
    if kind = .integration then
      RefList.hashOrder.foldl (fun fs list => withDefault list.key (.array []) fs) fs
    else fs

/-- Registers a draft; a refusal is no failure of the edit. -/
def register (r : Resource) : EditM Unit := do
  if r.kind.isRegistrable then
    let _ ← request (.ofResource r)

def recalculate : EditM Unit := do
  let _ ← onStore (Store.recalculate [.draft])

def create (id : String) (kind : Kind) (document : Json) (parent : Option String) :
    EditM Unit := do
  if kind = .policy ∨ kind = .ioc then throw (.notAuthored kind)
  let fs ← ofExcept (fields document)
  let position ← place kind parent
  let document := newDocument kind id fs
  validate kind document
  let r ← onStore (ofExcept (Resource.create kind .draft document))
  match position with
  | some (parent, list) => createLinked r parent list
  | none => onStore (Store.create r)
  register r
  recalculate

/-- What an update keeps of the stored document: its date, its lists, and whether it is enabled
unless the update says. -/
def keep (kind : Kind) (id : String) (stored : Json) (fs : Json.Fields) : Json :=
  let fs := Entries.insert "id" (.string id) fs
  let fs := (stored.field? "date").elim fs fun date => Entries.insert "date" date fs
  let fs := withDefault "enabled" ((stored.field? "enabled").getD (.bool true)) fs
  .object <| (RefList.ofContainer kind).foldl
    (fun fs list => Entries.insert list.key ((stored.field? list.key).getD (.array [])) fs) fs

def update (kind : Kind) (id : String) (document : Json) : EditM Unit := do
  let stored ← require ⟨kind, .draft, id⟩
  let fs ← ofExcept (fields document)
  let document := keep kind id stored.document fs
  validate kind document
  let r ← onStore (ofExcept (stored.withDocument document))
  onStore (Store.create r)
  register r
  recalculate

/-- Removes a registration; that there was none is fine. -/
def unregister (kind : Kind) (id : String) : EditM Unit := do
  if kind.isRegistrable then
    match ← request (.delete kind id) with
    | .ok _ => pure ()
    | .error e => if !e.isNotFound then throw (.registration e)

/-- Deletes a draft; a registration that cannot be removed keeps it. -/
def delete (kind : Kind) (id : String) : EditM Unit := do
  let stored ← require ⟨kind, .draft, id⟩
  if kind = .policy then throw .permanentPolicy
  if kind = .integration then
    ofExcept (checkDeletable stored)
  unregister kind id
  match RefList.ofChild? kind with
  | some list =>
    let _ ← unlink id list
  | none => pure ()
  let _ ← onStore (Store.delete ⟨kind, .draft, id⟩)
  recalculate

end ContentSpaces.Draft
