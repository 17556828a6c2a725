import ContentSpaces.Edit

/-!
# Links between drafts

A container lists its children by ID. Linking adds an ID to the list of one draft container,
unlinking removes it from the lists of all. Only the lists are edited, and a container keeps its
aggregate until the next recalculation.
-/

namespace ContentSpaces.Draft

open Desk

def link (parent child : String) (list : RefList) : EditM Unit := do
  let container ← require ⟨list.containerKind, .draft, parent⟩
  let ids := container.references list
  if ids.contains child then return
  onStore do
    Store.create (← ofExcept (container.withReferences list (ids ++ [child])))

def unlinkFrom (child : String) (list : RefList) (container : Resource) : StoreM Bool := do
  let ids := container.references list
  if !ids.contains child then return false
  Store.create (← ofExcept (container.withReferences list (ids.filter (· ≠ child))))
  return true

/-- Removes a child from the list of every draft container and names those that had it. -/
def unlink (child : String) (list : RefList) : EditM (List String) := onStore do
  let containers ← Store.search list.containerKind .draft
  return (← containers.filterM (unlinkFrom child list)).map Resource.id

/-- Writes a child and links it; a child that cannot be linked is removed again. -/
def createLinked (child : Resource) (parent : String) (list : RefList) : EditM Unit := do
  onStore (Store.create child)
  try
    link parent child.id list
  catch e =>
    try
      let _ ← onStore (Store.delete child.address)
    catch _ => pure ()
    throw (.linkFailed parent child.id e)

/-- An integration may go once it lists no children. -/
def checkDeletable (integration : Resource) : Except EditError Unit :=
  match RefList.deleteOrder.find? fun list => !(integration.references list).isEmpty with
  | some list => .error (.stillLinked integration.id list)
  | none => .ok ()

end ContentSpaces.Draft
