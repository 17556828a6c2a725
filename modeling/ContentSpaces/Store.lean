import ContentSpaces.Resource

/-!
# The content store

The content is a table of resources by address. The store answers one call after the other and may
refuse any of them; a refused call changes nothing. Writing a resource files it under its own
address, so writing it twice overwrites and never duplicates.
-/

namespace ContentSpaces

abbrev Content := Table Address Resource

namespace Content

def file (c : Content) (r : Resource) : Content := c.insert r.address r

def fileAll (c : Content) (rs : List Resource) : Content := rs.foldl file c

def collection (c : Content) (kind : Kind) (space : Space) : List Resource :=
  (c.filterKeys fun a => a.kind == kind && a.space == space).values

def withoutCollection (c : Content) (kind : Kind) (space : Space) : Content :=
  c.filterKeys fun a => !(a.kind == kind && a.space == space)

end Content

namespace Store

inductive Call where
  | get (address : Address)
  | create (address : Address)
  | delete (address : Address)
  | search (kind : Kind) (space : Space)
  | clear (kind : Kind) (space : Space)
  deriving DecidableEq, Repr

def Call.method : Call → String
  | .get _ => "get"
  | .create _ => "create"
  | .delete _ => "delete"
  | .search .. => "search"
  | .clear .. => "clear"

/-- Which calls are refused, by their number and what they ask for. -/
abbrev Outage := Nat → Call → Bool

end Store

/-- Content, the outage it is exposed to, and the number of calls so far. -/
structure Store where
  content : Content
  outage : Store.Outage
  calls : Nat

/-- A sequence of calls; what it did before an error stays done. -/
abbrev StoreM := EStateM ContentError Store

namespace Store

def ofContent (content : Content) : Store := ⟨content, fun _ _ => false, 0⟩

def call {α : Type} (c : Call) (answer : Content → α × Content) : StoreM α := fun s =>
  let counted := { s with calls := s.calls + 1 }
  if s.outage s.calls c then .error (.refused c.method) counted
  else
    let (a, content) := answer s.content
    .ok a { counted with content := content }

def get? (address : Address) : StoreM (Option Resource) :=
  call (.get address) fun content => (content.get? address, content)

def create (r : Resource) : StoreM Unit :=
  call (.create r.address) fun content => ((), content.file r)

/-- Removes a resource and tells whether it was there. -/
def delete (address : Address) : StoreM Bool :=
  call (.delete address) fun content => (content.contains address, content.erase address)

def search (kind : Kind) (space : Space) : StoreM (List Resource) :=
  call (.search kind space) fun content => (content.collection kind space, content)

/-- Removes a collection and tells how much it held. -/
def clear (kind : Kind) (space : Space) : StoreM Nat :=
  call (.clear kind space) fun content =>
    ((content.collection kind space).length, content.withoutCollection kind space)

def exists? (address : Address) : StoreM Bool := do
  return (← get? address).isSome

def require (address : Address) : StoreM Resource := do
  match ← get? address with
  | some r => return r
  | none => throw (.notFound address)

/-- Patches a stored document; nothing is written if an operation fails. -/
def update (address : Address) (ops : List Patch.Operation) : StoreM Resource := do
  let current ← require address
  let patched ← ofExcept (current.applyPatch ops)
  create patched
  return patched

def createAll : List Resource → StoreM Unit
  | [] => return
  | r :: rs => do
    create r
    createAll rs

/-- The first of the given kinds that has the ID in a space. -/
def locateAmong (space : Space) (id : String) : List Kind → StoreM (Option Kind)
  | [] => return none
  | kind :: kinds => do
    if ← exists? ⟨kind, space, id⟩ then return some kind
    else locateAmong space id kinds

def locate (space : Space) (id : String) : StoreM (Option Kind) :=
  locateAmong space id Kind.all

def clearSpace (space : Space) : StoreM Nat := do
  return (← Kind.all.mapM fun kind => clear kind space).foldr (· + ·) 0

end Store

end ContentSpaces
