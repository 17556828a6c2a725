import ContentSpaces.Aggregate
import ContentSpaces.Feed.Remote
import ContentSpaces.Sync.Config

/-!
# The replica of a remote catalog

What a synchronisation works on: the content store, the cursors, the registration service, the
engine of update cycles, the requests made so far, and which directories take scratch files. Like
the content store, the cursor store may refuse any call, and a refused call changes nothing.
-/

namespace ContentSpaces

namespace CursorStore

inductive Call where
  | get (owner : Consumer)
  | set (cursor : Cursor)
  deriving DecidableEq, Repr

def Call.method : Call → String
  | .get _ => "get"
  | .set _ => "set"

/-- Which calls are refused, by their number and what they ask for. -/
abbrev Outage := Nat → Call → Bool

end CursorStore

structure CursorStore where
  cursors : Cursors
  outage : CursorStore.Outage
  calls : Nat

abbrev CursorM := EStateM SyncError CursorStore

namespace CursorStore

def ofCursors (cursors : Cursors) : CursorStore := ⟨cursors, fun _ _ => false, 0⟩

def call {α : Type} (c : Call) (answer : Cursors → α × Cursors) : CursorM α := fun s =>
  let counted := { s with calls := s.calls + 1 }
  if s.outage s.calls c then .error (.cursor c.method) counted
  else
    let (a, cursors) := answer s.cursors
    .ok a { counted with cursors := cursors }

def get? (owner : Consumer) : CursorM (Option Cursor) :=
  call (.get owner) fun cursors => (cursors.get? owner, cursors)

def set (cursor : Cursor) : CursorM Unit :=
  call (.set cursor) fun cursors => ((), cursors.put cursor)

def reset (owner : Consumer) : CursorM Unit := set (.fresh owner.context owner.name)

def getOrFresh (owner : Consumer) : CursorM Cursor := do
  return (← get? owner).getD (.fresh owner.context owner.name)

def revise (owner : Consumer) (change : Cursor → Cursor) : CursorM Unit := do
  set (change (← getOrFresh owner))

end CursorStore

/-- Totals over all cycles; `ended` tells whether a cycle has got as far as applying records. -/
structure Statistics where
  committed : Nat
  reset : Nat
  applied : Nat
  skipped : Nat
  ended : Bool
  lastError : Option SyncError
  deriving DecidableEq

/-- What the present or last cycle did with its records. -/
structure Progress where
  applied : Nat
  skipped : Nat
  tasks : List Task

def Progress.none : Progress := ⟨0, 0, []⟩

structure Engine where
  phase : Phase
  progress : Progress
  statistics : Statistics

def Engine.new : Engine := ⟨.idle, .none, ⟨0, 0, 0, 0, false, none⟩⟩

structure Replica where
  store : Store
  cursors : CursorStore
  registry : Registry
  engine : Engine
  requests : List RemoteRequest
  scratch : String → Bool

abbrev ReplicaM := EStateM SyncError Replica

namespace Replica

/-- A replica at rest, with services that answer every call. -/
def of (content : Content) (cursors : Cursors) : Replica :=
  ⟨.ofContent content, .ofCursors cursors, .empty Registry.accepting, .new, [], fun _ => true⟩

def onStore {α : Type} (act : StoreM α) : ReplicaM α := fun m =>
  match act m.store with
  | .ok a store => .ok a { m with store := store }
  | .error e store => .error (.content e) { m with store := store }

def onCursors {α : Type} (act : CursorM α) : ReplicaM α := fun m =>
  match act m.cursors with
  | .ok a cursors => .ok a { m with cursors := cursors }
  | .error e cursors => .error e { m with cursors := cursors }

def onEngine (change : Engine → Engine) : ReplicaM Unit :=
  modify fun m => { m with engine := change m.engine }

/-- Does what it can; a failure goes unnoticed. -/
def attempt {α : Type} (act : ReplicaM α) : ReplicaM Unit :=
  try
    let _ ← act
  catch _ => pure ()

def ask {α : Type} (request : RemoteRequest) (answer : α) : ReplicaM α := do
  modify fun m => { m with requests := m.requests ++ [request] }
  return answer

end Replica

end ContentSpaces
