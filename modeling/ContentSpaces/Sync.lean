import ContentSpaces.Sync.Cycle
import ContentSpaces.Sync.Snapshot

/-!
# Synchronisation

One call brings the replica up to the last offset of the remote: a consumer that has followed
nothing starts from the snapshot, if the remote offers one, and then the changes since are applied.
If content changed, the user spaces get their policies, registrations are dispatched and all
aggregates are recalculated.
-/

namespace ContentSpaces.Sync

open Replica

/-- How far a synchronisation has come, and the registrations it asks for. -/
structure Advance where
  offset : Nat
  tasks : List Task
  snapshot : Option Snapshot.Report
  update : Option Cycle.Report

namespace Advance

/-- A loaded snapshot counts as a change whatever it holds. -/
def hasChanges (a : Advance) : Bool := a.snapshot.isSome || a.update.any Cycle.Report.hasChanges

end Advance

def snapshotTasks (space : Space) : StoreM (List Task) := do
  let perKind ← [Kind.integration, .rule].mapM fun kind => do
    return (← Store.search kind space).map Task.ofResource
  return perKind.flatten

/-- Starts from a snapshot; a failure resets the cursor. -/
def bootstrap (cfg : Config) (remote : Remote) (url : String) (offset : Nat) :
    ReplicaM Snapshot.Report := do
  try
    Snapshot.bootstrap cfg remote url offset
  catch e =>
    attempt (onCursors (CursorStore.reset cfg.owner))
    throw e

/-- Goes on from an offset, or from the snapshot if nothing has been followed yet. -/
def start (cfg : Config) (remote : Remote) (consumer : RemoteConsumer) (offset : Nat) :
    ReplicaM Advance := do
  match if offset = 0 then consumer.snapshotLink? else none with
  | none => return ⟨offset, [], none, none⟩
  | some url =>
    let report ← bootstrap cfg remote url consumer.lastSnapshotOffset
    let tasks ← onStore (snapshotTasks cfg.space)
    return ⟨consumer.lastSnapshotOffset, tasks, some report, none⟩

def follow (cfg : Config) (remote : Remote) (upper : Nat) (a : Advance) : ReplicaM Advance := do
  if a.offset < upper then
    let report ← Cycle.update cfg remote a.offset upper
    return { a with
      offset := report.committed
      tasks := a.tasks ++ report.registrations
      update := some report }
  else return a

structure Aftermath where
  initialized : List Space
  registrations : Dispatch.Report
  recalculated : Option Recalculation

def dispatchAll (cfg : Config) (tasks : List Task) : ReplicaM Dispatch.Report := fun m =>
  let (report, registry) := dispatch cfg.limits tasks m.registry
  .ok report { m with registry := registry }

def settle (cfg : Config) (a : Advance) : ReplicaM Aftermath := do
  if a.hasChanges then
    let initialized ← onStore Store.initializeSpaces
    let registrations ← dispatchAll cfg a.tasks
    let recalculated ← onStore (Store.recalculate Space.all)
    return ⟨initialized, registrations, some recalculated⟩
  else return ⟨[], .empty, none⟩

structure Outcome where
  advance : Advance
  aftermath : Aftermath
  remoteOffset : Nat

def synchronize (cfg : Config) (remote : Remote) : ReplicaM Outcome := do
  let cursor ← onCursors (CursorStore.getOrFresh cfg.owner)
  let answer ← ask .consumer remote.consumer
  let consumer ← ofExcept answer
  let started ← start cfg remote consumer cursor.localOffset
  let advance ← follow cfg remote consumer.lastOffset started
  let aftermath ← settle cfg advance
  onCursors (CursorStore.revise cfg.owner fun c => { c with remoteOffset := consumer.lastOffset })
  return ⟨advance, aftermath, consumer.lastOffset⟩

end ContentSpaces.Sync
