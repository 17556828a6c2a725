import ContentSpaces.Feed.Change
import ContentSpaces.Feed.Cursor
import ContentSpaces.Sync.Error

/-!
# The remote catalog

A remote describes a consumer, serves the changes of a range of offsets, and offers snapshots for
download. Each of these may fail. A cycle may be cancelled while its changes are being fetched.
-/

namespace ContentSpaces

/-- The answer to a request for changes, and whether the cycle was cancelled meanwhile. -/
structure Batch where
  changes : Except SyncError (List Change)
  cancelled : Bool

structure Download where
  archive : ByteArray
  took : Nat

structure Remote where
  consumer : Except SyncError RemoteConsumer
  changes : (lower upper : Nat) → Batch
  snapshot : (url : String) → Except SyncError Download

def Remote.unreachable (reason : String) : Remote :=
  ⟨.error (.unreachable reason), fun _ _ => ⟨.error (.unreachable reason), false⟩,
    fun _ => .error (.unreachable reason)⟩

inductive RemoteRequest where
  | consumer
  | changes (lower upper : Nat)
  | snapshot (url : String)
  deriving DecidableEq, Repr

end ContentSpaces
