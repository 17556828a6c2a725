import ContentSpaces.Resource

/-!
# Errors of synchronisation

What may end the synchronisation with a remote catalog. The next attempt may help after a failed
connection, a server that is busy, a timeout or a failure of the local file system.
-/

namespace ContentSpaces

/-- What an update cycle is doing, or how the last one ended. -/
inductive Phase where
  | idle
  | fetching
  | applying
  | committed
  | reset
  deriving DecidableEq, Repr

namespace Phase

def all : List Phase := [.idle, .fetching, .applying, .committed, .reset]

def name : Phase → String
  | .idle => "Idle"
  | .fetching => "Fetching"
  | .applying => "Applying"
  | .committed => "Committed"
  | .reset => "Reset"

def isActive : Phase → Bool
  | .fetching | .applying => true
  | _ => false

/-- A cycle may start unless one is running. -/
def canStart (p : Phase) : Bool := !p.isActive

end Phase

/-- What the remote catalog did not keep to. -/
inductive ProtocolError where
  | undecodable (url : String)
  | missingPayload (offset : Nat)
  | unknownTarget (offset : Nat) (resource : String)
  | outsideRange (offset lower upper : Nat)
  | duplicateOffset (offset : Nat)
  | badRecord (file : String) (line : Nat)
  deriving DecidableEq, Repr

def ProtocolError.message : ProtocolError → String
  | .undecodable url => s!"failed to decode {url}"
  | .missingPayload offset => s!"CREATE at offset {offset} has no payload"
  | .unknownTarget offset resource =>
    s!"UPDATE at offset {offset} targets unknown resource '{resource}'"
  | .outsideRange offset lower upper =>
    s!"change offset {offset} outside requested range ({lower}, {upper}]"
  | .duplicateOffset offset => s!"duplicate change offset {offset}"
  | .badRecord file line => s!"{file}:{line}"

inductive SyncError where
  | unreachable (reason : String)
  | status (url : String) (code : Nat)
  | protocol (e : ProtocolError)
  | content (e : ContentError)
  | io
  | archive
  | pathTraversal (entry : String)
  | cancelled
  | timeout
  | busy (phase : Phase)
  | cursor (method : String)
  deriving DecidableEq

namespace SyncError

def message : SyncError → String
  | .unreachable reason => s!"transport error: {reason}"
  | .status url code => s!"transport error: GET {url} returned HTTP {code}"
  | .protocol e => s!"protocol error: {e.message}"
  | .content e => s!"content error: {e.message}"
  | .io => "I/O error"
  | .archive => "archive error"
  | .pathTraversal entry => s!"bad zip entry: {entry}"
  | .cancelled => "sync cancelled"
  | .timeout => "operation timed out"
  | .busy phase => s!"invalid state transition from {phase.name} to update"
  | .cursor method => s!"consumer state error: {method} refused"

def isRetryable : SyncError → Bool
  | .unreachable _ | .timeout | .io => true
  | .status _ code => 500 ≤ code || code == 408 || code == 429
  | _ => false

end SyncError

end ContentSpaces
