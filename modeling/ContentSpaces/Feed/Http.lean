import ContentSpaces.Feed.Remote
import ContentSpaces.Sync.Config
import ContentSpaces.Wire.Shapes

/-!
# A remote behind HTTP

The catalog answers at URLs below a base. A status other than 200 is an error, and so is a body
that is not what was asked for. A feed request that is never answered times out.
-/

namespace ContentSpaces.Feed.Http

/-- What becomes of a request; `took` is in milliseconds. -/
inductive Reply where
  | failed (reason : String)
  | stalled
  | answered (status : Nat) (body : ByteArray) (took : Nat)

abbrev Routes := Table String Reply

/-- An unknown URL is not found. -/
def Routes.reply (routes : Routes) (url : String) : Reply :=
  (routes.get? url).getD (.answered 404 .empty 0)

/-- A base without slashes at its end. -/
def baseUrl (apiUrl : String) : String :=
  String.ofList (apiUrl.toList.reverse.dropWhile (· == '/')).reverse

def consumerUrl (cfg : Config) : String :=
  s!"{baseUrl cfg.apiUrl}/catalog/contexts/{cfg.context}/consumers/{cfg.consumer}"

def changesUrl (cfg : Config) (lower upper : Nat) : String :=
  s!"{consumerUrl cfg}/changes?from_offset={lower}&to_offset={upper}&with_empties=true"

def urlOf (cfg : Config) : RemoteRequest → String
  | .consumer => consumerUrl cfg
  | .changes lower upper => changesUrl cfg lower upper
  | .snapshot url => url

def body (url : String) : Reply → Except SyncError (ByteArray × Nat)
  | .failed reason => .error (.unreachable reason)
  | .stalled => .error .timeout
  | .answered status body took =>
    if status = 200 then .ok (body, took) else .error (.status url status)

def fetch {α : Type} (read : Wire.Decoder α) (routes : Routes) (url : String) :
    Except SyncError α := do
  let (bytes, _) ← body url (routes.reply url)
  match Wire.ofBytes? read bytes with
  | some a => .ok a
  | none => .error (.protocol (.undecodable url))

def fetchConsumer (cfg : Config) (routes : Routes) : Except SyncError RemoteConsumer :=
  fetch RemoteConsumer.decode routes (consumerUrl cfg)

def fetchChanges (cfg : Config) (routes : Routes) (lower upper : Nat) :
    Except SyncError (List Change) :=
  fetch Change.decodeBatch routes (changesUrl cfg lower upper)

/-- A download that never ends is given up at the deadline. -/
def download (routes : Routes) (url : String) : Except SyncError Download := do
  let (archive, took) ← body url (routes.reply url)
  .ok ⟨archive, took⟩

end ContentSpaces.Feed.Http
