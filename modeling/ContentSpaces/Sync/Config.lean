import ContentSpaces.Feed.Cursor
import ContentSpaces.Registration.Dispatch

/-!
# Configuration of a synchronisation

A synchronisation follows one consumer of one context and keeps one space in step with it.
-/

namespace ContentSpaces

/-- Times are in milliseconds. -/
structure Config where
  context : String
  consumer : String
  apiUrl : String
  space : Space
  batchSize : Nat
  requestTimeout : Nat
  snapshotDeadline : Option Nat
  workDirectory : Option String
  limits : Dispatch.Limits
  deriving DecidableEq, Repr

namespace Config

def new (context consumer apiUrl : String) : Config :=
  ⟨context, consumer, apiUrl, .standard, 999, 30000, none, none, .default⟩

/-- A batch holds one resource at least. -/
def withBatchSize (c : Config) (size : Nat) : Config := { c with batchSize := max 1 size }

/-- Room for a whole batch is set aside before it is filled; there is none for one this large. -/
def batchLimit : Nat := Nat.pow 2 56

def owner (c : Config) : Consumer := ⟨c.context, c.consumer⟩

end Config

/-- One request at least may be under way. -/
def Dispatch.Limits.withConcurrency (l : Dispatch.Limits) (n : Nat) : Dispatch.Limits :=
  { l with concurrency := max 1 n }

end ContentSpaces
