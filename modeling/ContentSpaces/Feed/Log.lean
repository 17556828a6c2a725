import ContentSpaces.Feed.Remote

/-!
# A change log

A log in memory serves the changes above one offset up to another, in the order in which they were
added. It can be put out of order, or be made to serve a fixed list whatever the range.
-/

namespace ContentSpaces.Feed

structure Log where
  changes : List Change
  fixed : Option (List Change)
  consumer : RemoteConsumer
  failing : Bool

namespace Log

def empty : Log := ⟨[], none, .empty, false⟩

def range (changes : List Change) (lower upper : Nat) : List Change :=
  changes.filter fun c => lower < c.offset && c.offset ≤ upper

def answer {α : Type} (log : Log) (a : α) : Except SyncError α :=
  if log.failing then .error (.unreachable "mock feed unavailable") else .ok a

def fetchConsumer (log : Log) : Except SyncError RemoteConsumer := log.answer log.consumer

def fetch (log : Log) (lower upper : Nat) : Except SyncError (List Change) :=
  log.answer (log.fixed.getD (range log.changes lower upper))

end Log

end ContentSpaces.Feed
