import ContentSpaces.Sync.Replica

/-!
# Update cycles

A cycle fetches the changes above one offset up to another, applies them in offset order and
commits the last offset to the cursor. When fetching fails nothing else happens; when anything
fails after that, the cursor is reset, so the next synchronisation starts over.
-/

namespace ContentSpaces.Cycle

open Replica

structure Report where
  lower : Nat
  upper : Nat
  committed : Nat
  applied : Nat
  skipped : Nat
  registrations : List Task

def Report.hasChanges (r : Report) : Bool := 0 < r.applied

/-- The ID by which changes address the policy, whatever its own ID is. -/
def policyAlias : String := "policy"

inductive Effect where
  | changed (task : Option Task)
  | skipped

def updateTarget (space : Space) (change : Change) : ReplicaM Address := do
  let policy ←
    if change.resource = policyAlias then onStore (Store.policy? space) else pure none
  match policy with
  | some policy => return ⟨.policy, space, policy.id⟩
  | none =>
    match ← onStore (Store.locate space change.resource) with
    | some kind => return ⟨kind, space, change.resource⟩
    | none => throw (.protocol (.unknownTarget change.offset change.resource))

/-- Creations of an unknown kind and deletions of what is not there are skipped. -/
def apply (space : Space) (change : Change) : ReplicaM Effect := do
  match change.kind with
  | .create =>
    match change.payload with
    | none => throw (.protocol (.missingPayload change.offset))
    | some payload =>
      match payload.kind? with
      | none => return .skipped
      | some kind => onStore do
        let r ← ofExcept (Resource.ingest kind space payload.document)
        Store.create r
        return .changed (Task.upsert? r)
  | .update =>
    let target ← updateTarget space change
    let r ← onStore (Store.update target change.operations)
    return .changed (Task.upsert? r)
  | .delete => onStore do
    match ← Store.locate space change.resource with
    | none => return .skipped
    | some kind =>
      let _ ← Store.delete ⟨kind, space, change.resource⟩
      return .changed (Task.delete? kind change.resource)

/-- Offsets of changes in order lie in the range and differ. -/
def checkOffsets (lower upper : Nat) : Option Nat → List Change → Except SyncError Unit
  | _, [] => .ok ()
  | last, c :: cs =>
    if c.offset ≤ lower ∨ upper < c.offset then
      .error (.protocol (.outsideRange c.offset lower upper))
    else if last = some c.offset then .error (.protocol (.duplicateOffset c.offset))
    else checkOffsets lower upper (some c.offset) cs

def inOrder (changes : List Change) : List Change :=
  changes.mergeSort fun a b => a.offset ≤ b.offset

def note (effect : Effect) (p : Progress) : Progress :=
  match effect with
  | .changed task => { p with applied := p.applied + 1, tasks := p.tasks ++ task.toList }
  | .skipped => { p with skipped := p.skipped + 1 }

/-- Applies changes in turn, unless the cycle is cancelled. -/
def applyAll (space : Space) (cancelled : Bool) : List Change → ReplicaM Unit
  | [] => return
  | c :: cs => do
    if cancelled then throw .cancelled
    let effect ← apply space c
    onEngine fun e => { e with progress := note effect e.progress }
    applyAll space cancelled cs

/-- Applies changes in order and commits; gives the committed offset. -/
def commit (cfg : Config) (lower upper : Nat) (cancelled : Bool) (changes : List Change) :
    ReplicaM Nat := do
  ofExcept (checkOffsets lower upper none changes)
  applyAll cfg.space cancelled changes
  let offset := (changes.getLast?.map Change.offset).getD lower
  onCursors (CursorStore.revise cfg.owner fun c => { c with localOffset := offset })
  return offset

def concluded (s : Statistics) (p : Progress) (error : Option SyncError) : Statistics :=
  { committed := if error.isNone then s.committed + 1 else s.committed
    reset := if error.isSome then s.reset + 1 else s.reset
    applied := s.applied + p.applied
    skipped := s.skipped + p.skipped
    ended := true
    lastError := error }

def conclude (phase : Phase) (error : Option SyncError) : ReplicaM Unit :=
  onEngine fun e =>
    { e with phase := phase, statistics := concluded e.statistics e.progress error }

/-- Runs a cycle over the changes above `lower` up to `upper`. -/
def update (cfg : Config) (remote : Remote) (lower upper : Nat) : ReplicaM Report := do
  let phase := (← get).engine.phase
  if !phase.canStart then throw (.busy phase)
  onEngine fun e => { e with phase := .fetching }
  let batch ← ask (.changes lower upper) (remote.changes lower upper)
  match batch.changes with
  | .error e =>
    onEngine fun engine =>
      { engine with
        phase := .idle
        statistics := { engine.statistics with lastError := some e } }
    throw e
  | .ok changes =>
    onEngine fun e => { e with phase := .applying, progress := .none }
    try
      let committed ← commit cfg lower upper batch.cancelled (inOrder changes)
      conclude .committed none
      let p := (← get).engine.progress
      return ⟨lower, upper, committed, p.applied, p.skipped, p.tasks⟩
    catch e =>
      attempt (onCursors (CursorStore.reset cfg.owner))
      conclude .reset (some e)
      throw e

end ContentSpaces.Cycle
