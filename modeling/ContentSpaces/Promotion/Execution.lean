import ContentSpaces.Edit

/-!
# Promotion of a space

A preview lists what brings the target of a space in line with it. Executing a request looks up
everything it names and asks the validator about everything it would write before the first write;
then it writes in order and refreshes the aggregates of the target. The policy of the source
replaces every policy of the target.
-/

namespace ContentSpaces.Promotion

open Desk

def requireTarget (source : Space) : EditM Space :=
  match source.target? with
  | some target => return target
  | none => throw (.unpromotable source)

/-- The ID of a policy does not count when policies are compared. -/
def policyBody (document : Json) : Json :=
  match document with
  | .object fs => .object (Entries.erase "id" fs)
  | v => v

/-- A policy that differs from that of the target is updated; policies are never added. -/
def policyRows (source target : Space) : StoreM (List Row) := do
  match ← Store.policy? source with
  | none => return []
  | some policy =>
    match ← Store.policy? target with
    | none => return [⟨.policy, policy.id, .update⟩]
    | some old =>
      if (policyBody old.document).equal (policyBody policy.document) then return []
      else return [⟨.policy, policy.id, .update⟩]

def rowsOf (source target : Space) (kind : Kind) : StoreM (List Row) := do
  if kind = .policy then policyRows source target
  else return rows kind (← Store.hashesOf kind source) (← Store.hashesOf kind target)

def preview (source : Space) : EditM Preview := do
  let target ← requireTarget source
  Kind.promotable.mapM fun kind => do return (kind, ← onStore (rowsOf source target kind))

inductive Step where
  | write (operation : Promotion) (resource : Resource)
  | remove (kind : Kind) (id : String)
  | policy (source : Resource)

namespace Step

def written? : Step → Option Resource
  | .write _ r => some r
  | .policy r => some r
  | .remove .. => none

end Step

def planPolicy (source : Space) (item : Item) : EditM Step := do
  match ← onStore (Store.policy? source) with
  | some policy =>
    if policy.id = item.id then return .policy policy
    else throw (.notFound ⟨.policy, source, item.id⟩)
  | none => throw (.notFound ⟨.policy, source, item.id⟩)

def planItem (source target : Space) (kind : Kind) (item : Item) : EditM Step := do
  if item.operation = .delete then return .remove kind item.id
  let resource ← require ⟨kind, source, item.id⟩
  if item.operation = .add then
    if ← onStore (Store.exists? ⟨kind, target, item.id⟩) then
      throw (.alreadyExists ⟨kind, target, item.id⟩)
  return .write item.operation resource

/-- Policies come first, then the other kinds in turn. -/
def plan (request : Request) (target : Space) : EditM (List Step) := do
  let policies ← request.changes.policy.mapM (planPolicy request.space)
  let others ← (Kind.promotable.filter (· != .policy)).mapM fun kind =>
    (request.changes.of kind).mapM (planItem request.space target kind)
  return policies ++ others.flatten

structure Tally where
  added : Nat
  updated : Nat
  removed : Nat
  missingRemovals : Nat
  deriving DecidableEq, Repr

namespace Tally

def empty : Tally := ⟨0, 0, 0, 0⟩

def add (a b : Tally) : Tally :=
  ⟨a.added + b.added, a.updated + b.updated, a.removed + b.removed,
    a.missingRemovals + b.missingRemovals⟩

end Tally

/-- Deletes the policies of a space but the one with the given ID. -/
def dropOtherPolicies (target : Space) (id : String) : StoreM Unit := do
  (← Store.search .policy target).forM fun stale => do
    if stale.id ≠ id then
      let _ ← Store.delete ⟨.policy, target, stale.id⟩

def apply (target : Space) : Step → StoreM Tally
  | .write operation resource => do
    Store.create (resource.inSpace target)
    return if operation = .add then ⟨1, 0, 0, 0⟩ else ⟨0, 1, 0, 0⟩
  | .remove kind id => do
    return if ← Store.delete ⟨kind, target, id⟩ then ⟨0, 0, 1, 0⟩ else ⟨0, 0, 0, 1⟩
  | .policy source => do
    dropOtherPolicies target source.id
    Store.create (source.inSpace target)
    return ⟨0, 1, 0, 0⟩

structure Report where
  target : Space
  tally : Tally
  recalculated : Option Recalculation

/-- Carries out a request. The aggregates of excluded targets are left as they are. -/
def execute (excluded : List Space) (request : Request) : EditM Report := do
  let target ← requireTarget request.space
  match request.changes.policy.find? (·.operation ≠ .update) with
  | some item => throw (.policyOperation item.operation)
  | none => pure ()
  let steps ← plan request target
  (steps.filterMap Step.written?).forM fun r => validate r.kind r.document
  let tallies ← onStore (steps.mapM (apply target))
  let recalculated ←
    if excluded.contains target then pure none
    else some <$> onStore (Store.recalculate [target])
  return ⟨target, tallies.foldl .add .empty, recalculated⟩

end ContentSpaces.Promotion
