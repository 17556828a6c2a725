import ContentSpaces.Store

/-!
# Aggregate digests

The aggregate of an integration covers its own digest and those of its decoders, kvdbs and rules in
list order; that of a policy covers its own digest followed by those of its integrations with their
children. A reference to a resource that is gone contributes nothing and is counted.
-/

namespace ContentSpaces

/-- The digests an aggregate covers, and the number of references that lead nowhere. -/
structure Coverage where
  digests : List String
  missing : Nat
  deriving DecidableEq

namespace Coverage

def empty : Coverage := ⟨[], 0⟩

def append (a b : Coverage) : Coverage := ⟨a.digests ++ b.digests, a.missing + b.missing⟩

def join (cs : List Coverage) : Coverage := cs.foldr append empty

end Coverage

structure Recalculation where
  policies : Nat
  integrations : Nat
  missing : Nat
  deriving DecidableEq, Repr

namespace Recalculation

def none : Recalculation := ⟨0, 0, 0⟩

def add (a b : Recalculation) : Recalculation :=
  ⟨a.policies + b.policies, a.integrations + b.integrations, a.missing + b.missing⟩

end Recalculation

namespace Store

def hashesOf (kind : Kind) (space : Space) : StoreM Hashes := do
  return Table.ofList ((← search kind space).map fun r => (r.id, r.hash))

def resourcesOf (space : Space) : StoreM (List (Kind × Hashes)) :=
  Kind.all.mapM fun kind => do return (kind, ← hashesOf kind space)

def policy? (space : Space) : StoreM (Option Resource) := do
  return (← search .policy space).head?

def coverChild (parent : Resource) (list : RefList) (id : String) : StoreM Coverage := do
  match ← get? ⟨list.childKind, parent.space, id⟩ with
  | some child => return ⟨[child.hash], 0⟩
  | none => return ⟨[], 1⟩

def coverList (parent : Resource) (list : RefList) : StoreM Coverage := do
  return .join (← (parent.references list).mapM (coverChild parent list))

def coverIntegration (integration : Resource) : StoreM Coverage := do
  let children ← RefList.hashOrder.mapM (coverList integration)
  return .append ⟨[integration.hash], 0⟩ (.join children)

def coverPolicy (policy : Resource) : StoreM Coverage := do
  let integrations ← (policy.references .integrations).mapM fun id => do
    match ← get? ⟨.integration, policy.space, id⟩ with
    | some integration => coverIntegration integration
    | none => return ⟨[], 1⟩
  return .append ⟨[policy.hash], 0⟩ (.join integrations)

def integrationHash? (space : Space) (id : String) : StoreM (Option String) := do
  match ← get? ⟨.integration, space, id⟩ with
  | some integration => return some (Digest.aggregate (← coverIntegration integration).digests)
  | none => return none

/-- Writes the aggregate of a container and tells how many of its references lead nowhere. -/
def refresh (cover : Resource → StoreM Coverage) (container : Resource) : StoreM Nat := do
  let coverage ← cover container
  create (container.withAggregate (Digest.aggregate coverage.digests))
  return coverage.missing

def recalculateSpace (space : Space) : StoreM Recalculation := do
  let integrations ← (← search .integration space).mapM (refresh coverIntegration)
  let policies ← (← search .policy space).mapM (refresh coverPolicy)
  return ⟨policies.length, integrations.length, (integrations ++ policies).foldr (· + ·) 0⟩

def recalculate (spaces : List Space) : StoreM Recalculation := do
  return (← spaces.mapM recalculateSpace).foldl .add .none

def defaultPolicyId : String := "5167cd37-03c1-572c-b88d-4fb510e14fbb"

def defaultPolicyDocument : Json :=
  .object [("author", .string "catalog"), ("description", .string "Custom policy"),
    ("documentation", .string ""), ("enrichments", .array []), ("filters", .array []),
    ("id", .string defaultPolicyId), ("integrations", .array []), ("references", .array []),
    ("root_decoder", .string ""), ("title", .string "Custom policy")]

/-- Creates the default policy in a space without policy and tells whether it did. -/
def ensurePolicy (space : Space) : StoreM Bool := do
  if (← policy? space).isSome then return false
  let policy ← ofExcept (Resource.create .policy space defaultPolicyDocument)
  create (policy.withAggregate policy.hash)
  return true

/-- Gives every user space a policy and lists those that had none. -/
def initializeSpaces : StoreM (List Space) := Space.ofUsers.filterM ensurePolicy

end Store

end ContentSpaces
