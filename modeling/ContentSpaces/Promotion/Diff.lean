import ContentSpaces.Resource

/-!
# Differences between spaces

The difference of a collection in two spaces is computed from the digests of its documents: what
only the source has is added, what differs is updated, what only the target has is deleted.
-/

namespace ContentSpaces

inductive Promotion where
  | add
  | update
  | delete
  deriving DecidableEq, Repr

namespace Promotion

def name : Promotion → String
  | .add => "add"
  | .update => "update"
  | .delete => "delete"

def ofWord? : String → Option Promotion
  | "add" => some .add
  | "update" => some .update
  | "delete" | "remove" => some .delete
  | _ => none

structure Row where
  kind : Kind
  id : String
  operation : Promotion
  deriving DecidableEq, Repr

structure Item where
  operation : Promotion
  id : String
  deriving DecidableEq, Repr

/-- The rows that bring the target in line with the source: additions, updates and deletions, each
in ID order. -/
def rows (kind : Kind) (source target : Hashes) : List Row :=
  let added := source.entries.filter fun e => !target.contains e.1
  let changed := source.entries.filter fun e => (target.get? e.1).any (· != e.2)
  let gone := target.entries.filter fun e => !source.contains e.1
  added.map (fun e => ⟨kind, e.1, .add⟩) ++ changed.map (fun e => ⟨kind, e.1, .update⟩) ++
    gone.map (fun e => ⟨kind, e.1, .delete⟩)

abbrev Preview := List (Kind × List Row)

structure Changes where
  policy : List Item
  integrations : List Item
  kvdbs : List Item
  decoders : List Item
  filters : List Item
  rules : List Item
  deriving DecidableEq, Repr

namespace Changes

def empty : Changes := ⟨[], [], [], [], [], []⟩

def of (c : Changes) : Kind → List Item
  | .policy => c.policy
  | .integration => c.integrations
  | .kvdb => c.kvdbs
  | .decoder => c.decoders
  | .filter => c.filters
  | .rule => c.rules
  | .ioc => []

/-- Appends an item; indicators of compromise are never promoted. -/
def push (c : Changes) (kind : Kind) (item : Item) : Changes :=
  match kind with
  | .policy => { c with policy := c.policy ++ [item] }
  | .integration => { c with integrations := c.integrations ++ [item] }
  | .kvdb => { c with kvdbs := c.kvdbs ++ [item] }
  | .decoder => { c with decoders := c.decoders ++ [item] }
  | .filter => { c with filters := c.filters ++ [item] }
  | .rule => { c with rules := c.rules ++ [item] }
  | .ioc => c

def size (c : Changes) : Nat := (Kind.promotable.flatMap c.of).length

end Changes

structure Request where
  space : Space
  changes : Changes
  deriving DecidableEq, Repr

def Request.ofPreview (space : Space) (preview : Preview) : Request :=
  let rows := preview.flatMap Prod.snd
  ⟨space, rows.foldl (fun c row => c.push row.kind ⟨row.operation, row.id⟩) .empty⟩

end Promotion

end ContentSpaces
