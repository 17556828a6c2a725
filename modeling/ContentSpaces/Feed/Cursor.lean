import ContentSpaces.Table
import ContentSpaces.Text.Blank

/-!
# Cursors

A cursor records how far a consumer of a context has followed the remote log. Cursors are filed
under their context and name.
-/

namespace ContentSpaces

structure Cursor where
  name : String
  context : String
  localOffset : Nat
  remoteOffset : Nat
  snapshotLink : String
  deriving DecidableEq, Repr

namespace Cursor

def fresh (context name : String) : Cursor := ⟨name, context, 0, 0, ""⟩

def isEmpty (c : Cursor) : Bool := c.localOffset == 0

end Cursor

structure RemoteConsumer where
  name : String
  context : String
  lastOffset : Nat
  lastSnapshotLink : Option String
  lastSnapshotOffset : Nat
  deriving DecidableEq, Repr

namespace RemoteConsumer

def empty : RemoteConsumer := ⟨"", "", 0, none, 0⟩

/-- The advertised snapshot; a blank link advertises none. -/
def snapshotLink? (r : RemoteConsumer) : Option String :=
  r.lastSnapshotLink.filter fun link => !Text.isBlankText link

end RemoteConsumer

structure Consumer where
  context : String
  name : String
  deriving DecidableEq, Repr

instance : Ord Consumer :=
  ⟨fun a b => (compare a.context b.context).then (compare a.name b.name)⟩

instance : Std.TransOrd Consumer :=
  inferInstanceAs (Std.TransCmp
    (compareLex (compareOn Consumer.context) (compareOn Consumer.name)))

instance : Std.LawfulEqOrd Consumer where
  compare_self := Std.ReflCmp.compare_self
  eq_of_compare {a b} h := by
    obtain ⟨h1, h2⟩ := Ordering.then_eq_eq.mp h
    cases a
    cases b
    simp only at h1 h2
    rw [Std.LawfulEqCmp.eq_of_compare h1, Std.LawfulEqCmp.eq_of_compare h2]

def Cursor.owner (c : Cursor) : Consumer := ⟨c.context, c.name⟩

abbrev Cursors := Table Consumer Cursor

namespace Cursors

def put (cs : Cursors) (c : Cursor) : Cursors := cs.insert c.owner c

def putAll (cs : Cursors) (added : List Cursor) : Cursors := added.foldl put cs

end Cursors

end ContentSpaces
