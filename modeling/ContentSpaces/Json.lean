import ContentSpaces.Number
import ContentSpaces.Table

/-!
# JSON values

Objects carry their fields as an entry list. Values that are read from text have strictly ascending
keys in every object (`Json.Ordered`), and the field operations keep them so; a value that is only
written out may list its fields in another order.
-/

namespace ContentSpaces

inductive Json where
  | null
  | bool (b : Bool)
  | number (n : Number)
  | string (s : String)
  | array (items : List Json)
  | object (fields : List (String × Json))
  deriving Inhabited

namespace Json

abbrev Fields := List (String × Json)

def fields? : Json → Option Fields
  | .object fs => some fs
  | _ => none

def string? : Json → Option String
  | .string s => some s
  | _ => none

def items? : Json → Option (List Json)
  | .array xs => some xs
  | _ => none

def field? (v : Json) (key : String) : Option Json :=
  v.fields?.bind (Entries.get? key)

def stringField? (v : Json) (key : String) : Option String :=
  (v.field? key).bind string?

def ofNat (n : Nat) : Json := .number (.ofNat n)

def ofStrings (xs : List String) : Json := .array (xs.map .string)

mutual

/-- Every object in the value has strictly ascending keys. -/
def Ordered : Json → Prop
  | .array xs => OrderedItems xs
  | .object fs => Entries.Ascending fs ∧ OrderedFields fs
  | _ => True

def OrderedItems : List Json → Prop
  | [] => True
  | v :: vs => Ordered v ∧ OrderedItems vs

def OrderedFields : List (String × Json) → Prop
  | [] => True
  | (_, v) :: fs => Ordered v ∧ OrderedFields fs

end

mutual

/-- Equality of values, with numbers compared numerically (`Number.equal`). -/
def equal : Json → Json → Bool
  | .null, .null => true
  | .bool a, .bool b => a == b
  | .number m, .number n => m.equal n
  | .string s, .string t => s == t
  | .array xs, .array ys => equalItems xs ys
  | .object fs, .object gs => equalFields fs gs
  | _, _ => false

def equalItems : List Json → List Json → Bool
  | [], [] => true
  | x :: xs, y :: ys => equal x y && equalItems xs ys
  | _, _ => false

def equalFields : List (String × Json) → List (String × Json) → Bool
  | [], [] => true
  | (j, x) :: fs, (k, y) :: gs => j == k && equal x y && equalFields fs gs
  | _, _ => false

end

mutual

/-- The value with the fields of every object in key order. -/
def sorted : Json → Json
  | .array xs => .array (sortedItems xs)
  | .object fs => .object ((sortedFields fs).mergeSort fun a b => a.1 ≤ b.1)
  | v => v

def sortedItems : List Json → List Json
  | [] => []
  | v :: vs => sorted v :: sortedItems vs

def sortedFields : List (String × Json) → List (String × Json)
  | [] => []
  | (k, v) :: fs => (k, sorted v) :: sortedFields fs

end

end Json

end ContentSpaces
