import ContentSpaces.Json
import ContentSpaces.Json.Token
import ContentSpaces.Text.Utf8

/-!
# Trees of JSON text

A tree follows the grammar only: its numbers may be out of range, its strings may hold unpaired
halves and malformed bytes, and fields stand in their order with repetitions. A reader that skips a
part of a text asks no more of it than that. Taking the value of a tree asks for numbers in range,
strings that denote characters and bounded nesting; of repeated keys the last stands.
-/

namespace ContentSpaces.Json

open Quoted (Unit16)

inductive Tree where
  | null
  | bool (b : Bool)
  | number (value : Option Number)
  | string (units : List Unit16)
  | array (items : List Tree)
  | object (fields : List (List Unit16 × Tree))
  deriving Inhabited

namespace Tree

inductive Frame where
  | item (done : List Tree)
  | field (done : List (List Unit16 × Tree)) (key : List Unit16)

inductive Expecting where
  | value (stack : List Frame)
  | firstItem (stack : List Frame)
  | firstKey (stack : List Frame)
  | key (done : List (List Unit16 × Tree)) (stack : List Frame)
  | colon (done : List (List Unit16 × Tree)) (key : List Unit16) (stack : List Frame)
  | after (tree : Tree) (stack : List Frame)

def startValue (stack : List Frame) : Token → Option Expecting
  | .beginArray => some (.firstItem stack)
  | .beginObject => some (.firstKey stack)
  | .null => some (.after .null stack)
  | .bool b => some (.after (.bool b) stack)
  | .number n => some (.after (.number n) stack)
  | .string us => some (.after (.string us) stack)
  | _ => none

def step : Expecting → Token → Option Expecting
  | .value stack, t => startValue stack t
  | .firstItem stack, .endArray => some (.after (.array []) stack)
  | .firstItem stack, t => startValue (.item [] :: stack) t
  | .firstKey stack, .endObject => some (.after (.object []) stack)
  | .firstKey stack, .string k => some (.colon [] k stack)
  | .key done stack, .string k => some (.colon done k stack)
  | .colon done k stack, .colon => some (.value (.field done k :: stack))
  | .after v (.item done :: stack), .comma => some (.value (.item (v :: done) :: stack))
  | .after v (.item done :: stack), .endArray => some (.after (.array (v :: done).reverse) stack)
  | .after v (.field done k :: stack), .comma => some (.key ((k, v) :: done) stack)
  | .after v (.field done k :: stack), .endObject =>
    some (.after (.object ((k, v) :: done).reverse) stack)
  | _, _ => none

def finish : Expecting → Option Tree
  | .after v [] => some v
  | _ => none

def ofTokens? (ts : List Token) : Option Tree :=
  (ts.foldlM step (.value [])).bind finish

mutual

/-- The value of a tree that opens at most `depth` containers inside one another. -/
def value? (depth : Nat) : Tree → Option Json
  | .null => some .null
  | .bool b => some (.bool b)
  | .number n => n.map .number
  | .string us => (Quoted.decodeString us).map .string
  | .array xs => if depth = 0 then none else (items? (depth - 1) xs).map .array
  | .object fs => if depth = 0 then none else (fields? (depth - 1) fs []).map .object

def items? (depth : Nat) : List Tree → Option (List Json)
  | [] => some []
  | x :: xs => do some ((← value? depth x) :: (← items? depth xs))

def fields? (depth : Nat) : List (List Unit16 × Tree) → Fields → Option Fields
  | [], read => some read
  | (k, x) :: fs, read => do
    fields? depth fs (Entries.insert (← Quoted.decodeString k) (← value? depth x) read)

end

def maxDepth : Nat := 127

def scan? (text : List Char) : Option Tree := (Token.scan? text).bind ofTokens?

/-- The tree of a text in UTF-8; strings may hold malformed parts. -/
def scanBytes? (bytes : ByteArray) : Option Tree :=
  (Token.scanMarked? (Text.Utf8.decode bytes.toList)).bind ofTokens?

def units (s : String) : List Unit16 := s.toList.map .scalar

mutual

def ofJson : Json → Tree
  | .null => .null
  | .bool b => .bool b
  | .number n => .number (some n)
  | .string s => .string (units s)
  | .array xs => .array (ofItems xs)
  | .object fs => .object (ofFields fs)

def ofItems : List Json → List Tree
  | [] => []
  | v :: vs => ofJson v :: ofItems vs

def ofFields : List (String × Json) → List (List Unit16 × Tree)
  | [] => []
  | (k, v) :: fs => (units k, ofJson v) :: ofFields fs

end

end Tree

def read? (text : List Char) : Option Json :=
  (Tree.scan? text).bind (Tree.value? Tree.maxDepth)

def ofText? (text : String) : Option Json := read? text.toList

def ofBytes? (bytes : ByteArray) : Option Json :=
  (String.fromUTF8? bytes).bind ofText?

end ContentSpaces.Json
