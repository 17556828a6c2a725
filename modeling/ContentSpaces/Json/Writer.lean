import ContentSpaces.Json
import ContentSpaces.Json.Quoted

/-!
# Text of JSON values

The compact form has no blanks; the indented form puts every item and field on a line of its own.
Both list the fields of an object in the order they are stored. The canonical form is the compact
form of the value with its keys sorted. The writers put their text in front of a given rest.
-/

namespace ContentSpaces.Json

mutual

def write : Json → List Char → List Char
  | .null, rest => 'n' :: 'u' :: 'l' :: 'l' :: rest
  | .bool true, rest => 't' :: 'r' :: 'u' :: 'e' :: rest
  | .bool false, rest => 'f' :: 'a' :: 'l' :: 's' :: 'e' :: rest
  | .number n, rest => n.text ++ rest
  | .string s, rest => Quoted.write s rest
  | .array [], rest => '[' :: ']' :: rest
  | .array (v :: vs), rest => '[' :: write v (writeItems vs rest)
  | .object [], rest => '\x7b' :: '\x7d' :: rest
  | .object ((k, v) :: fs), rest =>
    '\x7b' :: Quoted.write k (':' :: write v (writeFields fs rest))

def writeItems : List Json → List Char → List Char
  | [], rest => ']' :: rest
  | v :: vs, rest => ',' :: write v (writeItems vs rest)

def writeFields : List (String × Json) → List Char → List Char
  | [], rest => '\x7d' :: rest
  | (k, v) :: fs, rest => ',' :: Quoted.write k (':' :: write v (writeFields fs rest))

end

def compact (v : Json) : String := String.ofList (v.write [])

def canonical (v : Json) : String := v.sorted.compact

/-- A line break and the indentation of the given level, two blanks each. -/
def newline (level : Nat) (rest : List Char) : List Char :=
  '\n' :: (List.replicate (2 * level) ' ' ++ rest)

mutual

def writeIndented (level : Nat) : Json → List Char → List Char
  | .array (v :: vs), rest =>
    '[' :: newline (level + 1) (writeIndented (level + 1) v (indentItems level vs rest))
  | .object ((k, v) :: fs), rest =>
    '\x7b' :: newline (level + 1) (Quoted.write k
      (':' :: ' ' :: writeIndented (level + 1) v (indentFields level fs rest)))
  | v, rest => write v rest

def indentItems (level : Nat) : List Json → List Char → List Char
  | [], rest => newline level (']' :: rest)
  | v :: vs, rest =>
    ',' :: newline (level + 1) (writeIndented (level + 1) v (indentItems level vs rest))

def indentFields (level : Nat) : List (String × Json) → List Char → List Char
  | [], rest => newline level ('\x7d' :: rest)
  | (k, v) :: fs, rest =>
    ',' :: newline (level + 1) (Quoted.write k
      (':' :: ' ' :: writeIndented (level + 1) v (indentFields level fs rest)))

end

def indented (v : Json) : String := String.ofList (v.writeIndented 0 [])

end ContentSpaces.Json
