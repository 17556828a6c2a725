/-!
# Quoted strings

A string literal is read into units: scalar values, and halves of surrogate pairs that were written
as escapes. Only a leading half directly followed by a trailing one denotes a character, so not
every well-formed literal denotes a string.
-/

namespace ContentSpaces.Quoted

inductive Unit16 where
  | scalar (c : Char)
  | half (code : Nat)
  deriving DecidableEq

def isLeading (code : Nat) : Bool := 0xd800 ≤ code && code < 0xdc00

def isTrailing (code : Nat) : Bool := 0xdc00 ≤ code && code < 0xe000

def ofCode (code : Nat) : Unit16 :=
  if isLeading code || isTrailing code then .half code else .scalar (Char.ofNat code)

def joined (lead trail : Nat) : Char :=
  Char.ofNat (0x10000 + (lead - 0xd800) * 0x400 + (trail - 0xdc00))

/-- The characters that the units denote; `none` when a half stands alone. -/
def decode : List Unit16 → Option (List Char)
  | [] => some []
  | .scalar c :: us => (decode us).map (c :: ·)
  | .half lead :: .half trail :: us =>
    if isLeading lead && isTrailing trail then (decode us).map (joined lead trail :: ·) else none
  | .half _ :: _ => none

def decodeString (us : List Unit16) : Option String := (decode us).map String.ofList

def ofEscape : Char → Option Char
  | '"' => some '"'
  | '\\' => some '\\'
  | '/' => some '/'
  | 'b' => some '\x08'
  | 'f' => some '\x0c'
  | 'n' => some '\n'
  | 'r' => some '\r'
  | 't' => some '\t'
  | _ => none

def hexDigit? (c : Char) : Option Nat :=
  if '0' ≤ c && c ≤ '9' then some (c.toNat - '0'.toNat)
  else if 'a' ≤ c && c ≤ 'f' then some (c.toNat - 'a'.toNat + 10)
  else if 'A' ≤ c && c ≤ 'F' then some (c.toNat - 'A'.toNat + 10)
  else none

def hexDigit (n : Nat) : Char := Nat.digitChar n

/-- Quotes, backslashes and characters below U+0020 are escaped, and nothing else. -/
def escaped (c : Char) (rest : List Char) : List Char :=
  match c with
  | '"' => '\\' :: '"' :: rest
  | '\\' => '\\' :: '\\' :: rest
  | '\x08' => '\\' :: 'b' :: rest
  | '\x0c' => '\\' :: 'f' :: rest
  | '\n' => '\\' :: 'n' :: rest
  | '\r' => '\\' :: 'r' :: rest
  | '\t' => '\\' :: 't' :: rest
  | c =>
    if c.toNat < 0x20 then
      '\\' :: 'u' :: '0' :: '0' :: hexDigit (c.toNat / 16) :: hexDigit (c.toNat % 16) :: rest
    else c :: rest

def escapedAll : List Char → List Char → List Char
  | [], rest => rest
  | c :: cs, rest => escaped c (escapedAll cs rest)

def write (s : String) (rest : List Char) : List Char :=
  '"' :: escapedAll s.toList ('"' :: rest)

end ContentSpaces.Quoted
