import ContentSpaces.Number
import ContentSpaces.Json.Quoted

/-!
# Lexemes of JSON text

The scanner takes one character at a time. A numeral or a word ends where a character follows that
cannot belong to it, and that character then starts the next lexeme. A numeral beyond the finite
doubles is a lexeme without a value.
-/

namespace ContentSpaces.Json

open Quoted (Unit16)

inductive Token where
  | beginArray
  | endArray
  | beginObject
  | endObject
  | comma
  | colon
  | null
  | bool (b : Bool)
  | number (value : Option Number)
  | string (units : List Unit16)

namespace Token

/-- What the scanner is in the middle of; parts are kept in reverse. -/
inductive Mode where
  | between
  | word (letters : List Char)
  | numeral (chars : List Char)
  | quoted (units : List Unit16)
  | escape (units : List Unit16)
  | hex (units : List Unit16) (count : Nat) (code : Nat)

def isBlank (c : Char) : Bool := c == ' ' || c == '\n' || c == '\t' || c == '\r'

def inNumeral (c : Char) : Bool :=
  c.isDigit || c == '-' || c == '+' || c == '.' || c == 'e' || c == 'E'

def ofWord? (letters : List Char) : Option Token :=
  match String.ofList letters with
  | "null" => some .null
  | "true" => some (.bool true)
  | "false" => some (.bool false)
  | _ => none

def ofNumeral? (chars : List Char) : Option Token :=
  (Numeral.ofChars? chars).map fun n => .number n.value?

def start (done : List Token) (c : Char) : Option (Mode × List Token) :=
  if isBlank c then some (.between, done)
  else if c == '[' then some (.between, .beginArray :: done)
  else if c == ']' then some (.between, .endArray :: done)
  else if c == '\x7b' then some (.between, .beginObject :: done)
  else if c == '\x7d' then some (.between, .endObject :: done)
  else if c == ',' then some (.between, .comma :: done)
  else if c == ':' then some (.between, .colon :: done)
  else if c == '"' then some (.quoted [], done)
  else if c == '-' || c.isDigit then some (.numeral [c], done)
  else if c.isAlpha then some (.word [c], done)
  else none

def inQuoted (done : List Token) (units : List Unit16) (c : Char) : Option (Mode × List Token) :=
  if c == '"' then some (.between, .string units.reverse :: done)
  else if c == '\\' then some (.escape units, done)
  else if c.toNat < 0x20 then none
  else some (.quoted (.scalar c :: units), done)

/-- One character further; the lexemes are collected in reverse. -/
def step : Mode × List Token → Char → Option (Mode × List Token)
  | (.between, done), c => start done c
  | (.word letters, done), c =>
    if c.isAlpha then some (.word (c :: letters), done)
    else do start ((← ofWord? letters.reverse) :: done) c
  | (.numeral chars, done), c =>
    if inNumeral c then some (.numeral (c :: chars), done)
    else do start ((← ofNumeral? chars.reverse) :: done) c
  | (.quoted units, done), c => inQuoted done units c
  | (.escape units, done), c =>
    if c == 'u' then some (.hex units 0 0, done)
    else do some (.quoted (.scalar (← Quoted.ofEscape c) :: units), done)
  | (.hex units count code, done), c => do
    let code := code * 16 + (← Quoted.hexDigit? c)
    if count == 3 then some (.quoted (Quoted.ofCode code :: units), done)
    else some (.hex units (count + 1) code, done)

def finish : Mode × List Token → Option (List Token)
  | (.between, done) => some done.reverse
  | (.word letters, done) => do some ((← ofWord? letters.reverse) :: done).reverse
  | (.numeral chars, done) => do some ((← ofNumeral? chars.reverse) :: done).reverse
  | _ => none

def scan? (cs : List Char) : Option (List Token) :=
  (cs.foldlM step (.between, [])).bind finish

/-- A malformed part of a text may stand in a string, as a half that pairs with nothing. -/
def skipMalformed : Mode × List Token → Option (Mode × List Token)
  | (.quoted units, done) => some (.quoted (.half 0 :: units), done)
  | _ => none

def stepMarked (state : Mode × List Token) : Option Char → Option (Mode × List Token)
  | some c => step state c
  | none => skipMalformed state

def scanMarked? (cs : List (Option Char)) : Option (List Token) :=
  (cs.foldlM stepMarked (.between, [])).bind finish

end Token

end ContentSpaces.Json
