import ContentSpaces.Number.Double
import ContentSpaces.Number.Shortest

/-!
# Numbers of a document

Integers from `-2 ^ 63` to `2 ^ 64 - 1` stay integers; every other number is a double. A numeral is
read digit by digit into a 64-bit word. Digits that no longer fit only move the exponent, and the
word is then scaled by a power of ten as a double, so a long decimal may land beside the nearest
double.
-/

namespace ContentSpaces

inductive Number where
  | integer (n : Int)
  | double (x : Double)
  deriving DecidableEq, Inhabited

namespace Number

def ofNat (n : Nat) : Number := .integer n

/-- Numeric equality within one representation; an integer never equals a double. -/
def equal : Number → Number → Bool
  | .integer m, .integer n => m == n
  | .double x, .double y => x.equal y
  | _, _ => false

/-- A number in `0 .. 2 ^ 64 - 1`. -/
def toNat? : Number → Option Nat
  | .integer (.ofNat n) => some n
  | _ => none

def integerText : Int → List Char
  | .ofNat n => Nat.toDigits 10 n
  | .negSucc n => '-' :: Nat.toDigits 10 (n + 1)

def text : Number → List Char
  | .integer n => integerText n
  | .double x => x.text

end Number

/-- A numeral as written: digits of the whole part, of the fraction, and the exponent. -/
structure Numeral where
  negative : Bool
  whole : List Nat
  fraction : Option (List Nat)
  exponent : Option (Bool × List Nat)

namespace Numeral

def digit? (c : Char) : Option Nat :=
  if c.isDigit then some (c.toNat - '0'.toNat) else none

def digits : List Char → List Nat × List Char
  | [] => ([], [])
  | c :: rest =>
    match digit? c with
    | some d => let (ds, tail) := digits rest; (d :: ds, tail)
    | none => ([], c :: rest)

/-- The whole part has no leading zero unless it is a lone zero. -/
def wholePart? (cs : List Char) : Option (List Nat × List Char) :=
  match digits cs with
  | ([], _) => none
  | (0 :: _ :: _, _) => none
  | (ds, rest) => some (ds, rest)

def fraction? : List Char → Option (Option (List Nat) × List Char)
  | '.' :: cs =>
    match digits cs with
    | ([], _) => none
    | (ds, rest) => some (some ds, rest)
  | cs => some (none, cs)

def exponent? : List Char → Option (Option (Bool × List Nat))
  | [] => some none
  | e :: cs =>
    if e == 'e' || e == 'E' then
      let (negative, cs) := match cs with
        | '-' :: cs => (true, cs)
        | '+' :: cs => (false, cs)
        | cs => (false, cs)
      match digits cs with
      | ([], _) => none
      | (ds, []) => some (some (negative, ds))
      | _ => none
    else none

def ofChars? (cs : List Char) : Option Numeral := do
  let (negative, cs) := match cs with
    | '-' :: cs => (true, cs)
    | cs => (false, cs)
  let (whole, cs) ← wholePart? cs
  let (fraction, cs) ← fraction? cs
  let exponent ← exponent? cs
  some ⟨negative, whole, fraction, exponent⟩

/-- Appends digits to a word while the result is below the bound; returns the digits left over. -/
def pack (bound : Nat) (word : Nat) : List Nat → Nat × List Nat
  | [] => (word, [])
  | d :: ds => if word * 10 + d < bound then pack bound (word * 10 + d) ds else (word, d :: ds)

def wordBound : Nat := Nat.pow 2 64

def exponentBound : Nat := Nat.pow 2 31

/-- The value of a numeral; `none` when it lies beyond the finite doubles. -/
def value? (n : Numeral) : Option Number :=
  let (word, dropped) := pack wordBound 0 n.whole
  match n.fraction, n.exponent, dropped with
  | none, none, [] =>
    if !n.negative then some (.integer word)
    else if word = 0 then some (.double (.zero true))
    else if word ≤ Nat.pow 2 63 then some (.integer (-(word : Int)))
    else some (.double (.ofNat true word))
  | _, _, _ =>
    let (word, unread) := pack wordBound word (n.fraction.getD [])
    let taken := (n.fraction.getD []).length - unread.length
    let start : Int := dropped.length - taken
    let mantissa := Double.ofNat n.negative word
    match n.exponent with
    | none => (mantissa.scaleByTen start).map .double
    | some (down, ds) =>
      match pack exponentBound 0 ds with
      | (e, []) =>
        (mantissa.scaleByTen (if down then start - e else start + e)).map .double
      | _ => if word = 0 || down then some (.double (.zero n.negative)) else none

end Numeral

end ContentSpaces
