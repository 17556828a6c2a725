/-!
# Finite doubles

A double is a sign and a magnitude `significand * 2 ^ (scale - 1074)`. Significands stay below
`2 ^ 53`, and a scale above zero comes with a significand of at least `2 ^ 52`, so that a magnitude
is written in one way. Arithmetic is exact arithmetic followed by one rounding to the nearest
double, a tie going to the even significand.
-/

namespace ContentSpaces

structure Double where
  negative : Bool
  significand : Nat
  scale : Nat
  deriving DecidableEq, Inhabited

namespace Double

def maxScale : Nat := 2045

def isFinite (x : Double) : Bool := x.scale ≤ maxScale

def isZero (x : Double) : Bool := x.significand == 0

def zero (negative : Bool) : Double := ⟨negative, 0, 0⟩

/-- Numeric equality: the two zeros are equal. -/
def equal (x y : Double) : Bool :=
  x == y || (x.isZero && y.isZero)

/-- The double nearest to `num / den`; beyond the finite range the scale exceeds `maxScale`. -/
def nearest (negative : Bool) (num den : Nat) : Double :=
  let scaled := num * Nat.pow 2 1074
  let scale := (scaled / den).log2 - 52
  let unit := den * Nat.pow 2 scale
  let floor := scaled / unit
  let rest := scaled % unit
  let rounded :=
    if 2 * rest > unit || (2 * rest == unit && floor % 2 == 1) then floor + 1 else floor
  if rounded = Nat.pow 2 53 then ⟨negative, Nat.pow 2 52, scale + 1⟩ else ⟨negative, rounded, scale⟩

def ofNat (negative : Bool) (n : Nat) : Double := nearest negative n 1

def mulMagnitude (x y : Double) : Double :=
  nearest x.negative (x.significand * y.significand * Nat.pow 2 (x.scale + y.scale))
    (Nat.pow 2 2148)

def divMagnitude (x y : Double) : Double :=
  nearest x.negative (x.significand * Nat.pow 2 x.scale) (y.significand * Nat.pow 2 y.scale)

def powerOfTen (n : Nat) : Double := ofNat false (Nat.pow 10 n)

def maxPower : Nat := 308

/-- Divides by `10 ^ n` in steps of at most `10 ^ 308`, each rounded. -/
def shrink (x : Double) (n : Nat) : Double :=
  if n ≤ maxPower then x.divMagnitude (powerOfTen n)
  else if x.isZero then x
  else (x.divMagnitude (powerOfTen maxPower)).shrink (n - maxPower)
termination_by n
decreasing_by
  rename_i h _
  simp only [maxPower] at *
  omega

/-- Scales by a power of ten; `none` when the result is not finite. -/
def scaleByTen (x : Double) (exponent : Int) : Option Double :=
  if exponent < 0 then
    some (x.shrink exponent.natAbs)
  else if exponent.natAbs ≤ maxPower then
    let y := x.mulMagnitude (powerOfTen exponent.natAbs)
    if y.isFinite then some y else none
  else if x.isZero then some x
  else none

end Double

end ContentSpaces
