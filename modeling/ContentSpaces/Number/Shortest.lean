import ContentSpaces.Number.Double

/-!
# Shortest decimal text of a double

The digits are the fewest that read back as the same double, and of two such decimals the nearer.
For one digit, two digits, and so on, the two neighbours of the value on that decimal grid are
tested against the interval of reals that round to it, in exact arithmetic.
-/

namespace ContentSpaces.Double

structure Decimal where
  digits : Nat
  exponent : Int
  deriving DecidableEq, Repr

/-- The decimal exponent of the leading digit of a magnitude that is not zero. -/
def leadingExponent (x : Double) : Int :=
  let widened := x.significand * Nat.pow 2 x.scale * Nat.pow 10 400 / Nat.pow 2 1074
  (Nat.toDigits 10 widened).length - 401

/-- The multiple of `10 ^ k` that is nearest to the magnitude, if one reads back as it. -/
def onGrid (x : Double) (k : Int) : Option Decimal :=
  let m := x.significand
  let step := Nat.pow 10 k.toNat * Nat.pow 2 1076
  let unit := Nat.pow 10 (-k).toNat * Nat.pow 2 x.scale
  let value := 4 * m * unit
  let low := (if m == Nat.pow 2 52 && x.scale != 0 then 4 * m - 1 else 4 * m - 2) * unit
  let high := (4 * m + 2) * unit
  let inside (c : Nat) : Bool :=
    if m % 2 == 0 then low ≤ c * step && c * step ≤ high
    else low < c * step && c * step < high
  let below := value / step
  let above := below + 1
  let nearerBelow : Bool :=
    let down := value - below * step
    let up := above * step - value
    down < up || (down == up && below % 2 == 0)
  if inside below && (nearerBelow || !inside above) then some ⟨below, k⟩
  else if inside above then some ⟨above, k⟩
  else none

/-- Tries grids of `n`, `n + 1`, … digits; `fuel` bounds the number of grids. -/
def shortestFrom (x : Double) (leading : Int) (n : Nat) : (fuel : Nat) → Decimal
  | 0 => ⟨x.significand, 0⟩
  | fuel + 1 =>
    match x.onGrid (leading + 1 - n) with
    | some d => d
    | none => x.shortestFrom leading (n + 1) fuel

/-- Seventeen digits always suffice. -/
def shortest (x : Double) : Decimal :=
  x.shortestFrom x.leadingExponent 1 17

/-- Where positional notation ends: it is used for leading exponents from `least` to below
`bound`, always with a point; beyond, an exponent with its sign is written. -/
structure Layout where
  least : Int
  bound : Int

def layout : Layout := ⟨-5, 16⟩

def dropTrailingZeros (ds : List Char) : List Char :=
  (ds.reverse.dropWhile (· == '0')).reverse

def positional (ds : List Char) (e : Int) : List Char :=
  if e < 0 then
    '0' :: '.' :: (List.replicate ((-e).toNat - 1) '0' ++ ds)
  else
    let whole := e.toNat + 1
    if ds.length ≤ whole then ds ++ List.replicate (whole - ds.length) '0' ++ ['.', '0']
    else ds.take whole ++ '.' :: ds.drop whole

def scientific (ds : List Char) (e : Int) : List Char :=
  let fraction := match ds.drop 1 with
    | [] => []
    | rest => '.' :: rest
  ds.take 1 ++ fraction ++ 'e' :: (if e < 0 then '-' else '+') :: Nat.toDigits 10 e.natAbs

def magnitudeText (x : Double) (style : Layout) : List Char :=
  if x.isZero then ['0', '.', '0']
  else
    let d := x.shortest
    let all := Nat.toDigits 10 d.digits
    let ds := dropTrailingZeros all
    let e := d.exponent + all.length - 1
    if style.least ≤ e && e < style.bound then positional ds e else scientific ds e

def text (x : Double) : List Char :=
  if x.negative then '-' :: x.magnitudeText layout else x.magnitudeText layout

end ContentSpaces.Double
