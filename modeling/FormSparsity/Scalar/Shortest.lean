import FormSparsity.Scalar.Binary64

/-!
The shortest decimal of a floating-point number. The reals that round to a number form an interval,
which holds its end points exactly if the significand is even. On the grid of the decimals with a
given count of digits only the two neighbours of the number have to be tested; the coarsest grid on
which one of them lies in the interval wins, and of two the nearer, the upper one if both are
equally near. Seventeen digits always suffice.

Numbers are written without exponent, whatever their size.

| here | there |
| --- | --- |
| `Binary64.text` | how constants and exponents are printed by `ExprDisplay` and `UnaryFunction` |
-/
namespace FormSparsity

/-- The positive number `numerator / denominator` with the ends of the interval of reals that round
to it, over the same denominator. -/
structure Rounding where
  lower : Nat
  numerator : Nat
  upper : Nat
  denominator : Nat
  /-- Whether the ends themselves round to the number. -/
  closed : Bool

/-- A decimal `digits * 10 ^ exponent`. -/
structure Decimal where
  digits : Nat
  exponent : Int
deriving DecidableEq, Repr

namespace Rounding

/-- The interval around `significand * 2 ^ exponent`, which reaches half-way to the neighbours. -/
def ofScaled (significand : Nat) (exponent : Int) (narrowBelow : Bool) : Rounding :=
  let scale := Nat.pow 2 (exponent - 2).toNat
  { lower := (4 * significand - if narrowBelow then 1 else 2) * scale
    numerator := 4 * significand * scale
    upper := (4 * significand + 2) * scale
    denominator := Nat.pow 2 (2 - exponent).toNat
    closed := significand % 2 = 0 }

/-- The exponent of the leading decimal digit. -/
def leadingExponent (r : Rounding) : Int :=
  if r.denominator ≤ r.numerator then
    ((Nat.toDigits 10 (r.numerator / r.denominator)).length : Int) - 1
  else
    let places := (Nat.toDigits 10 r.denominator).length - (Nat.toDigits 10 r.numerator).length
    if r.denominator ≤ r.numerator * Nat.pow 10 places then -places else -(places + 1)

/-- Whether a decimal rounds to the number. -/
def contains (r : Rounding) (d : Decimal) : Bool :=
  let value := d.digits * Nat.pow 10 d.exponent.toNat * r.denominator
  let scale := Nat.pow 10 (-d.exponent).toNat
  if r.closed then r.lower * scale ≤ value && value ≤ r.upper * scale
  else r.lower * scale < value && value < r.upper * scale

/-- The neighbour of the number on the grid of the multiples of `10 ^ exponent` that rounds to it,
if there is one. -/
def onGrid? (r : Rounding) (exponent : Int) : Option Decimal :=
  let numerator := r.numerator * Nat.pow 10 (-exponent).toNat
  let denominator := r.denominator * Nat.pow 10 exponent.toNat
  let below : Decimal := ⟨numerator / denominator, exponent⟩
  let above : Decimal := ⟨numerator / denominator + 1, exponent⟩
  match r.contains below, r.contains above with
  | true, true => if 2 * (numerator % denominator) < denominator then some below else some above
  | true, false => some below
  | false, true => some above
  | false, false => none

/-- The shortest decimal that rounds to the number. -/
def shortest (r : Rounding) : Decimal :=
  let leading := r.leadingExponent
  ((List.range 17).findSome? fun (places : Nat) => r.onGrid? (leading - places)).getD
    ⟨r.numerator / r.denominator, 0⟩

end Rounding

/-- The digits in positional notation, with a point only if a digit other than zero follows it. -/
def Decimal.text (d : Decimal) : String :=
  let scale := Nat.pow 10 (-d.exponent).toNat
  let whole := d.digits * Nat.pow 10 d.exponent.toNat / scale
  let places := Nat.toDigits 10 (d.digits * Nat.pow 10 d.exponent.toNat % scale)
  let padded := List.replicate ((-d.exponent).toNat - places.length) '0' ++ places
  let fraction := (padded.reverse.dropWhile (· = '0')).reverse
  if fraction.isEmpty then toString whole else s!"{whole}.{String.ofList fraction}"

/-- The sign and the shortest decimal, as in `-0`, `2.5`, `1000` and `0.0001`. -/
def Binary64.text (x : Binary64) : String :=
  let sign := if x.isNegative then "-" else ""
  match x.magnitude with
  | .nan => "NaN"
  | .infinite => sign ++ "inf"
  | .finite 0 _ _ => sign ++ "0"
  | .finite significand exponent narrowBelow =>
    sign ++ (Rounding.ofScaled significand exponent narrowBelow).shortest.text

end FormSparsity
