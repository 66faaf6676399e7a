/-!
Binary floating-point numbers of 64 bits, held by their bit pattern. The analysis compares constants
with zero and prints them; it does no arithmetic on them.

| here | there |
| --- | --- |
| `Binary64`, `isZero` | the value of `ExprKind::Constant`, `ExprArena::is_zero_constant` |
-/
namespace FormSparsity

/-- A binary floating-point number, given by its bits: sign, exponent and fraction. -/
structure Binary64 where
  bits : UInt64
deriving DecidableEq, Repr, Inhabited

namespace Binary64

instance : Zero Binary64 := ⟨⟨0⟩⟩

/-- Whether the sign bit is set. -/
def isNegative (x : Binary64) : Bool := x.bits >>> 63 == 1

/-- The eleven bits of the exponent. -/
def exponentBits (x : Binary64) : Nat := (x.bits >>> 52 &&& 0x7ff).toNat

/-- The fifty-two bits of the fraction. -/
def fractionBits (x : Binary64) : Nat := (x.bits &&& 0xfffffffffffff).toNat

/-- Whether the number equals zero, as both signed zeros do and no NaN does. -/
def isZero (x : Binary64) : Bool := x.exponentBits == 0 && x.fractionBits == 0

/-- The number without its sign. -/
inductive Magnitude where
  | nan
  | infinite
  /-- The number `significand * 2 ^ exponent`; below it the next number is only half as far away as
  above it exactly if `narrowBelow`. -/
  | finite (significand : Nat) (exponent : Int) (narrowBelow : Bool)
deriving DecidableEq, Repr

/-- Reads exponent and fraction. -/
def magnitude (x : Binary64) : Magnitude :=
  if x.exponentBits = 0x7ff then
    if x.fractionBits = 0 then .infinite else .nan
  else if x.exponentBits = 0 then
    .finite x.fractionBits (-1074) false
  else
    .finite (Nat.pow 2 52 + x.fractionBits) (x.exponentBits - 1075)
      (x.fractionBits == 0 && x.exponentBits > 1)

end Binary64

end FormSparsity
