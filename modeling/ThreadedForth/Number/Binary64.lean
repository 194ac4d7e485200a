/-
  Floats taken apart.

  A finite float is a sign and a value `mantissa * 2 ^ exponent`.  Texts and
  remainders are computed on these parts in exact integer arithmetic.

  * `Binary64.ofFloat`: the parts of a float;
  * `Binary64.isIntegral`: whether the value has no fraction.
-/
namespace ThreadedForth

/-- What a float stands for. -/
inductive Binary64 where
  /-- Not a number. -/
  | nan
  /-- An infinity. -/
  | infinite (negative : Bool)
  /-- The value `mantissa * 2 ^ exponent`, negated if `negative`. -/
  | finite (negative : Bool) (mantissa : Nat) (exponent : Int)
deriving DecidableEq, Repr

namespace Binary64

/-- The parts of a float.  A normal float has a mantissa of 53 bits; the floats below the least
    normal one share its exponent. -/
def ofFloat (x : Float) : Binary64 :=
  let bits := x.toBits.toNat
  let negative := bits >>> 63 == 1
  let exponent := (bits >>> 52) % 2048
  let fraction := bits % 0x10000000000000
  if exponent == 2047 then
    if fraction == 0 then infinite negative else nan
  else if exponent == 0 then finite negative fraction (-1074)
  else finite negative (0x10000000000000 + fraction) (Int.ofNat exponent - 1075)

/-- The value `mantissa * 2 ^ exponent` has no fraction. -/
def isIntegral (mantissa : Nat) (exponent : Int) : Bool :=
  mantissa % Nat.pow 2 (-exponent).toNat == 0

/-- The whole part of `mantissa * 2 ^ exponent`. -/
def whole (mantissa : Nat) (exponent : Int) : Nat :=
  mantissa * Nat.pow 2 exponent.toNat / Nat.pow 2 (-exponent).toNat

end Binary64
end ThreadedForth
