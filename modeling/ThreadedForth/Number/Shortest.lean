/-
  The fewest decimal digits that read back as a float.

  The reals that round to the float `m * 2 ^ q` form an interval around it.
  For one digit, two digits and so on, the two neighbours of the value on the
  decimal grid of that many digits are tried; the first grid that has one of
  them in the interval gives the answer, the nearer one if both are, and the
  larger one of two that are equally near.
-/
import ThreadedForth.Number.Binary64

namespace ThreadedForth.Shortest

/-- The interval of the reals that round to a float, in units of a fourth of the last place of
    its mantissa: the value, and its distance to either end. -/
structure Interval where
  /-- The float itself. -/
  value : Nat
  /-- The distance to the lower end. -/
  below : Nat
  /-- The distance to the upper end. -/
  above : Nat
  /-- Whether the ends belong to the interval. -/
  closed : Bool
  /-- The unit is two to this power. -/
  exponent : Int

/-- The interval of `m * 2 ^ q`.  Below a power of two the floats lie twice as close.  The ends
    round to the float when its mantissa is even. -/
def interval (m : Nat) (q : Int) : Interval where
  value := 4 * m
  below := if m == 0x10000000000000 then 1 else 2
  above := 2
  closed := m % 2 == 0
  exponent := q - 2

/-- A decimal `digits * 10 ^ exponent`. -/
structure Decimal where
  /-- The digits, read as a number. -/
  digits : Nat
  /-- The power of ten of the last digit. -/
  exponent : Int

/-- The neighbour of the interval's value on the grid of multiples of `10 ^ t` that is to be
    taken, if one of the two is in the interval. -/
def onGrid? (i : Interval) (t : Int) : Option Nat :=
  -- `c * 10 ^ t` against `x * 2 ^ e` is `c * g` against `x * f`
  let f := Nat.pow 2 i.exponent.toNat * Nat.pow 10 (-t).toNat
  let g := Nat.pow 10 t.toNat * Nat.pow 2 (-i.exponent).toNat
  let v := i.value * f
  let lo := (i.value - i.below) * f
  let hi := (i.value + i.above) * f
  let c := v / g
  let down := if i.closed then lo ≤ c * g else lo < c * g
  let up := if i.closed then (c + 1) * g ≤ hi else (c + 1) * g < hi
  if down && up then
    if v - c * g < (c + 1) * g - v then some c else some (c + 1)
  else if down then some c
  else if up then some (c + 1)
  else none

/-- The position `k` of the decimal point: the value lies from `10 ^ (k - 1)` up to `10 ^ k`. -/
def magnitude (m : Nat) (q : Int) : Int :=
  Int.ofNat (Nat.toDigits 10 (Binary64.whole (m * Nat.pow 10 400) q)).length - 400

/-- The first grid from `n` digits on that has an answer. -/
def search (i : Interval) (k : Int) : Nat → Nat → Decimal
  | 0, n => ⟨(onGrid? i (k - Int.ofNat n)).getD 0, k - Int.ofNat n⟩
  | fuel + 1, n =>
    match onGrid? i (k - Int.ofNat n) with
    | some d => ⟨d, k - Int.ofNat n⟩
    | none => search i k fuel (n + 1)

/-- The decimal with the fewest digits that reads back as `m * 2 ^ q`, for a mantissa other than
    zero.  Seventeen digits are always enough. -/
def decimal (m : Nat) (q : Int) : Decimal :=
  search (interval m q) (magnitude m q) 16 1

/-- The digits of a decimal without the zeros at their end, and the position of the decimal point
    counted from the first digit. -/
def Decimal.normal (d : Decimal) : List Char × Int :=
  let cs := Nat.toDigits 10 d.digits
  (((cs.reverse.dropWhile (· == '0')).reverse), Int.ofNat cs.length + d.exponent)

end ThreadedForth.Shortest
