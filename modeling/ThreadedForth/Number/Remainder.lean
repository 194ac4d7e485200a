/-
  The remainder of floats.

  `remainder x y` is `x` less the multiple of `y` that lies between zero and
  `x` nearest to it; it is exact and has the sign of `x`.
-/
import ThreadedForth.Number.Binary64

namespace ThreadedForth

/-- The remainder of two magnitudes `m * 2 ^ p` and `n * 2 ^ q`, as a multiple of the smaller of
    the two powers. -/
def remainderParts (m : Nat) (p : Int) (n : Nat) (q : Int) : Nat × Int :=
  let e := if p ≤ q then p else q
  ((m <<< (p - e).toNat) % (n <<< (q - e).toNat), e)

/-- The remainder of a division truncated toward zero. -/
def remainder (x y : Float) : Float :=
  match Binary64.ofFloat x, Binary64.ofFloat y with
  | .finite _ _ _, .infinite _ => x
  | .finite negative m p, .finite _ n q =>
    if n == 0 then 0.0 / 0.0
    else
      let (r, e) := remainderParts m p n q
      let magnitude := Float.scaleB (Float.ofNat r) e
      if negative then -magnitude else magnitude
  | _, _ => 0.0 / 0.0

end ThreadedForth
