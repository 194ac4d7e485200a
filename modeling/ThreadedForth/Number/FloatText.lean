/-
  The text of floats.

  A float is written positionally, never with an exponent, with the fewest
  digits that read back (`FloatText.plain`).  As a value of a program it shows
  that it is a float: a float without a fraction is written in full and
  followed by `.0` (`FloatText.shown`).  Both are given as the pieces in which
  the text is written, because a full output buffer keeps the pieces that
  still fitted.
-/
import ThreadedForth.Number.Shortest

namespace ThreadedForth.FloatText

/-- The sign of a number as a piece of its own. -/
def sign (negative : Bool) : List String :=
  if negative then ["-"] else []

/-- A run of zeros, in pieces of at most 64. -/
def zeros (n : Nat) : List String :=
  List.replicate ((n - 1) / 64) (String.ofList (List.replicate 64 '0')) ++
    if n == 0 then [] else [String.ofList (List.replicate ((n - 1) % 64 + 1) '0')]

/-- Digits with the decimal point at the position `k`, counted from the first digit. -/
def positional (digits : List Char) (k : Int) : List String :=
  if k ≤ 0 then
    ["0."] ++ zeros (-k).toNat ++ [String.ofList digits]
  else if k.toNat < digits.length then
    [String.ofList (digits.take k.toNat), ".", String.ofList (digits.drop k.toNat)]
  else
    [String.ofList digits] ++ zeros (k.toNat - digits.length)

/-- The pieces of the plain text of a float. -/
def plain (x : Float) : List String :=
  match Binary64.ofFloat x with
  | .nan => ["NaN"]
  | .infinite negative => sign negative ++ ["inf"]
  | .finite negative 0 _ => sign negative ++ ["0"]
  | .finite negative m q =>
    let (digits, k) := (Shortest.decimal m q).normal
    sign negative ++ positional digits k

/-- The pieces of the text of a float as a value of a program. -/
def shown (x : Float) : List String :=
  match Binary64.ofFloat x with
  | .finite negative 0 _ => sign negative ++ ["0.", "0"]
  | .finite negative m q =>
    if Binary64.isIntegral m q then
      sign negative ++ [String.ofList (Nat.toDigits 10 (Binary64.whole m q)), ".", "0"]
    else plain x
  | _ => plain x

end ThreadedForth.FloatText
