/-
  Number literals of the source text.

  An integer is an optional sign and decimal digits, in the range of 64 bits.
  A float is an optional sign, digits with an optional fraction and an
  optional exponent, and shows that it is a float by a decimal point or an
  exponent.  A digit or a dot follows the sign, so no word such as `inf` is a
  number.

  * `integer?`, `float?`: the two readers;
  * `number?`: the integer a token denotes, or else its float.
-/
namespace ThreadedForth.Literal

/-- A number read from a token. -/
inductive Number where
  /-- An integer of 64 bits. -/
  | int (n : Int64)
  /-- A float. -/
  | float (x : Float)
deriving DecidableEq, Repr

/-- The value of a list of decimal digits. -/
def digitsValue (cs : List Char) : Nat :=
  cs.foldl (fun n c => n * 10 + (c.toNat - '0'.toNat)) 0

/-- Whether a sign is negative, and what follows the sign. -/
def splitSign : List Char → Bool × List Char
  | '-' :: cs => (true, cs)
  | '+' :: cs => (false, cs)
  | cs => (false, cs)

/-- One or more decimal digits. -/
def isDigits (cs : List Char) : Bool :=
  !cs.isEmpty && cs.all Char.isDigit

/-- The integer that a token denotes. -/
def integer? (cs : List Char) : Option Int64 :=
  let (negative, digits) := splitSign cs
  if isDigits digits then
    let n : Int := if negative then -digitsValue digits else digitsValue digits
    if Int64.minValue.toInt ≤ n ∧ n ≤ Int64.maxValue.toInt then some (Int64.ofInt n) else none
  else none

/-- The parts of a decimal float: its sign, the digits before and after the point, and its power
    of ten. -/
structure Parts where
  /-- Whether the number is negative. -/
  negative : Bool
  /-- The digits before the point. -/
  whole : List Char
  /-- The digits after the point. -/
  fraction : List Char
  /-- The power of ten. -/
  exponent : Int
deriving DecidableEq, Repr

/-- The power of ten that follows the digits; none is zero. -/
def exponent? : List Char → Option Int
  | [] => some 0
  | c :: cs =>
    if c == 'e' || c == 'E' then
      let (negative, digits) := splitSign cs
      if isDigits digits then
        some (if negative then -digitsValue digits else digitsValue digits)
      else none
    else none

/-- The parts of a token that has the form of a float. -/
def parts? (cs : List Char) : Option Parts :=
  let (negative, body) := splitSign cs
  let whole := body.takeWhile Char.isDigit
  let rest := body.dropWhile Char.isDigit
  let (fraction, rest) :=
    match rest with
    | '.' :: rest => (rest.takeWhile Char.isDigit, rest.dropWhile Char.isDigit)
    | rest => ([], rest)
  if whole.isEmpty && fraction.isEmpty then none
  else (exponent? rest).map fun e => ⟨negative, whole, fraction, e⟩

/-- The float nearest to the decimal number.  A number too large for a float is infinite, one too
    small is zero; in both cases the digits need not be raised to their power. -/
def Parts.value (p : Parts) : Float :=
  let digits := (p.whole ++ p.fraction).dropWhile (· == '0')
  let e := p.exponent - Int.ofNat p.fraction.length
  let magnitude := Int.ofNat digits.length + e
  let x : Float :=
    if digits.isEmpty || magnitude < -400 then 0.0
    else if 400 < magnitude then 1.0 / 0.0
    else if e < 0 then Float.ofScientific (digitsValue digits) true e.natAbs
    else Float.ofScientific (digitsValue digits) false e.natAbs
  if p.negative then -x else x

/-- A token may be a float only if it starts like a number and holds a point or an exponent. -/
def looksFloat (cs : List Char) : Bool :=
  (match cs.head? with
    | some c => c.isDigit || c == '+' || c == '-' || c == '.'
    | none => false) &&
  cs.any fun c => c == '.' || c == 'e' || c == 'E'

/-- The float that a token denotes. -/
def float? (cs : List Char) : Option Float :=
  if looksFloat cs then (parts? cs).map Parts.value else none

/-- The number that a token denotes. -/
def number? (token : String) : Option Number :=
  match integer? token.toList with
  | some n => some (.int n)
  | none => (float? token.toList).map .float

end ThreadedForth.Literal
