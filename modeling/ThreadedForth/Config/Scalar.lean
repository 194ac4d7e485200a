/-
  Plain values of configurations.

  A value is a number, a flag or a moment, written as one word; only a moment
  may have a blank between its date and its time.  Integers are told apart,
  all other values only have to be well formed.

  * `integer?`: an integer of 64 bits, in one of four bases;
  * `isFloat`: a float, which must not be infinite unless it says so;
  * `isMoment`: a date, a time, or both;
  * `scalar?`: a value, and what follows it.
-/
import ThreadedForth.Config.Quoted
import ThreadedForth.Number.Literal
import ThreadedForth.Text.Lines

namespace ThreadedForth.Config

/-- The values of settings, as far as they are told apart. -/
inductive Setting where
  | int (n : Int)
  | other
deriving DecidableEq, Repr

/-! ## Numbers -/

/-- Digits of a base, one underscore allowed between two of them. -/
def digits? (base : Nat) (cs : List Char) : Option (List Char) :=
  let pieces := splitAtClass (· == '_') [] cs
  if pieces.all (fun p => !p.isEmpty && p.all (isDigitOf base)) then some pieces.flatten else none

/-- The natural number with digits of a base. -/
def natural? (base : Nat) (cs : List Char) : Option Nat :=
  (digits? base cs).map fun ds => ds.foldl (fun n c => n * base + digitValue c) 0

/-- The digits of a natural number in decimal, which has no leading zeros. -/
def decimal? (cs : List Char) : Option (List Char) :=
  match cs with
  | ['0'] => some cs
  | '0' :: _ => none
  | _ => digits? 10 cs

/-- An integer of 64 bits. -/
def integer? (cs : List Char) : Option Int :=
  let n? : Option Int :=
    match cs with
    | '0' :: 'x' :: rest => (natural? 16 rest).map Int.ofNat
    | '0' :: 'o' :: rest => (natural? 8 rest).map Int.ofNat
    | '0' :: 'b' :: rest => (natural? 2 rest).map Int.ofNat
    | _ =>
      let (negative, rest) := Literal.splitSign cs
      (decimal? rest).map fun ds =>
        let n := Int.ofNat (Literal.digitsValue ds)
        if negative then -n else n
  n?.filter fun n => Int64.minValue.toInt ≤ n && n ≤ Int64.maxValue.toInt

/-- Whether a character belongs to a run of decimal digits. -/
def isRun (c : Char) : Bool :=
  c.isDigit || c == '_'

/-- A power of ten, with a sign or without one. -/
def exponent? (cs : List Char) : Option Int :=
  let (negative, rest) := Literal.splitSign cs
  (digits? 10 rest).map fun ds =>
    let n := Int.ofNat (Literal.digitsValue ds)
    if negative then -n else n

/-- The parts of a float: digits, and then a fraction, an exponent, or both. -/
def floatParts? (cs : List Char) : Option Literal.Parts := do
  let (negative, body) := Literal.splitSign cs
  let whole ← decimal? (body.takeWhile isRun)
  match body.dropWhile isRun with
  | '.' :: rest =>
    let fraction ← digits? 10 (rest.takeWhile isRun)
    match rest.dropWhile isRun with
    | [] => pure ⟨negative, whole, fraction, 0⟩
    | c :: rest =>
      if c == 'e' || c == 'E' then pure ⟨negative, whole, fraction, ← exponent? rest⟩ else none
  | c :: rest =>
    if c == 'e' || c == 'E' then pure ⟨negative, whole, [], ← exponent? rest⟩ else none
  | [] => none

/-- Whether a text is a float.  A number above all floats is none; below them there is no bound. -/
def isFloat (cs : List Char) : Bool :=
  match floatParts? cs with
  | some p => p.negative || !p.value.isInf
  | none =>
    let body := (Literal.splitSign cs).2
    body == ['i', 'n', 'f'] || body == ['n', 'a', 'n']

/-! ## Moments -/

/-- Whether two decimal digits are a number of a range. -/
def isPair (least most : Nat) (a b : Char) : Bool :=
  let n := Literal.digitsValue [a, b]
  a.isDigit && b.isDigit && least ≤ n && n ≤ most

/-- Whether a text is a date: the year, the month and the day. -/
def isDate : List Char → Bool
  | [a, b, c, d, '-', m, m', '-', t, t'] =>
    [a, b, c, d].all Char.isDigit && isPair 1 12 m m' && isPair 1 31 t t'
  | _ => false

/-- What follows a time of the day: hours, minutes and seconds, maybe with a fraction. -/
def afterTime? : List Char → Option (List Char)
  | h :: h' :: ':' :: m :: m' :: ':' :: s :: s' :: rest =>
    if isPair 0 23 h h' && isPair 0 59 m m' && isPair 0 60 s s' then
      match rest with
      | '.' :: rest =>
        if (rest.takeWhile Char.isDigit).isEmpty then none else some (rest.dropWhile Char.isDigit)
      | rest => some rest
    else none
  | _ => none

/-- Whether a text is a distance from universal time, or empty. -/
def isOffset : List Char → Bool
  | [] => true
  | [c] => c == 'Z' || c == 'z'
  | [c, h, h', ':', m, m'] => (c == '+' || c == '-') && isPair 0 23 h h' && isPair 0 59 m m'
  | _ => false

/-- Whether a text is a date, a time, or a date and a time. -/
def isMoment (cs : List Char) : Bool :=
  afterTime? cs == some [] ||
    (isDate (cs.take 10) &&
      match cs.drop 10 with
      | [] => true
      | c :: rest =>
        (c == 'T' || c == 't' || c == ' ') && ((afterTime? rest).map isOffset).getD false)

/-! ## Words -/

/-- Characters of words. -/
def isWordChar (c : Char) : Bool :=
  c.isAlphanum || c == '_' || c == '+' || c == '-' || c == '.' || c == ':'

/-- The value that a word denotes. -/
def ofWord? (cs : List Char) : Option Setting :=
  match integer? cs with
  | some n => some (.int n)
  | none =>
    if cs == "true".toList || cs == "false".toList || isFloat cs || isMoment cs then some .other
    else none

/-- A value at the start of a text, and what follows it. -/
def scalar? (cs : List Char) : Option (Setting × List Char) :=
  let word := cs.takeWhile isWordChar
  let rest := cs.dropWhile isWordChar
  let time := (rest.drop 1).takeWhile isWordChar
  if isDate word && rest.head? == some ' ' && isMoment (word ++ ' ' :: time) then
    some (.other, (rest.drop 1).dropWhile isWordChar)
  else (ofWord? word).map fun v => (v, rest)

end ThreadedForth.Config
