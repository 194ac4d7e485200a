/-
  Quoted texts of configurations.

  A text between single quotes is taken as it stands.  In a text between
  double quotes a backslash starts an escape.  Three quotes at either end make
  a text of several lines, which may hold one or two quotes in a row, also
  right before the three that end it.

  * `literal?`, `basic?`: texts of one line, which may be keys;
  * `block?`: a text of several lines, of which only the form matters.
-/
import ThreadedForth.Config.Layout

namespace ThreadedForth.Config

/-- The value of a digit of a base up to sixteen. -/
def digitValue (c : Char) : Nat :=
  if c.isDigit then c.toNat - '0'.toNat else c.toLower.toNat - 'a'.toNat + 10

/-- Whether a character is a digit of a base up to sixteen. -/
def isDigitOf (base : Nat) (c : Char) : Bool :=
  (c.isDigit || ('a' ≤ c.toLower && c.toLower ≤ 'f')) && digitValue c < base

/-- The character whose number has the given hexadecimal digits. -/
def codePoint? (digits : List Char) : Option Char :=
  let n := digits.foldl (fun n d => n * 16 + digitValue d) 0
  if digits.all (isDigitOf 16) && decide n.isValidChar then some (Char.ofNat n) else none

/-- The character that an escape of one letter stands for. -/
def letterEscape? (c : Char) : Option Char :=
  [('b', '\x08'), ('t', '\t'), ('n', '\n'), ('f', '\x0c'), ('r', '\r'), ('\x22', '\x22'),
    ('\\', '\\')].lookup c

/-! ## Texts of one line -/

/-- A text up to the single quote that ends it, and what follows. -/
def literal? : List Char → Option (List Char × List Char)
  | [] => none
  | c :: cs =>
    if c == '\x27' then some ([], cs)
    else if isPlain c then (literal? cs).map fun (text, rest) => (c :: text, rest)
    else none

/-- A text up to the double quote that ends it, its escapes as they stand, and what follows. -/
def splitQuote? : List Char → Option (List Char × List Char)
  | [] => none
  | '\\' :: c :: cs => (splitQuote? cs).map fun (text, rest) => ('\\' :: c :: text, rest)
  | c :: cs =>
    if c == '\x22' then some ([], cs)
    else (splitQuote? cs).map fun (text, rest) => (c :: text, rest)

/-- A text of one line with its escapes replaced. -/
def unescape? : List Char → Option (List Char)
  | [] => some []
  | '\\' :: 'u' :: a :: b :: c :: d :: cs => do
    let x ← codePoint? [a, b, c, d]
    (unescape? cs).map (x :: ·)
  | '\\' :: 'U' :: a :: b :: c :: d :: e :: f :: g :: h :: cs => do
    let x ← codePoint? [a, b, c, d, e, f, g, h]
    (unescape? cs).map (x :: ·)
  | '\\' :: c :: cs => do
    let x ← letterEscape? c
    (unescape? cs).map (x :: ·)
  | c :: cs => if c != '\\' && isPlain c then (unescape? cs).map (c :: ·) else none

/-- A text up to the double quote that ends it, its escapes replaced, and what follows. -/
def basic? (cs : List Char) : Option (List Char × List Char) := do
  let (text, rest) ← splitQuote? cs
  pure (← unescape? text, rest)

/-! ## Texts of several lines -/

/-- A text up to the three quotes that end it, and what follows.  There are `run` quotes in a row
    before the given characters. -/
def splitBlock? (quote : Char) (escapes : Bool) (run : Nat) :
    List Char → Option (List Char × List Char)
  | [] => if 3 ≤ run && run ≤ 5 then some (List.replicate (run - 3) quote, []) else none
  | c :: cs =>
    if c == quote then splitBlock? quote escapes (run + 1) cs
    else if 3 ≤ run then
      if run ≤ 5 then some (List.replicate (run - 3) quote, c :: cs) else none
    else
      let before := List.replicate run quote ++ [c]
      match escapes && c == '\\', cs with
      | true, d :: cs =>
        (splitBlock? quote escapes 0 cs).map fun (text, rest) => (before ++ d :: text, rest)
      | _, cs => (splitBlock? quote escapes 0 cs).map fun (text, rest) => (before ++ text, rest)

/-- Whether a text of several lines is well formed.  A backslash may end a line; `joining` says
    that one has, so that nothing but blanks may follow it on the line. -/
def isBlock (escapes : Bool) (joining : Bool) : List Char → Bool
  | [] => !joining
  | '\n' :: cs => isBlock escapes false cs
  | '\r' :: '\n' :: cs => isBlock escapes false cs
  | c :: cs =>
    if joining then isGap c && isBlock escapes true cs
    else if escapes && c == '\\' then
      match cs with
      | 'u' :: a :: b :: c :: d :: cs =>
        (codePoint? [a, b, c, d]).isSome && isBlock escapes false cs
      | 'U' :: a :: b :: c :: d :: e :: f :: g :: h :: cs =>
        (codePoint? [a, b, c, d, e, f, g, h]).isSome && isBlock escapes false cs
      | '\n' :: cs => isBlock escapes false cs
      | '\r' :: '\n' :: cs => isBlock escapes false cs
      | d :: cs =>
        if isGap d then isBlock escapes true cs
        else (letterEscape? d).isSome && isBlock escapes false cs
      | [] => false
    else isPlain c && isBlock escapes false cs

/-- What follows a text of several lines, from behind the quotes that open it. -/
def block? (quote : Char) (cs : List Char) : Option (List Char) := do
  let escapes := quote == '\x22'
  let (text, rest) ← splitBlock? quote escapes 0 cs
  if isBlock escapes false text then pure rest else none

/-- What follows a quoted text. -/
def afterQuoted? : List Char → Option (List Char)
  | '\x22' :: '\x22' :: '\x22' :: cs => block? '\x22' cs
  | '\x27' :: '\x27' :: '\x27' :: cs => block? '\x27' cs
  | '\x22' :: cs => (basic? cs).map (·.2)
  | '\x27' :: cs => (literal? cs).map (·.2)
  | _ => none

end ThreadedForth.Config
