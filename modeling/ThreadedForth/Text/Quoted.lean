/-
  Quoted texts.

  A quoted text stands between double quotes, a quoted character between
  single quotes.  Inside, the quote itself and the backslash are written after
  a backslash, the common controls have letters of their own, and every other
  character without a shape is written by its number, as `\u` and the
  hexadecimal digits in braces.
-/
import ThreadedForth.Text.Unshown

namespace ThreadedForth.Quoted

/-- The hexadecimal digits of a number, in lower case. -/
def hex (n : Nat) : List Char :=
  Nat.toDigits 16 n

/-- One character inside quotes made of the character `quote`. -/
def encodeChar (quote c : Char) : List Char :=
  if c == quote || c == '\\' then ['\\', c]
  else if c == '\x00' then ['\\', '0']
  else if c == '\t' then ['\\', 't']
  else if c == '\r' then ['\\', 'r']
  else if c == '\n' then ['\\', 'n']
  else if isUnshown c then ['\\', 'u', '\x7b'] ++ hex c.toNat ++ ['\x7d']
  else [c]

/-- The text between double quotes. -/
def text (s : String) : String :=
  String.ofList ('\x22' :: s.toList.flatMap (encodeChar '\x22') ++ ['\x22'])

/-- The character between single quotes. -/
def char (c : Char) : String :=
  String.ofList ('\x27' :: encodeChar '\x27' c ++ ['\x27'])

end ThreadedForth.Quoted
