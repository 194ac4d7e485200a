/-
  The layout of configuration texts.

  Blanks stand between the parts of a line.  A comment runs from a number sign
  to the end of its line.  A line ends with a line feed, which a carriage
  return may precede, or with the text itself.
-/
namespace ThreadedForth.Config

/-- Blanks inside a line. -/
def isGap (c : Char) : Bool :=
  c == ' ' || c == '\t'

/-- A text without the blanks at its start. -/
def skipGap (cs : List Char) : List Char :=
  cs.dropWhile isGap

/-- The characters of comments and quoted texts.  Of the ASCII controls only the tab is one. -/
def isPlain (c : Char) : Bool :=
  c == '\t' || (0x20 ≤ c.toNat && c.toNat != 0x7f)

/-- What follows the end of a line. -/
def afterBreak? : List Char → Option (List Char)
  | [] => some []
  | '\n' :: cs => some cs
  | '\r' :: '\n' :: cs => some cs
  | _ => none

/-- What follows a line of which only blanks and a comment are left. -/
def afterLine? (cs : List Char) : Option (List Char) :=
  match skipGap cs with
  | '#' :: cs => afterBreak? (cs.dropWhile isPlain)
  | cs => afterBreak? cs

/-- A text without the blanks, line ends and comments at its start; `inComment` says whether a
    comment is open. -/
def skipLayout (inComment : Bool) : List Char → List Char
  | [] => []
  | '\r' :: '\n' :: cs => skipLayout false cs
  | c :: cs =>
    if c == '\n' then skipLayout false cs
    else if inComment && isPlain c then skipLayout true cs
    else if !inComment && isGap c then skipLayout false cs
    else if !inComment && c == '#' then skipLayout true cs
    else c :: cs

end ThreadedForth.Config
