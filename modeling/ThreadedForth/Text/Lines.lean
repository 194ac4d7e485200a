/-
  Lines and blanks of host text.

  Text that reaches the program from outside (script files, standard input,
  transcripts) is Unicode.  It is divided into lines at line feeds, and
  trimmed and divided at the characters of the Unicode property White_Space.
-/
namespace ThreadedForth

/-- The Unicode property White_Space. -/
def isWhiteSpace (c : Char) : Bool :=
  let n := c.toNat
  (0x09 ≤ n && n ≤ 0x0d) || n == 0x20 || n == 0x85 || n == 0xa0 || n == 0x1680 ||
    (0x2000 ≤ n && n ≤ 0x200a) || n == 0x2028 || n == 0x2029 || n == 0x202f || n == 0x205f ||
    n == 0x3000

/-- The text without the white space at its end. -/
def trimEnd (s : String) : String :=
  String.ofList (s.toList.reverse.dropWhile isWhiteSpace).reverse

/-- The text without the white space at its start. -/
def trimStart (s : String) : String :=
  String.ofList (s.toList.dropWhile isWhiteSpace)

/-- The maximal pieces of a text that hold no character of the class `sep`, the part before the
    first separator first; `acc` is the piece being read, in reverse. -/
def splitAtClass (sep : Char → Bool) : List Char → List Char → List (List Char)
  | acc, [] => [acc.reverse]
  | acc, c :: cs =>
    if sep c then acc.reverse :: splitAtClass sep [] cs else splitAtClass sep (c :: acc) cs

/-- The pieces between runs of white space. -/
def whiteSpacePieces (s : String) : List String :=
  ((splitAtClass isWhiteSpace [] s.toList).filter (fun p => !p.isEmpty)).map String.ofList

/-- The pieces of a text that end in a line feed, and what is left after the last one. -/
def splitLines : List Char → List Char → List (List Char) × List Char
  | acc, [] => ([], acc.reverse)
  | acc, c :: cs =>
    if c == '\n' then
      let (ls, rest) := splitLines [] cs
      (acc.reverse :: ls, rest)
    else splitLines (c :: acc) cs

/-- A line without the carriage return before its line feed. -/
def dropReturn (cs : List Char) : List Char :=
  match cs.reverse with
  | '\r' :: rest => rest.reverse
  | _ => cs

/-- The lines of a text.  A line feed, or a carriage return and a line feed, ends a line; what
    follows the last line feed is a line of its own unless it is empty. -/
def textLines (s : String) : List String :=
  let (ls, rest) := splitLines [] s.toList
  let ended := ls.map fun l => String.ofList (dropReturn l)
  if rest.isEmpty then ended else ended ++ [String.ofList rest]

/-- The lines as a reader of a stream meets them, each with its own line feed. -/
def rawLines (s : String) : List String :=
  let (ls, rest) := splitLines [] s.toList
  let ended := ls.map fun l => String.ofList (l ++ ['\n'])
  if rest.isEmpty then ended else ended ++ [String.ofList rest]

end ThreadedForth
