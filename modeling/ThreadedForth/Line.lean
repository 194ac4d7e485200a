/-
  The input line.

  A line of ASCII text with a cursor.  `advance` takes the next token, a
  maximal run of characters that are not blank; `takeUntil` takes the raw text
  up to a delimiter, for string literals.  The token taken last is kept as a
  span of the line.
-/
import ThreadedForth.Error
import ThreadedForth.Text.Ascii

namespace ThreadedForth

/-- Where a token stands in its line, and how many blanks follow it. -/
structure Span where
  /-- The position of the first character. -/
  start : Nat
  /-- The number of characters. -/
  length : Nat
  /-- The number of blanks directly after the token. -/
  trailing : Nat
deriving DecidableEq, Repr, Inhabited

/-- A line being read. -/
structure Line where
  /-- How many characters a line may have. -/
  capacity : Nat
  /-- The characters of the line. -/
  text : List Char := []
  /-- How many characters have been read. -/
  cursor : Nat := 0
  /-- The token taken last. -/
  held : Option Span := none
deriving DecidableEq, Inhabited

namespace Line

/-- The part of the line that has not been read. -/
def rest (l : Line) : List Char :=
  l.text.drop l.cursor

/-- The line with a new text, read from its start.  The text has to fit and to be ASCII. -/
def fill (l : Line) (s : String) : Except Error Line :=
  if l.capacity < s.utf8ByteSize then .error .lineTooLong
  else if !s.toList.all isAscii then .error .lineNotAscii
  else .ok { l with text := s.toList, cursor := 0, held := none }

/-- The line after its next token has been taken.  At the end of the line no token is held. -/
def advance (l : Line) : Line :=
  let blanks := (l.rest.takeWhile isBlank).length
  let start := l.cursor + blanks
  let body := l.rest.drop blanks
  match body with
  | [] => { l with cursor := start, held := none }
  | _ :: _ =>
    let length := (body.takeWhile (fun c => !isBlank c)).length
    let trailing := ((body.drop length).takeWhile isBlank).length
    { l with cursor := start + length, held := some ⟨start, length, trailing⟩ }

/-- The text up to the next `delimiter`, not counting the one blank that divides it from the word
    before, and the line after the delimiter.  Without a delimiter only that blank is passed. -/
def takeUntil (l : Line) (delimiter : Char) : Except Error (List Char) × Line :=
  let start := if (l.rest.head?.map isBlank).getD false then l.cursor + 1 else l.cursor
  let body := l.text.drop start
  if body.contains delimiter then
    let part := body.takeWhile (· != delimiter)
    (.ok part, { l with cursor := start + part.length + 1, held := none })
  else (.error .unterminated, { l with cursor := start, held := none })

/-- The line with nothing left to read. -/
def skip (l : Line) : Line :=
  { l with cursor := l.text.length, held := none }

/-- The text of a span of the line. -/
def textOf (l : Line) (s : Span) : String :=
  String.ofList ((l.text.drop s.start).take s.length)

/-- The text of the token taken last. -/
def token? (l : Line) : Option String :=
  l.held.map l.textOf

/-- The shape that every line keeps: ASCII text within its capacity, a cursor inside the text and
    a held token inside the text. -/
structure WellFormed (l : Line) : Prop where
  /-- The text fits. -/
  fits : l.text.length ≤ l.capacity
  /-- The text is ASCII. -/
  ascii : ∀ c ∈ l.text, isAscii c = true
  /-- The cursor is in the text or at its end. -/
  cursor_le : l.cursor ≤ l.text.length
  /-- The held token is a part of the text. -/
  held_le : ∀ s, l.held = some s → s.start + s.length ≤ l.text.length

end Line
end ThreadedForth
