/-
  Configuration documents.

  A line of a document is empty, assigns a value to a key, or is the header of
  a table, to which the assignments below it belong.  A key has one part or
  several with dots between them; a part is a word or a quoted text.  A value
  is a quoted text, a plain value, a list in brackets or a table in braces.

  Keys have fewer than `depthLimit` parts, and lists and tables are nested
  less deeply than that.

  * `value?`: a value, and what follows it;
  * `document?`: the table that a whole text denotes.
-/
import ThreadedForth.Config.Table

namespace ThreadedForth.Config

/-- What the parts of a key and the nested values have to stay below. -/
def depthLimit : Nat := 128

/-! ## Keys -/

/-- Characters of a part that is written without quotes. -/
def isKeyChar (c : Char) : Bool :=
  c.isAlphanum || c == '_' || c == '-'

/-- A part of a key, and what follows it. -/
def keyPart? (cs : List Char) : Option (List Char × List Char) :=
  match cs with
  | '\x22' :: cs => basic? cs
  | '\x27' :: cs => literal? cs
  | cs =>
    let part := cs.takeWhile isKeyChar
    if part.isEmpty then none else some (part, cs.dropWhile isKeyChar)

/-- A key of at most as many parts as given, blanks around each of them, and what follows it. -/
def key? : Nat → List Char → Option (List String × List Char)
  | 0, _ => none
  | n + 1, cs => do
    let (part, rest) ← keyPart? (skipGap cs)
    match skipGap rest with
    | '.' :: rest =>
      let (parts, rest) ← key? n rest
      pure (String.ofList part :: parts, rest)
    | rest => pure ([String.ofList part], rest)

/-! ## Values -/

/-- A key, an equals sign and a value read by `value`, and what follows them. -/
def assignment? (value : List Char → Option (Node × List Char)) (cs : List Char) :
    Option (List String × Node × List Char) := do
  let (path, rest) ← key? (depthLimit - 1) cs
  match rest with
  | '=' :: rest =>
    let (v, rest) ← value (skipGap rest)
    pure (path, v, rest)
  | _ => none

/-- What follows a list, from behind a bracket or comma.  A comma may follow the last value. -/
def elements? (value : List Char → Option (Node × List Char)) :
    Nat → List Char → Option (List Char)
  | 0, _ => none
  | n + 1, cs =>
    match skipLayout false cs with
    | ']' :: rest => some rest
    | cs => do
      let (_, rest) ← value cs
      match skipLayout false rest with
      | ',' :: rest => elements? value n rest
      | ']' :: rest => pure rest
      | _ => none

/-- The entries of a table in braces, added to the given ones, and what follows it, from behind a
    brace or comma. -/
def members? (value : List Char → Option (Node × List Char)) :
    Nat → Table → List Char → Option (Table × List Char)
  | 0, _, _ => none
  | n + 1, t, cs => do
    let (path, v, rest) ← assignment? value cs
    let t ← t.addMember v path
    match skipGap rest with
    | ',' :: rest => members? value n t rest
    | '\x7d' :: rest => pure (t, rest)
    | _ => none

/-- A value with at most as many levels of lists and tables as given, and what follows it.  Each
    value and each assignment takes a character, which bounds their number. -/
def value? : Nat → List Char → Option (Node × List Char)
  | _, '\x22' :: cs => (afterQuoted? ('\x22' :: cs)).map fun rest => (.value .other, rest)
  | _, '\x27' :: cs => (afterQuoted? ('\x27' :: cs)).map fun rest => (.value .other, rest)
  | depth + 1, '[' :: cs =>
    (elements? (value? depth) (cs.length + 1) cs).map fun rest => (.value .other, rest)
  | depth + 1, '\x7b' :: cs =>
    match skipGap cs with
    | '\x7d' :: rest => some (.table .braces [], rest)
    | cs =>
      (members? (value? depth) (cs.length + 1) [] cs).map fun (t, rest) =>
        (.table .braces t, rest)
  | _, cs => (scalar? cs).map fun (v, rest) => (.value v, rest)

/-! ## Lines -/

/-- A document as far as it has been read. -/
structure Document where
  /-- The table of the whole document. -/
  root : Table := []
  /-- The path of the last header. -/
  path : List String := []

namespace Document

/-- The document after a line that starts with the given text, and what follows on the line. -/
def read (d : Document) (cs : List Char) : Option (Document × List Char) :=
  match cs with
  | [] | '#' :: _ | '\n' :: _ | '\r' :: _ => some (d, cs)
  | '[' :: '[' :: cs => do
    match ← key? (depthLimit - 1) cs with
    | (path, ']' :: ']' :: rest) => pure (⟨← d.root.openList path, path⟩, rest)
    | _ => none
  | '[' :: cs => do
    match ← key? (depthLimit - 1) cs with
    | (path, ']' :: rest) => pure (⟨← d.root.openTable path, path⟩, rest)
    | _ => none
  | cs => do
    let (path, v, rest) ← assignment? (value? (depthLimit - 1)) cs
    let root ← d.root.update (Table.assign v true path) d.path
    pure ({ d with root }, rest)

/-- The document after the lines of a text, of which there are at most as many as given. -/
def readLines : Nat → Document → List Char → Option Document
  | _, d, [] => some d
  | 0, _, _ => none
  | n + 1, d, cs => do
    let (d, rest) ← d.read (skipGap cs)
    readLines n d (← afterLine? rest)

end Document

/-- The table that a text denotes.  A byte order mark may come first. -/
def document? (text : String) : Option Table :=
  let cs :=
    match text.toList with
    | '\ufeff' :: cs => cs
    | cs => cs
  (Document.readLines cs.length {} cs).map (·.root)

end ThreadedForth.Config
