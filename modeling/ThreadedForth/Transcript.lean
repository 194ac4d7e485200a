/-
  Transcripts.

  A transcript is a session with what is expected of it.  A line `> text` is
  entered and has to succeed; the lines `< text` after it are its output, and
  without any the output does not matter.  A line `x text` is entered and has
  to fail.  A line in parentheses is a comment; before the first entered line
  it may give the size of a stack or buffer.

  * `Transcript.parse?`: the entries and sizes of a transcript;
  * `Transcript.passes`: whether a machine behaves as the entries say.
-/
import ThreadedForth.Interpreter
import ThreadedForth.Text.Lines

namespace ThreadedForth.Transcript

/-- What is expected of an entered line. -/
inductive Expected where
  /-- Success with any output. -/
  | success
  /-- Success with these lines of output. -/
  | output (lines : List String)
  /-- An error. -/
  | failure
deriving DecidableEq, Repr

/-- An entered line. -/
structure Entry where
  /-- The line. -/
  input : String
  /-- What is expected of it. -/
  expected : Expected
deriving DecidableEq, Repr

/-- A transcript as far as it has been read. -/
structure Draft where
  /-- The sizes. -/
  params : Params := {}
  /-- The entries, the last one first. -/
  entries : List Entry := []
  /-- Whether sizes may no longer be given. -/
  sealed : Bool

/-- A natural number of 64 bits, with an optional plus sign. -/
def size? (s : String) : Option Nat :=
  let digits :=
    match s.toList with
    | '+' :: rest => rest
    | cs => cs
  if digits.isEmpty || !digits.all Char.isDigit then none
  else
    let n := digits.foldl (fun n c => n * 10 + (c.toNat - '0'.toNat)) 0
    if n < UInt64.size then some n else none

/-- The first word of a line and what follows the blank after it. -/
def splitFirst? (line : String) : Option (String × String) :=
  let cs := line.toList
  let first := cs.takeWhile (· != ' ')
  match cs.drop first.length with
  | [] => none
  | _ :: rest => some (String.ofList first, String.ofList rest)

/-- A comment, which may be a setting. -/
def readComment (d : Draft) (text : String) : Option Draft :=
  match whiteSpacePieces text with
  | [] => none
  | key :: rest =>
    if !Params.keys.contains key then some d
    else if d.sealed then none
    else
      match rest with
      | number :: ")" :: _ => do
        let n ← size? number
        let params ← d.params.set? key n
        pure { d with params }
      | _ => none

/-- A line of expected output. -/
def readOutput (d : Draft) (text : String) : Option Draft :=
  match d.entries with
  | [] => none
  | e :: es =>
    match e.expected with
    | .success => some { d with entries := { e with expected := .output [text] } :: es, sealed := true }
    | .output ls =>
      some { d with entries := { e with expected := .output (ls ++ [text]) } :: es, sealed := true }
    | .failure => none

/-- A line of a transcript. -/
def readLine (d : Draft) (line : String) : Option Draft :=
  match splitFirst? (trimStart line) with
  | none => some d
  | some (">", text) => some { d with entries := ⟨text, .success⟩ :: d.entries, sealed := true }
  | some ("x", text) => some { d with entries := ⟨text, .failure⟩ :: d.entries, sealed := true }
  | some ("<", text) => readOutput d text
  | some ("(", text) => readComment d text
  | some _ => some d

/-- The sizes and entries of a transcript; `none` if it is not well formed.  Sizes may be given
    only if `sized` says so. -/
def parse? (sized : Bool) (text : String) : Option (Params × List Entry) := do
  let d ← (textLines text).foldlM readLine { sealed := !sized }
  pure (d.params, d.entries.reverse)

/-- Whether lines of output are those expected, apart from blanks at their ends. -/
def sameOutput (text : String) (expected : List String) : Bool :=
  (textLines text).map trimEnd == expected.map trimEnd

/-- Whether an entered line came out as expected. -/
def meets (e : Entry) : EStateM.Result Error Machine Unit → Bool
  | .ok _ m =>
    match e.expected with
    | .success => true
    | .output ls => sameOutput m.output.text ls
    | .failure => false
  | .error _ _ => e.expected == .failure

/-- The machine after a line, whether it succeeded or not. -/
def machineOf : EStateM.Result Error Machine Unit → Machine
  | .ok _ m | .error _ m => m

/-- Whether a machine behaves as the entries say. -/
def passes (fuel : Nat) : List Entry → Machine → Bool
  | [], _ => true
  | e :: es, m =>
    match m.line.fill e.input with
    | .error _ => false
    | .ok line =>
      match { m with line }.processLine fuel with
      | none => false
      | some r =>
        let m := machineOf r
        meets e r && passes fuel es { m with output := m.output.clear }

/-- Whether a new machine of the sizes that a transcript gives behaves as it says. -/
def check (fuel : Nat) (text : String) : Bool :=
  match parse? true text with
  | none => false
  | some (params, entries) => params.isAllocatable && passes fuel entries (.ofParams params)

/-- Whether a machine behaves as a transcript without sizes says. -/
def checkOn (fuel : Nat) (m : Machine) (text : String) : Bool :=
  match parse? false text with
  | none => false
  | some (_, entries) => passes fuel entries m

end ThreadedForth.Transcript
