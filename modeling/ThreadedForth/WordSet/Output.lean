/-
  Words that write to the output.

  The words that format values write in pieces, and the pieces before one that
  does not fit stay.  All others write one piece at a time.
-/
import ThreadedForth.Machine

namespace ThreadedForth

/-- Writes blanks, one at a time. -/
def putSpaces : Nat → M Unit
  | 0 => pure ()
  | n + 1 => do
    M.put " "
    putSpaces n

/-- The byte that a value stands for. -/
def byteOf : Value → Except Error UInt8
  | .char c => .ok c
  | v => do
    let n ← v.toInt
    if 0 ≤ n.toInt ∧ n.toInt < 256 then .ok (UInt8.ofNat n.toInt.toNat)
    else .error (.indexOutOfRange n.toInt 256)

/-- Writes the text that a byte encodes. -/
def putByte (b : UInt8) : M Unit := fun m =>
  match m.output.pushBytes [b] with
  | .ok output => .ok () { m with output }
  | .error e => .error e m

/-- Writes the data stack on a line of its own. -/
def putStack : M Unit := do
  M.write [(← get).stackLine, "\n"]

/-- What an output word does. -/
def OutputWord.run : OutputWord → M Unit
  | .print => do
    let v ← M.pop
    M.write [(← get).format v, " "]
  | .printFloat => do
    let x ← M.lift (← M.pop).toFloat
    M.write (FloatText.shown x ++ [" "])
  | .printStack => putStack
  | .emit => do putByte (← M.lift (byteOf (← M.pop)))
  | .newline => M.put "\n"
  | .space => M.put " "
  | .spaces => do putSpaces (← M.popInt).toInt.toNat
  | .type => do
    let v ← M.pop
    M.put ((← get).format v)
  | .words => do
    let m ← get
    M.write [String.intercalate " " (m.dictionary.names m.heap), "\n"]
  | .see => do
    let w ← M.nextWord "see"
    M.put ((← get).heap.listing w)

end ThreadedForth
