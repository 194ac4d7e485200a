/-
  The output buffer.

  A text of at most `capacity` bytes.  A piece of text is taken whole or not
  at all.
-/
import ThreadedForth.Error
import ThreadedForth.Text.Utf8

namespace ThreadedForth

/-- The text written so far. -/
structure Output where
  /-- How many bytes of text there may be. -/
  capacity : Nat
  /-- The text. -/
  text : String := ""
deriving DecidableEq, Inhabited

namespace Output

/-- The buffer with a piece of text added. -/
def push (o : Output) (piece : String) : Except Error Output :=
  if o.text.utf8ByteSize + piece.utf8ByteSize ≤ o.capacity then
    .ok { o with text := o.text ++ piece }
  else .error .outputFull

/-- The buffer with the text added that the bytes encode. -/
def pushBytes (o : Output) (bs : List UInt8) : Except Error Output :=
  match Utf8.ofBytes? bs with
  | some piece => o.push piece
  | none => .error .outputFormat

/-- The buffer after a text was written in pieces, and whether all of them fitted.  The pieces
    before the first that does not fit stay. -/
def write (o : Output) : List String → Output × Bool
  | [] => (o, true)
  | p :: ps =>
    match o.push p with
    | .ok o => o.write ps
    | .error _ => (o, false)

/-- The buffer without its text. -/
def clear (o : Output) : Output :=
  { o with text := "" }

/-- A buffer within its capacity. -/
def Fits (o : Output) : Prop :=
  o.text.utf8ByteSize ≤ o.capacity

theorem push_eq_ok {o p : Output} {piece : String} (h : o.push piece = .ok p) :
    p = { o with text := o.text ++ piece } ∧ p.Fits := by
  unfold push at h
  split at h
  · simp only [Except.ok.injEq] at h
    subst h
    simpa [Fits] using ‹_›
  · simp at h

end Output
end ThreadedForth
