/-
  The behaviour of the primitive words.
-/
import ThreadedForth.WordSet.Arithmetic
import ThreadedForth.WordSet.Control
import ThreadedForth.WordSet.Defining
import ThreadedForth.WordSet.Memory
import ThreadedForth.WordSet.Object
import ThreadedForth.WordSet.Output
import ThreadedForth.WordSet.Stack
import ThreadedForth.WordSet.State

namespace ThreadedForth

/-- A step after which the calling word goes on. -/
def thenNext (act : M Unit) : M Flow := do
  act
  pure .next

/-- Pushes the address of the running word's data. -/
def pushDataAddress : M Unit := do
  let f ← M.current
  M.push (.ptr ((← get).heap.pointer f.word 1))

/-- Pushes the first data slot of the running word. -/
def pushFirstSlot : M Unit := do
  let f ← M.current
  M.push (← M.lift (((← get).heap.word f.word).load 1))

/-- What a primitive word does. -/
def Primitive.run : Primitive → M Flow
  | stack w => thenNext w.run
  | arithmetic w => w.run
  | float w => thenNext w.run
  | output w => thenNext w.run
  | memory w => w.run
  | defining w => w.run
  | control w => thenNext w.run
  | branch w => w.run
  | object w => thenNext w.run
  | state w => thenNext w.run
  | host w => w.run
  | dataAddress => thenNext pushDataAddress
  | pushConstant => thenNext pushFirstSlot
  | nop => pure .next

end ThreadedForth
