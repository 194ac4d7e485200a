/-
  Words that move values on the stacks.
-/
import ThreadedForth.Machine

namespace ThreadedForth
namespace StackWord

/-- Fails unless `n` more values fit on the data stack. -/
def ensureRoom (n : Nat) : M Unit := do
  M.lift ((← get).data.ensureRoom n)

/-- A stack beside the data stack. -/
def side (m : Machine) : SideStack → Stack Value
  | .temp => m.temp
  | .self => m.self

/-- The machine with a stack beside the data stack replaced. -/
def setSide (m : Machine) (s : Stack Value) : SideStack → Machine
  | .temp => { m with temp := s }
  | .self => { m with self := s }

/-- Puts a value on a stack beside the data stack. -/
def pushSide (k : SideStack) (v : Value) : M Unit := fun m =>
  match (side m k).push v with
  | .ok s => .ok () (setSide m s k)
  | .error e => .error e m

/-- Takes the top off a stack beside the data stack. -/
def popSide (k : SideStack) : M Value := fun m =>
  match (side m k).pop with
  | .ok (v, s) => .ok v (setSide m s k)
  | .error e => .error e m

/-- What the word does. -/
def run : StackWord → M Unit
  | .dup => do M.push (← M.peek 0)
  | .drop => do let _ ← M.pop
  | .swap => do
    let a ← M.pop
    let b ← M.pop
    M.push a
    M.push b
  | .over => do M.push (← M.peek 1)
  | .rot => do
    let c ← M.pop
    let b ← M.pop
    let a ← M.pop
    M.push b
    M.push c
    M.push a
  | .nip => do
    let b ← M.pop
    let _ ← M.pop
    M.push b
  | .tuck => do
    ensureRoom 1
    let b ← M.pop
    let a ← M.pop
    M.push b
    M.push a
    M.push b
  | .twoDup => do
    let a ← M.peek 1
    let b ← M.peek 0
    ensureRoom 2
    M.push a
    M.push b
  | .twoDrop => do
    let _ ← M.pop
    let _ ← M.pop
  | .pick => do
    let n ← M.popInt
    let i ← M.lift (checkIndex n (← get).data.depth)
    M.push (← M.peek i)
  | .depth => do M.push (.nat (← get).data.depth)
  | .clear => modify fun m => { m with data := m.data.clear }
  | .toReturn => do M.pushReturn (← M.popInt)
  | .fromReturn => do M.push (.int (← M.popReturn))
  | .copyReturn => do M.push (.int (← M.peekReturn 0))
  | .toSide k => do pushSide k (← M.pop)
  | .fromSide k => do M.push (← popSide k)
  | .copySide k => do M.push (← M.lift ((side (← get) k).peek 0))

end StackWord
end ThreadedForth
