/-
  Words for the state cells and the debugger, and the words of a host.
-/
import ThreadedForth.Machine

namespace ThreadedForth

namespace StateWord

/-- Takes the number of a cell off the data stack. -/
def popCell : M Nat := do
  M.lift (checkIndex (← M.popInt) cellCount)

/-- What the word does. -/
def run : StateWord → M Unit
  | loadCell => do
    let i ← popCell
    M.push (.int ((← get).cells[i]?.getD 0))
  | storeCell => do
    let i ← popCell
    let n ← M.popInt
    modify fun m => { m with cells := m.cells.setIfInBounds i n }
  | loadFlag => do
    let i ← popCell
    M.push (.bool ((← get).flags[i]?.getD false))
  | storeFlag => do
    let i ← popCell
    let b ← M.popFlag
    modify fun m => { m with flags := m.flags.setIfInBounds i b }
  | debugLevel => do
    let n ← M.popInt
    match DebugLevel.ofInt? n.toInt with
    | some l => modify fun m => { m with debugger := m.debugger.setLevel l m.frames.length }
    | none => throw (.indexOutOfRange n.toInt 4)

end StateWord

namespace HostWord

/-- What the word does. -/
def run : HostWord → M Flow
  | log => do
    let v ← M.pop
    modify fun m => { m with host := { m.host with log := m.host.log ++ [m.format v] } }
    pure .next
  | bump => do
    modify fun m => { m with host := { m.host with calls := m.host.calls + 1 } }
    M.push (.nat (← get).host.calls)
    pure .next
  | boom => throw (.nativeFault (.raised "boom"))
  | boomAny => throw (.nativeFault .unknown)
  | boomText => do
    let n ← M.popInt
    throw (.nativeFault (.raised ("boom " ++ toString n.toInt)))
  | nested => do pure (.nest (← M.popWord) .run)
  | attempt => do pure (.nest (← M.popWord) .attempt)
  | exit => pure .leave
  | call => do pure (.call (← M.popWord))
  | interrupt => do
    modify fun m => { m with interrupt := true }
    pure .next

end HostWord
end ThreadedForth
