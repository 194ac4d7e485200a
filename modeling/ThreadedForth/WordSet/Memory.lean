/-
  Words for data slots and the words that own them.

  `create` makes a word with a data area, `does>` gives such words an action:
  the elements of the defining word that follow it.
-/
import ThreadedForth.WordSet.Arithmetic

namespace ThreadedForth

/-- Defines a word with an empty data area, which becomes the word created last. -/
def createWord (name : String) : M WordId := do
  let w ← M.install (.created name)
  M.setLast w
  pure w

/-- Adds a data slot to a word. -/
def addSlot (w : WordId) (v : Value) : M Unit := do
  M.setHeap ((← get).heap.changeWord w fun x => x.push (.lit v))

/-- Changes the code of the word created last. -/
def setLastCode (c : Code) : M Unit := do
  let w ← M.last
  M.setHeap ((← get).heap.changeWord w fun x => x.setCode c)

/-- What a memory word does. -/
def MemoryWord.run : MemoryWord → M Flow
  | .load => do
    let v ← M.pop
    M.push (← M.lift ((← get).heap.deref v))
    pure .next
  | .store => do
    let target ← M.pop
    let v ← M.pop
    let p ← M.lift target.toPointer
    M.setHeap ((← get).heap.store p v)
    pure .next
  | .addStore => do
    let target ← M.pop
    let n ← M.pop
    let p ← M.lift target.toPointer
    let v ← M.lift ((← get).heap.load p)
    Operator.add.applyThen v n (.store p)
  | .here => do
    M.push (.nat (← M.here))
    pure .next
  | .comma => do
    let v ← M.pop
    addSlot (← M.lastWith v.refs) v
    pure .next
  | .allot => do
    let n ← M.popInt
    if n < 0 then throw (.indexOutOfRange n.toInt 0)
    let m ← get
    M.setHeap (m.compiler.expand m.heap m.roots n.toInt.toNat)
    pure .next
  | .create => do
    let _ ← createWord (← M.nextName "create")
    pure .next
  | .variable => do
    let w ← createWord (← M.nextName "variable")
    addSlot w (.int 0)
    pure .next
  | .constant => do
    let name ← M.nextName "constant"
    let _ ← M.defineConstant name (← M.pop)
    pure .next
  | .does => do
    match ← M.mode with
    | .compiling => M.compileBuiltin "(does>)"
    | .interpreting =>
      let _ ← M.last
      M.setMode .runtimeCompiling
    | _ => throw (.compileState .pendingDoes)
    pure .next
  | .doesRuntime => do
    let f ← M.parent
    setLastCode (.indirect f.word f.ip)
    pure .leave

end ThreadedForth
