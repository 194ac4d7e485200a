/-
  A bench for building words by hand.

  The bench holds what words are made of and nothing that runs them: a heap, a
  dictionary, a compiler and a data stack, with handles for words and
  registers for values.  Words and objects are alive as long as the bench
  holds them.
-/
import ThreadedForth.Arithmetic
import ThreadedForth.Compiler
import ThreadedForth.Dictionary
import ThreadedForth.Objects
import ThreadedForth.Sketch

namespace ThreadedForth

/-- The parts on a bench. -/
structure Workbench where
  heap : Heap := {}
  /-- The handles of words. -/
  handles : List (String × WordId) := []
  /-- The values put aside. -/
  registers : List (String × Value) := []
  dictionary : Dictionary := {}
  compiler : Compiler := {}
  data : Stack Value

/-- Steps at a bench. -/
abbrev WorkbenchM := EStateM Error Workbench

namespace Workbench

/-- The references that the bench holds, apart from those on its heap. -/
def roots (b : Workbench) : List Ref :=
  (b.handles.map fun e => .word e.2) ++ (b.registers.flatMap fun e => e.2.refs) ++
    (b.dictionary.entries.map fun e => .word e.2) ++ (b.compiler.building?.toList.map .word) ++
    b.data.items.flatMap Value.refs

/-- The bench with a handle for a word; an older handle of the same name is let go. -/
def setHandle (b : Workbench) (handle : String) (w : WordId) : Workbench :=
  { b with handles := (handle, w) :: b.handles.filter fun e => e.1 != handle }

/-- The word of a handle. -/
def wordOf (b : Workbench) (handle : String) : Except Error WordId :=
  match b.handles.find? fun e => e.1 == handle with
  | some (_, w) => .ok w
  | none => .error (.unknownWord handle)

/-- The first handle of a word, in the order of characters; a word without one is called by its
    name after a question mark. -/
def handleOf (b : Workbench) (w : WordId) : String :=
  let handles := (b.handles.filter fun e => e.2 == w).map (·.1)
  match handles.mergeSort (fun a b => !decide (b < a)) with
  | handle :: _ => handle
  | [] => "?" ++ (b.heap.word w).label

/-- What names in descriptions stand for. -/
def scope (b : Workbench) : Sketch.Scope where
  word := b.wordOf
  register := fun r => ((b.registers.find? fun e => e.1 == r).map (·.2)).getD default

variable {α : Type}

/-- The result of a computation that changes nothing. -/
def lift (r : Except Error α) : WorkbenchM α :=
  match r with
  | .ok a => pure a
  | .error e => throw e

/-- The value of a description. -/
def build (k : Sketch) : WorkbenchM Value := do
  let b ← get
  let (v, heap) ← lift (k.build b.scope b.heap)
  set { b with heap }
  pure v

/-- The word of a handle. -/
def find (handle : String) : WorkbenchM WordId := do
  lift ((← get).wordOf handle)

/-- Changes the heap. -/
def setHeap (r : Except Error Heap) : WorkbenchM Unit := do
  let heap ← lift r
  modify fun b => { b with heap }

/-- Puts a new word under a handle. -/
def addWord (handle : String) (w : Word) : WorkbenchM Unit :=
  modify fun b =>
    let (i, heap) := b.heap.addWord w
    { b with heap }.setHandle handle i

/-- Lets a handle go, and tells whether there was one. -/
def free (handle : String) : WorkbenchM Bool := do
  let there := (← get).handles.any fun e => e.1 == handle
  modify fun b => { b with handles := b.handles.filter fun e => e.1 != handle }
  pure there

/-- Changes the word of a handle. -/
def change (handle : String) (f : Word → Except Error Word) : WorkbenchM Unit := do
  let w ← find handle
  setHeap ((← get).heap.changeWord w f)

/-- The word of a handle itself. -/
def look (handle : String) : WorkbenchM Word := do
  let w ← find handle
  pure ((← get).heap.word w)

/-- Puts a value aside. -/
def keep (register : String) (v : Value) : WorkbenchM Unit :=
  modify fun b =>
    { b with registers := (register, v) :: b.registers.filter fun e => e.1 != register }

/-- A new record. -/
def newRecord (t : TypeId) (d : Declaration) : WorkbenchM Value := do
  let b ← get
  let (o, heap) := b.heap.addObject (.ofDeclaration t d)
  set { b with heap }
  pure (.obj o)

/-- Binds a word in the dictionary; the binding it replaces is the result. -/
def bind (handle : String) : WorkbenchM (Option WordId) := do
  let w ← find handle
  let b ← get
  let (old, dictionary, heap) := b.dictionary.add b.heap w
  set { b with dictionary, heap }
  pure old

/-- Takes a word out of the dictionary. -/
def forget (name : String) : WorkbenchM WordId := do
  let b ← get
  let (w, dictionary, heap) ← lift (b.dictionary.forget b.heap name)
  set { b with dictionary, heap }
  pure w

/-- Starts a word and puts it under a handle. -/
def start (handle name : String) (depth : Nat) : WorkbenchM Unit :=
  modify fun b =>
    let (w, compiler, heap) := b.compiler.start b.heap name depth
    { b with compiler, heap }.setHandle handle w

/-- The word created last. -/
def last : WorkbenchM WordId := do
  let b ← get
  lift (b.compiler.last b.heap b.roots)

/-- A step of the compiler that changes the heap. -/
def compile (f : Compiler → Heap → Except Error Heap) : WorkbenchM Unit := do
  let b ← get
  setHeap (f b.compiler b.heap)

/-- The next free position. -/
def here : WorkbenchM Nat := do
  let b ← get
  lift (b.compiler.here b.heap b.roots)

/-- Adds data slots to the word created last. -/
def expand (n : Nat) : WorkbenchM Unit := do
  let b ← get
  setHeap (b.compiler.expand b.heap b.roots n)

/-- Runs a step of the functions of objects. -/
def onStore (act : StoreM α) : WorkbenchM α := fun b =>
  match act ⟨b.heap, b.data⟩ with
  | .ok a s => .ok a { b with heap := s.heap, data := s.data }
  | .error e s => .error e { b with heap := s.heap, data := s.data }

/-- Applies an operator of strings. -/
def applyStrings (x y : Value) (op : Operator) : WorkbenchM Value := do
  let (v, heap) ← lift ((← get).heap.applyStrings x y op)
  modify fun b => { b with heap }
  pure v

end Workbench
end ThreadedForth
