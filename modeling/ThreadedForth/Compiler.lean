/-
  The word under construction.

  At most one word is under construction at a time.  The compiler owns it
  until it is revealed, and remembers the word created last without owning it:
  that word is available as long as something else keeps it alive.
-/
import ThreadedForth.Heap.Liveness

namespace ThreadedForth

/-- What is done with the next token. -/
inductive Mode where
  /-- It is run. -/
  | interpreting
  /-- It is compiled, unless it is immediate. -/
  | compiling
  /-- It is compiled even if it is immediate. -/
  | compilingPostponed
  /-- It becomes the action of the word created last. -/
  | runtimeCompiling
deriving DecidableEq, Repr, Inhabited

/-- The state of compilation. -/
structure Compiler where
  /-- What is done with the next token. -/
  mode : Mode := .interpreting
  /-- The word under construction. -/
  building? : Option WordId := none
  /-- The word created last, dead or alive. -/
  last? : Option WordId := none
  /-- The depth of the data stack when the definition was opened. -/
  startDepth : Nat := 0
deriving DecidableEq, Inhabited

namespace Compiler

/-- Starts a word; one that is unfinished is given up. -/
def start (c : Compiler) (h : Heap) (name : String) (depth : Nat) : WordId × Compiler × Heap :=
  let (w, h) := h.addWord (.blank name)
  (w, { c with building? := some w, last? := some w, startDepth := depth }, h)

/-- Gives up the word under construction. -/
def reset (c : Compiler) : Compiler :=
  { c with building? := none, mode := .interpreting }

/-- The word under construction. -/
def building (c : Compiler) : Except Error WordId :=
  match c.building? with
  | some w => .ok w
  | none => .error (.compileState .noneOpen)

/-- The word created last, if it is alive. -/
def last (c : Compiler) (h : Heap) (roots : List Ref) : Except Error WordId :=
  match c.last? with
  | some w => if h.isAlive roots w then .ok w else .error (.compileState .noneCreated)
  | none => .error (.compileState .noneCreated)

/-- Adds an element to the word under construction. -/
def push (c : Compiler) (h : Heap) (e : Elem) : Except Error Heap := do
  h.changeWord (← c.building) fun w => w.push e

/-- The code of a word whose first element is to do what the word `w` does. -/
def wrapped (w : WordId) : Code → Code
  | .docol => .indirect w 1
  | c => c

/-- Compiles a word: as the code of a word that has none yet, and otherwise as a call. -/
def compileWord (c : Compiler) (h : Heap) (w : WordId) : Except Error Heap := do
  let b ← c.building
  if (h.word b).body.isEmpty then
    let code ← (h.word w).code
    h.changeWord b fun x => x.push (.direct (wrapped w code))
  else h.changeWord b fun x => x.push (.call w)

/-- Replaces an element of the word under construction. -/
def alter (c : Compiler) (h : Heap) (index : Nat) (e : Elem) : Except Error Heap := do
  h.changeWord (← c.building) fun w => w.poke index e

/-- The next free position of the word under construction, or else of the word created last. -/
def here (c : Compiler) (h : Heap) (roots : List Ref) : Except Error Nat :=
  match c.building? with
  | some w => .ok (h.word w).size
  | none => (c.last h roots).map fun w => (h.word w).size

/-- Adds data slots to the word created last. -/
def expand (c : Compiler) (h : Heap) (roots : List Ref) (n : Nat) : Except Error Heap := do
  h.changeWord (← c.last h roots) fun w => w.expand n

end Compiler
end ThreadedForth
