/-
  The machine.

  A machine owns everything a program can touch: four stacks, the input line
  and the output, the heap, the dictionary, the types, the compiler, the
  debugger and a few cells.  Running words are frames on a nest stack.  A
  primitive may start a nested run on the same nest stack; what it still has
  to do afterwards is kept in the run as a value (`Pending`).

  * `Machine`, `Machine.create`: the state and its start;
  * `Machine.roots`: the references that the machine itself holds;
  * `Machine.reset`: what a failed line drops;
  * `M`: steps on a machine that may fail.  A failing step keeps the changes
    made before the failure.
-/
import ThreadedForth.Compiler
import ThreadedForth.Debugger
import ThreadedForth.Dictionary
import ThreadedForth.Line
import ThreadedForth.Objects
import ThreadedForth.Output
import ThreadedForth.Params
import ThreadedForth.Types
import ThreadedForth.Vocabulary

namespace ThreadedForth

/-- A running word and the position of the element it runs next. -/
structure Frame where
  /-- The word. -/
  word : WordId
  /-- The position. -/
  ip : Nat
deriving DecidableEq, Repr, Inhabited

/-- What is done with the result of an operator's handler. -/
inductive After where
  /-- It is pushed. -/
  | push
  /-- It decides which operand is pushed. -/
  | select (left right : Value)
  /-- It is stored. -/
  | store (p : Pointer)
deriving DecidableEq, Repr

/-- What a primitive still has to do when the nested run that it started has ended. -/
inductive Pending where
  /-- Nothing: the run was started from outside. -/
  | outside
  /-- Take the result of a handler, which was called with the data stack at a depth. -/
  | handler (depth : Nat) (after : After)
  /-- Go on. -/
  | run
  /-- Push how the run ended, as a string. -/
  | attempt
deriving DecidableEq, Repr

/-- A run: it ends when the nest stack is back at the depth `base`. -/
structure Run where
  /-- The depth of the nest stack before the run. -/
  base : Nat
  /-- What is to be done afterwards. -/
  pending : Pending
deriving DecidableEq, Repr

/-- How the machine goes on after a primitive. -/
inductive Flow where
  /-- With the calling word. -/
  | next
  /-- By leaving the calling word. -/
  | leave
  /-- With another word in place of the primitive. -/
  | call (w : WordId)
  /-- With a nested run, after which the primitive is finished. -/
  | nest (w : WordId) (pending : Pending)
deriving DecidableEq, Repr

/-- How many integer cells, and how many flag cells, a machine has. -/
def cellCount : Nat := 8

/-- What the host keeps. -/
structure Host where
  /-- The texts that were logged. -/
  log : List String := []
  /-- A counter. -/
  calls : Nat := 0
deriving DecidableEq, Repr, Inhabited

/-- The state of a machine. -/
structure Machine where
  data : Stack Value
  «return» : Stack Int64
  temp : Stack Value
  self : Stack Value
  line : Line
  output : Output
  heap : Heap := {}
  dictionary : Dictionary := {}
  types : Types := {}
  compiler : Compiler := {}
  debugger : Debugger := {}
  /-- The running words, the innermost first. -/
  frames : List Frame := []
  /-- The runs, the innermost first. -/
  runs : List Run := []
  /-- The integer cells. -/
  cells : Array Int64 := Array.replicate cellCount 0
  /-- The flag cells. -/
  flags : Array Bool := Array.replicate cellCount false
  /-- Whether the line is inside a comment. -/
  inComment : Bool := false
  /-- Whether an interrupt has been asked for. -/
  interrupt : Bool := false
  host : Host := {}
  /-- The addresses of the objects, those of objects to come included. -/
  addresses : ObjId → UInt64

/-- Steps on a machine. -/
abbrev M := EStateM Error Machine

namespace Machine

/-! ## Creation and reset -/

/-- The machine with a word added to the heap and bound in the dictionary. -/
def install (m : Machine) (w : Word) : WordId × Machine :=
  let (id, heap) := m.heap.addWord w
  let (_, dictionary, heap) := m.dictionary.add heap id
  (id, { m with heap, dictionary })

/-- The machine with primitive words added. -/
def installAll (m : Machine) (bs : List Builtin) : Machine :=
  bs.foldl (fun m b => (m.install (.ofPrimitive b.name b.word b.immediate)).2) m

/-- The object types that every machine has, and the words for them. -/
def objectTypes : List (String × TypeId × Maker × Option Handler) :=
  [("string", .string, .string, some .strings), ("array", .array, .array, none)]

/-- The types of a new machine. -/
def initialTypes : Types :=
  objectTypes.foldl (fun t (name, _, maker, handler) => (t.addObject name maker handler).2) .basic

/-- The constants of a new machine: its object types and the operators. -/
def initialConstants : List Word :=
  objectTypes.map (fun (name, t, _, _) => .constant name (.type t)) ++
    Operator.all.map fun op => .constant op.constantName (.binop op)

/-- A machine without words. -/
def empty (p : Params) : Machine where
  data := { kind := .data, capacity := p.dataStack }
  «return» := { kind := .return, capacity := p.returnStack }
  temp := { kind := .temp, capacity := p.tempStack }
  self := { kind := .self, capacity := p.selfStack }
  line := { capacity := p.inputBuffer }
  output := { capacity := p.outputBuffer }
  types := initialTypes
  addresses := p.addresses

/-- A new machine with the given primitive words. -/
def create (p : Params) (bs : List Builtin) : Machine :=
  initialConstants.foldl (fun m w => (m.install w).2) ((empty p).installAll bs)

/-- A new machine with every primitive word. -/
def ofParams (p : Params) : Machine :=
  create p Builtin.all

/-- A new machine with the primitive words that have one of the given names. -/
def ofNames (p : Params) (names : List String) : Machine :=
  create p (Builtin.all.filter fun b => names.contains b.name)

instance : Inhabited Machine := ⟨empty {}⟩

/-- The machine without anything transient: the stacks, the running words, the word under
    construction and a comment that is open. -/
def reset (m : Machine) : Machine :=
  { m with
    data := m.data.clear
    «return» := m.return.clear
    temp := m.temp.clear
    self := m.self.clear
    frames := []
    runs := []
    compiler := m.compiler.reset
    inComment := false }

/-! ## References -/

/-- The references held until a nested run has ended. -/
def pendingRefs : Pending → List Ref
  | .handler _ (.select a b) => a.refs ++ b.refs
  | .handler _ (.store p) => [.word p.target]
  | _ => []

/-- The references that the machine holds, apart from those held on its heap. -/
def roots (m : Machine) : List Ref :=
  m.data.items.flatMap Value.refs ++ m.temp.items.flatMap Value.refs ++
    m.self.items.flatMap Value.refs ++
    (m.frames.map fun f => .word f.word) ++
    (m.runs.flatMap fun r => pendingRefs r.pending) ++
    (m.dictionary.entries.map fun e => .word e.2) ++
    (m.types.handlerWords.map .word) ++
    (m.compiler.building?.toList.map .word)

/-- The depth of the nest stack that the innermost run ends at. -/
def runBase (m : Machine) : Nat :=
  match m.runs with
  | [] => 0
  | r :: _ => r.base

/-- The visible word of a name. -/
def find? (m : Machine) (name : String) : Option WordId :=
  m.dictionary.find? m.heap name

/-- The text of a value as words print it: types by their names. -/
def format (m : Machine) : Value → String
  | .type t => m.types.nameOf t
  | v => m.heap.display v

/-- The data stack in one line, its depth first. -/
def stackLine (m : Machine) : String :=
  String.join (("<" ++ toString m.data.depth ++ ">") ::
    m.data.toList.map fun v => " " ++ m.format v)

end Machine

/-! ## Steps -/

namespace M

variable {α : Type}

/-- The result of a computation that changes nothing. -/
def lift (r : Except Error α) : M α := fun m =>
  match r with
  | .ok a => .ok a m
  | .error e => .error e m

/-- Takes the top off the data stack. -/
def pop : M Value := fun m =>
  match m.data.pop with
  | .ok (v, data) => .ok v { m with data }
  | .error e => .error e m

/-- Puts a value on the data stack. -/
def push (v : Value) : M Unit := fun m =>
  match m.data.push v with
  | .ok data => .ok () { m with data }
  | .error e => .error e m

/-- The value `n` places below the top of the data stack. -/
def peek (n : Nat) : M Value := fun m =>
  match m.data.peek n with
  | .ok v => .ok v m
  | .error e => .error e m

/-- Takes an integer off the data stack. -/
def popInt : M Int64 := do
  lift (← pop).toInt

/-- Takes a flag off the data stack. -/
def popFlag : M Bool := do
  lift (← pop).toFlag

/-- Takes an execution token off the data stack. -/
def popWord : M WordId := do
  lift (← pop).toWord

/-- Puts an integer on the return stack. -/
def pushReturn (n : Int64) : M Unit := fun m =>
  match m.return.push n with
  | .ok s => .ok () { m with «return» := s }
  | .error e => .error e m

/-- Takes an integer off the return stack. -/
def popReturn : M Int64 := fun m =>
  match m.return.pop with
  | .ok (n, s) => .ok n { m with «return» := s }
  | .error e => .error e m

/-- The integer `n` places below the top of the return stack. -/
def peekReturn (n : Nat) : M Int64 := fun m =>
  match m.return.peek n with
  | .ok v => .ok v m
  | .error e => .error e m

/-- Changes the heap. -/
def setHeap (r : Except Error Heap) : M Unit := do
  let heap ← lift r
  modify fun m => { m with heap }

/-- Runs a step of the type registry. -/
def onTypes (act : Types → Except Error α × Types) : M α := fun m =>
  match act m.types with
  | (.ok a, types) => .ok a { m with types }
  | (.error e, types) => .error e { m with types }

/-- A new string. -/
def newText (s : String) : M Value := fun m =>
  let (v, heap) := m.heap.addText s
  .ok v { m with heap }

/-- Puts a new object on the data stack. -/
def pushNew (x : Obj) : M Unit := fun m =>
  let (o, heap) := m.heap.addObject x
  push (.obj o) { m with heap }

/-- Runs a step of the functions of objects. -/
def onStore (act : StoreM α) : M α := fun m =>
  match act ⟨m.heap, m.data⟩ with
  | .ok a s => .ok a { m with heap := s.heap, data := s.data }
  | .error e s => .error e { m with heap := s.heap, data := s.data }

/-- Writes one piece of text. -/
def put (piece : String) : M Unit := fun m =>
  match m.output.push piece with
  | .ok output => .ok () { m with output }
  | .error e => .error e m

/-- Writes a text in pieces, for words that format values. -/
def write (pieces : List String) : M Unit := fun m =>
  let (output, taken) := m.output.write pieces
  if taken then .ok () { m with output } else .error .outputFormat { m with output }

/-- The word that a primitive compiles or runs under its own name. -/
def builtin (name : String) : M WordId := do
  match (← get).find? name with
  | some w => pure w
  | none => throw (.unknownWord name)

/-- The running word. -/
def current : M Frame := do
  match (← get).frames with
  | f :: _ => pure f
  | [] => throw .callStackCorrupted

/-- The word that called the running primitive. -/
def parent : M Frame := do
  match (← get).frames with
  | _ :: f :: _ => pure f
  | _ => throw .callStackCorrupted

/-- Moves the word that called the running primitive to another element. -/
def setParentIp (ip : Nat) : M Unit :=
  modify fun m =>
    match m.frames with
    | f :: p :: rest => { m with frames := f :: { p with ip } :: rest }
    | _ => m

/-- The word created last, while the references `held` keep it alive besides the machine. -/
def lastWith (held : List Ref) : M WordId := do
  let m ← get
  lift (m.compiler.last m.heap (held ++ m.roots))

/-- The word created last. -/
def last : M WordId :=
  lastWith []

/-- The next free position of the word under construction, or else of the word created last. -/
def here : M Nat := do
  let m ← get
  lift (m.compiler.here m.heap m.roots)

/-- What is done with the next token. -/
def mode : M Mode := do
  pure (← get).compiler.mode

/-- Changes what is done with the next token. -/
def setMode (mode : Mode) : M Unit :=
  modify fun m => { m with compiler := { m.compiler with mode } }

/-- Fails unless a definition is being compiled. -/
def requireCompiling (word : String) : M Unit := do
  if (← mode) = .compiling then pure ()
  else throw (.compileState (.onlyInDefinition word))

/-- Adds an element to the word under construction. -/
def compile (e : Elem) : M Unit := do
  let m ← get
  setHeap (m.compiler.push m.heap e)

/-- Compiles a word. -/
def compileWord (w : WordId) : M Unit := do
  let m ← get
  setHeap (m.compiler.compileWord m.heap w)

/-- Compiles a call of a word that the machine came with. -/
def compileBuiltin (name : String) : M Unit := do
  compile (.call (← builtin name))

/-- Compiles code that pushes a value. -/
def compileLiteral (v : Value) : M Unit := do
  compileBuiltin "(literal)"
  compile (.lit v)

/-- Adds a word to the heap and binds it in the dictionary. -/
def install (w : Word) : M WordId := fun m =>
  let (id, m) := m.install w
  .ok id m

/-- Makes a word the one created last. -/
def setLast (w : WordId) : M Unit :=
  modify fun m => { m with compiler := { m.compiler with last? := some w } }

/-- Defines a constant, which becomes the word created last. -/
def defineConstant (name : String) (v : Value) : M WordId := do
  let w ← install (.constant name v)
  setLast w
  pure w

/-- Takes the next token of the line. -/
def nextToken : M (Option String) := fun m =>
  let line := m.line.advance
  .ok line.token? { m with line }

/-- Takes the next token of the line as a name for the word that reads it. -/
def nextName (reader : String) : M String := do
  match ← nextToken with
  | some name => pure name
  | none => throw (.missingName reader)

/-- Takes the next token of the line as the name of a visible word. -/
def nextWord (reader : String) : M WordId := do
  let name ← nextName reader
  match (← get).find? name with
  | some w => pure w
  | none => throw (.unknownWord name)

/-- Takes the text up to the closing quote. -/
def nextText : M String := fun m =>
  match m.line.takeUntil '\x22' with
  | (.ok cs, line) => .ok (String.ofList cs) { m with line }
  | (.error _, line) => .error .badStringLiteral { m with line }

end M
end ThreadedForth
