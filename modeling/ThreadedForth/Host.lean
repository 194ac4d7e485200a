/-
  The host's side of a machine.

  A host finds words by name, hands values to a machine, defines constants and
  types, and watches runs through breakpoints.

  * `Host.build`, `Host.pushAll`: values from their descriptions;
  * `Host.execute`, `Host.apply`: words and operators run from outside;
  * `Watched`: a machine with a table of breakpoints.
-/
import ThreadedForth.Interpreter
import ThreadedForth.Sketch

namespace ThreadedForth
namespace Host

/-- What names in descriptions stand for on a machine. -/
def scope (m : Machine) : Sketch.Scope where
  word := fun name =>
    match m.find? name with
    | some w => .ok w
    | none => .error (.unknownWord name)

/-- The visible word of a name. -/
def find (name : String) : M WordId := do
  M.lift ((scope (← get)).word name)

/-- The value of a description. -/
def build (k : Sketch) : M Value := do
  let m ← get
  let (v, heap) ← M.lift (k.build (scope m) m.heap)
  set { m with heap }
  pure v

/-- Puts a value on a stack; the return stack takes integers. -/
def push (stack : StackKind) (v : Value) : M Unit :=
  match stack with
  | .data => M.push v
  | .temp => StackWord.pushSide .temp v
  | .self => StackWord.pushSide .self v
  | .return => do M.pushReturn (← M.lift v.toInt)

/-- Puts described values on a stack, one after the other. -/
def pushAll (stack : StackKind) : List Sketch → M Unit
  | [] => pure ()
  | k :: ks => do
    push stack (← build k)
    pushAll stack ks

/-- The text of a described value. -/
def format (k : Sketch) : M String := do
  let v ← build k
  pure ((← get).format v)

/-- Defines a constant. -/
def define (name : String) (k : Sketch) : M WordId := do
  M.defineConstant name (← build k)

/-- Runs the word of a name. -/
def execute (fuel : Nat) (name : String) : Runner Unit :=
  (Runner.ofM (find name)).andThen (Machine.execute fuel)

/-- Applies an operator to described values. -/
def apply (fuel : Nat) (a b : Sketch) (op : Operator) : Runner Value :=
  (Runner.ofM (build a)).andThen fun a =>
    (Runner.ofM (build b)).andThen fun b => op.applyFrom fuel a b

/-- The type of a name. -/
def typeNamed (name : String) : M TypeId := do
  match (← get).types.find? name with
  | some t => pure t
  | none => throw (.unknownType name)

/-- Changes the debug level. -/
def setLevel (l : DebugLevel) : M Unit :=
  modify fun m => { m with debugger := m.debugger.setLevel l m.frames.length }

end Host

/-- A machine with a table of breakpoints. -/
structure Watched where
  /-- The machine. -/
  machine : Machine
  /-- The breakpoints. -/
  breakpoints : Breakpoints := {}

namespace Watched

/-- The machine with a changed table, which its hook answers from. -/
def useTable (s : Watched) (t : Breakpoints) : Watched :=
  { machine := { s.machine with debugger := s.machine.debugger.useTable t }, breakpoints := t }

/-- Changes breakpoints at elements of named words, one after the other: enables or disables one,
    or takes it away.  An unknown word is an error, before which the table keeps its changes. -/
def change (s : Watched) : List (String × Nat × Option Bool) → Except Error Unit × Watched
  | [] => (.ok (), s)
  | (name, ip, enabled?) :: rest =>
    match s.machine.find? name with
    | none => (.error (.unknownWord name), s)
    | some w =>
      match enabled? with
      | some enabled => (s.useTable (s.breakpoints.set w ip enabled)).change rest
      | none => (s.useTable (s.breakpoints.clear w ip)).change rest

/-- Changes breakpoints and attaches the hook. -/
def attach (s : Watched) (changes : List (String × Nat × Option Bool))
    (plan? : Option (List DebugLevel)) : Except Error Unit × Watched :=
  match s.change changes with
  | (.error e, s) => (.error e, s)
  | (.ok _, s) =>
    (.ok (), { s with
      machine := { s.machine with debugger := s.machine.debugger.attach plan? } })

end Watched
end ThreadedForth
