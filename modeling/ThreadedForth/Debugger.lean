/-
  The debugger.

  While debugging is on, the machine asks an attached hook for the breakpoint
  at each element of a body that it reaches, and stops there if the level says
  so.  The hook records the stop and gives the level to go on with.
-/
import ThreadedForth.Value

namespace ThreadedForth

/-- How much the debugger looks at. -/
inductive DebugLevel where
  /-- Nothing. -/
  | off
  /-- Stop at every element. -/
  | singleStep
  /-- Stop at enabled breakpoints. -/
  | run
  /-- Stop at enabled breakpoints, and at elements that are not nested deeper. -/
  | stepOver
deriving DecidableEq, Repr, Inhabited

namespace DebugLevel

/-- The number of a level. -/
def toNat : DebugLevel → Nat
  | off => 0
  | singleStep => 1
  | run => 2
  | stepOver => 3

/-- The level with a number. -/
def ofInt? (n : Int) : Option DebugLevel :=
  [off, singleStep, run, stepOver].find? fun l => n == l.toNat

end DebugLevel

/-- What a hook says about an element. -/
inductive Breakpoint where
  | none | enabled | disabled
deriving DecidableEq, Repr, Inhabited

/-- The word for what a hook says. -/
def Breakpoint.label : Breakpoint → String
  | none => "None"
  | enabled => "Enabled"
  | disabled => "Disabled"

/-- A stop of the machine. -/
structure Stop where
  /-- The word that is running. -/
  word : String
  /-- The position of the element. -/
  ip : Nat
  /-- How deep words are nested. -/
  depth : Nat
  /-- How many values are on the data stack. -/
  dataDepth : Nat
  /-- What the hook said about the element. -/
  breakpoint : Breakpoint
deriving DecidableEq, Repr, Inhabited

/-- A hook: its answers, and what it has seen. -/
structure Hook where
  /-- The answer to the question with a number, about an element of a word. -/
  answer : Nat → WordId → Nat → Breakpoint := fun _ _ _ => .none
  /-- The number of questions so far. -/
  asked : Nat := 0
  /-- The levels for the next stops. -/
  plan : List DebugLevel := []
  /-- The level after a stop for which nothing is planned. -/
  resume : DebugLevel := .run
  /-- The stops so far. -/
  stops : List Stop := []

namespace Hook

instance : Inhabited Hook := ⟨{}⟩

/-- The hook after a stop, and the level to go on with. -/
def stopped (k : Hook) (s : Stop) : DebugLevel × Hook :=
  match k.plan with
  | [] => (k.resume, { k with stops := k.stops ++ [s] })
  | l :: rest => (l, { k with plan := rest, resume := l, stops := k.stops ++ [s] })

end Hook

/-- A table of breakpoints at elements of words. -/
structure Breakpoints where
  /-- The elements that have a breakpoint, and whether it is enabled. -/
  entries : List ((WordId × Nat) × Bool) := []
deriving DecidableEq, Repr, Inhabited

namespace Breakpoints

/-- The table without a breakpoint at an element. -/
def clear (t : Breakpoints) (word : WordId) (ip : Nat) : Breakpoints :=
  ⟨t.entries.filter fun e => e.1 != (word, ip)⟩

/-- The table with a breakpoint at an element. -/
def set (t : Breakpoints) (word : WordId) (ip : Nat) (enabled : Bool) : Breakpoints :=
  ⟨((word, ip), enabled) :: (t.clear word ip).entries⟩

/-- What the table says about an element. -/
def get (t : Breakpoints) (word : WordId) (ip : Nat) : Breakpoint :=
  match t.entries.find? fun e => e.1 == (word, ip) with
  | some (_, true) => .enabled
  | some (_, false) => .disabled
  | none => .none

end Breakpoints

/-- The state of the debugger. -/
structure Debugger where
  /-- The level. -/
  level : DebugLevel := .off
  /-- The depth at which stepping over was asked for. -/
  stepOverDepth : Nat := 0
  /-- Whether the hook is attached. -/
  attached : Bool := false
  /-- The hook. -/
  hook : Hook := {}

namespace Debugger

instance : Inhabited Debugger := ⟨{}⟩

/-- The debugger whose hook answers from a table. -/
def useTable (d : Debugger) (t : Breakpoints) : Debugger :=
  { d with hook := { d.hook with answer := fun _ => t.get } }

/-- The debugger with its hook attached.  A new plan takes the place of what is left of the old
    one. -/
def attach (d : Debugger) (plan? : Option (List DebugLevel)) : Debugger :=
  { d with attached := true, hook := { d.hook with plan := plan?.getD d.hook.plan } }

/-- The debugger without its hook, which keeps what it has seen. -/
def detach (d : Debugger) : Debugger :=
  { d with attached := false }

/-- The debugger without the stops recorded so far. -/
def forgetStops (d : Debugger) : Debugger :=
  { d with hook := { d.hook with stops := [] } }

/-- The debugger at a new level, set at a depth of nested words. -/
def setLevel (d : Debugger) (l : DebugLevel) (depth : Nat) : Debugger :=
  { d with level := l, stepOverDepth := if l = .stepOver then depth else d.stepOverDepth }

/-- Whether to stop at an element. -/
def shouldStop (d : Debugger) (depth : Nat) (b : Breakpoint) : Bool :=
  match d.level with
  | .off => false
  | .singleStep => true
  | .run => b == .enabled
  | .stepOver => depth ≤ d.stepOverDepth || b == .enabled

/-- Whether the hook is asked about the elements that are reached. -/
def isWatching (d : Debugger) : Bool :=
  d.level != .off && d.attached

/-- The debugger after the hook has been asked about an element of a word. -/
def visit (d : Debugger) (word : WordId) (label : String) (ip depth dataDepth : Nat) : Debugger :=
  let b := d.hook.answer d.hook.asked word ip
  let k := { d.hook with asked := d.hook.asked + 1 }
  if d.shouldStop depth b then
    let (l, k) := k.stopped ⟨label, ip, depth, dataDepth, b⟩
    { d with hook := k }.setLevel l depth
  else { d with hook := k }

end Debugger
end ThreadedForth
