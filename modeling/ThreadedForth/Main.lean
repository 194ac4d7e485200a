/-
  The program.

  Runs the scripts of the command line, then reads lines from the standard
  input.  What the machine writes goes to the standard output, and why the
  program ends early to the standard error.
-/
import ThreadedForth.Arguments
import ThreadedForth.Repl

namespace ThreadedForth.Main

/-- More steps than a machine takes in a lifetime. -/
def fuel : Nat := 1000000000000000

/-- The text of a file; `none` if it cannot be read. -/
def fileText (path : String) : IO (Option String) := do
  try pure (some (← IO.FS.readFile path))
  catch _ => pure none

/-- Writes to the standard output at once. -/
def put (text : String) : IO Unit := do
  let out ← IO.getStdout
  out.putStr text
  out.flush

/-- Reports why the program ends early. -/
def giveUp (path : String) (f : Repl.Failure) : IO UInt32 := do
  IO.eprintln ("error: " ++ f.message path)
  pure (UInt32.ofNat f.exitCode)

/-- The loop on the standard input. -/
partial def converse (m : Machine) : IO UInt32 := do
  put Repl.prompt
  let line ← (← IO.getStdin).getLine
  if line.isEmpty then
    put "\n"
    return 0
  match Repl.answer fuel m line with
  | none => return 1
  | some (written, m) =>
    put written
    converse m

/-- Runs scripts one after the other, and then the loop. -/
def runFiles (m : Machine) : List String → IO UInt32
  | [] => converse m
  | path :: rest => do
    match Repl.runScript fuel m (← fileText path) with
    | none => pure 1
    | some (written, outcome) =>
      put written
      match outcome with
      | .error f => giveUp path f
      | .ok m => runFiles m rest

/-- The machine of a configuration file, if there is one. -/
def loadConfig (path? : Option String) : IO Repl.Outcome := do
  match path? with
  | none => pure (Repl.start none)
  | some path =>
    match ← fileText path with
    | none => pure (.error .unreadable)
    | some text => pure (Repl.start (some text))

/-- The program on its arguments. -/
def run (texts : List String) : IO UInt32 := do
  match Arguments.ofList? texts with
  | none =>
    IO.eprintln "usage: threaded-forth [-c CONFIG] [-t FILTER] [FILE]..."
    pure 2
  | some args =>
    match ← loadConfig args.config? with
    | .error f => giveUp (args.config?.getD "") f
    | .ok m => runFiles m args.scripts

end ThreadedForth.Main

/-- The program. -/
def main (texts : List String) : IO UInt32 :=
  ThreadedForth.Main.run texts
