/-
  The read-eval-print loop.

  Script files are run first, line by line; the first line that fails ends the
  program.  Then lines are read from the standard input, with a prompt before
  each.  An error is reported and the loop goes on.

  * `Repl.enter`: one line, with what it writes;
  * `Repl.runScript`: a script file;
  * `Repl.answer`: one line of the loop;
  * `Repl.run`: the whole program on given texts.
-/
import ThreadedForth.Config
import ThreadedForth.Interpreter

namespace ThreadedForth.Repl

/-- A machine after a line, with what the line wrote and how it failed. -/
structure Reply where
  /-- The machine. -/
  machine : Machine
  /-- What the line wrote. -/
  written : String
  /-- How the line failed. -/
  error? : Option Error

/-- Enters a line.  A line that does not fit the input is not run. -/
def enter (fuel : Nat) (m : Machine) (text : String) : Option Reply :=
  let m := { m with output := m.output.clear }
  match m.line.fill text with
  | .error e => some ⟨m, "", some e⟩
  | .ok line =>
    match { m with line }.processLine fuel with
    | none => none
    | some (.ok _ m) => some ⟨{ m with output := m.output.clear }, m.output.text, none⟩
    | some (.error e m) => some ⟨{ m with output := m.output.clear }, m.output.text, some e⟩

/-- Why the program ends early. -/
inductive Failure where
  /-- A file cannot be read. -/
  | unreadable
  /-- The configuration is not well formed. -/
  | badConfig
  /-- There is no memory for the stacks and buffers. -/
  | tooLarge
  /-- A line of a script has failed. -/
  | line (number : Nat) (text : String) (e : Error)

namespace Failure

/-- The exit code. -/
def exitCode : Failure → Nat
  | tooLarge => 101
  | _ => 1

/-- The message, for a failure that has to do with a file. -/
def message (path : String) : Failure → String
  | unreadable => "failed to read " ++ path
  | badConfig => "invalid config in " ++ path
  | tooLarge => "failed to create the forth VM"
  | line number text e => path ++ ":" ++ toString number ++ ": " ++ text ++ ": " ++ e.message

end Failure

/-- The machine that the program goes on with, or why it ends. -/
abbrev Outcome := Except Failure Machine

/-- Enters the lines of a script, up to the first that fails.  What the lines wrote comes first;
    the lines are numbered from `number` on. -/
def runLines (fuel : Nat) : Nat → Machine → List String → Option (String × Outcome)
  | _, m, [] => some ("", .ok m)
  | number, m, l :: ls => do
    let r ← enter fuel m l
    match r.error? with
    | some e => pure (r.written, .error (.line number l e))
    | none =>
      let (rest, outcome) ← runLines fuel (number + 1) r.machine ls
      pure (r.written ++ rest, outcome)

/-- Runs a script; there is none if its file cannot be read. -/
def runScript (fuel : Nat) (m : Machine) (text? : Option String) : Option (String × Outcome) :=
  match text? with
  | none => some ("", .error .unreadable)
  | some text => runLines fuel 1 m (textLines text)

/-- What is written before a line is read. -/
def prompt : String := "> "

/-- The report of an error. -/
def report (e : Error) : String :=
  "\nerror: " ++ e.message ++ "\n"

/-- Enters a line of the loop, as it was read.  What is written in answer comes first. -/
def answer (fuel : Nat) (m : Machine) (line : String) : Option (String × Machine) := do
  let r ← enter fuel m (trimEnd line)
  pure (r.written ++ (r.error?.map report).getD "", r.machine)

/-- The loop on given lines.  After the last one a line feed ends the output. -/
def loop (fuel : Nat) : Machine → List String → Option String
  | _, [] => some (prompt ++ "\n")
  | m, l :: ls => do
    let (written, m) ← answer fuel m l
    let rest ← loop fuel m ls
    pure (prompt ++ written ++ rest)

/-- Runs scripts one after the other. -/
def runScripts (fuel : Nat) : Machine → List (Option String) → Option (String × Outcome)
  | m, [] => some ("", .ok m)
  | m, text? :: rest => do
    let (written, outcome) ← runScript fuel m text?
    match outcome with
    | .error f => pure (written, .error f)
    | .ok m =>
      let (more, outcome) ← runScripts fuel m rest
      pure (written ++ more, outcome)

/-- The machine that a configuration asks for. -/
def start (config? : Option String) : Outcome :=
  match config?.elim (some {}) Config.parse? with
  | none => .error .badConfig
  | some params => if params.isAllocatable then .ok (.ofParams params) else .error .tooLarge

/-- The whole program: its exit code and its output, for a configuration, scripts and the text of
    its standard input. -/
def run (fuel : Nat) (config? : Option String) (scripts : List (Option String)) (stdin : String) :
    Option (Nat × String) :=
  match start config? with
  | .error f => some (f.exitCode, "")
  | .ok m => do
    let (written, outcome) ← runScripts fuel m scripts
    match outcome with
    | .error f => pure (f.exitCode, written)
    | .ok m => pure (0, written ++ (← loop fuel m (rawLines stdin)))

end ThreadedForth.Repl
