/-
  The outer interpreter.

  A line is taken token by token.  A token that names a visible word is run or
  compiled, as the mode of the compiler says; a number is pushed or compiled;
  anything else is an error.  A line that succeeds ends with a prompt.  After
  an error the rest of the line is skipped and everything transient is dropped.

  * `Machine.interpretToken`: one token;
  * `Machine.interpret`: the rest of the line;
  * `Machine.processLine`: the rest of the line, and the prompt or the reset.
-/
import ThreadedForth.Engine
import ThreadedForth.Number.Literal

namespace ThreadedForth

namespace Literal

/-- The value of a number. -/
def Number.toValue : Number → Value
  | .int n => .int n
  | .float x => .float x

end Literal

namespace Machine

/-- Compiles a postponed word: an immediate word is called, any other is compiled when the word
    being defined runs. -/
def compilePostponed (w : WordId) : M Unit := do
  if ((← get).heap.word w).immediate then M.compile (.call w)
  else
    M.compileLiteral (.xt w)
    M.compileBuiltin "compile,"

/-- A token that names a word. -/
def interpretWord (fuel : Nat) (w : WordId) : Runner Unit := fun m =>
  match m.compiler.mode with
  | .interpreting => m.execute fuel w
  | .compiling =>
    if (m.heap.word w).immediate then m.execute fuel w else some (M.compileWord w m)
  | .compilingPostponed =>
    some ((do M.setMode .compiling; compilePostponed w : M Unit) m)
  | .runtimeCompiling =>
    some ((do M.setMode .interpreting; setLastCode (.indirect w 1) : M Unit) m)

/-- A token that names no word. -/
def interpretNumber (token : String) : M Unit := do
  match Literal.number? token with
  | none => throw (.unknownWord token)
  | some n =>
    match ← M.mode with
    | .interpreting => M.push n.toValue
    | .compiling => M.compileLiteral n.toValue
    | _ => throw (.compileState (.expectedWord token))

/-- One token. -/
def interpretToken (fuel : Nat) (token : String) : Runner Unit := fun m =>
  match m.find? token with
  | some w => interpretWord fuel w m
  | none => some (interpretNumber token m)

/-- Fails if an interrupt has been asked for, which is then over. -/
def checkInterrupt : M Unit := fun m =>
  if m.interrupt then .error .interrupted { m with interrupt := false } else .ok () m

/-- The next token that is to be interpreted; there is none at the end of the line, or if a
    comment does not end on it. -/
def nextSourceToken : M (Option String) := do
  checkInterrupt
  if (← get).inComment then
    modify Machine.skipComment
    if (← get).inComment then return none
  M.nextToken

/-- The rest of the line.  A token takes at least one character of it. -/
def interpret (fuel : Nat) : Nat → Runner Unit
  | 0 => Runner.ofM (pure ())
  | n + 1 =>
    (Runner.ofM nextSourceToken).andThen fun
      | none => Runner.ofM (pure ())
      | some token => (interpretToken fuel token).andThen fun _ => interpret fuel n

/-- What is written after a line. -/
def prompt (m : Machine) : String :=
  if m.compiler.mode = .interpreting then "ok.\n" else "compiled.\n"

/-- The rest of the line, then the prompt; or the reset after an error. -/
def processLine (fuel : Nat) : Runner Unit := fun m =>
  match interpret fuel (m.line.text.length + 2) m with
  | none => none
  | some (.ok _ m) => some (M.put m.prompt m)
  | some (.error e m) => some (.error e { m with line := m.line.skip }.reset)

/-- Puts a text into the input line. -/
def fill (text : String) : M Unit := fun m =>
  match m.line.fill text with
  | .ok line => .ok () { m with line }
  | .error e => .error e m

/-- A whole line of text. -/
def runLine (fuel : Nat) (text : String) : Runner Unit :=
  (Runner.ofM (fill text)).andThen fun _ => processLine fuel

end Machine
end ThreadedForth
