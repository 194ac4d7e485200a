/-
  The engine.

  The engine runs words step by step.  A step looks at the innermost run.  If
  the nest stack is back at the depth where the run began, the run has ended,
  and the primitive that started it is finished.  Otherwise an interrupt is
  looked for, and the innermost frame takes one step: a composed word starts
  its next element, a primitive does its work, and a word whose code is
  indirect pushes the address of its data and goes on in another body.

  An error gives up the frames of the run it happens in, and then reaches the
  primitive that started the run, which may catch it.

  * `Machine.step`: one step;
  * `Machine.steps`: as many steps as the fuel allows, until the outermost run
    has ended;
  * `Machine.execute`: a word run to completion.
-/
import ThreadedForth.WordSet

namespace ThreadedForth

/-- A machine after a step. -/
inductive Progress where
  /-- The outermost run goes on. -/
  | running (m : Machine)
  /-- The outermost run has ended. -/
  | ended (m : Machine)
  /-- The outermost run has failed. -/
  | failed (e : Error) (m : Machine)

namespace Machine

/-- The machine with a word started on top of its frames. -/
def enter (m : Machine) (w : WordId) : Machine :=
  { m with frames := ⟨w, 1⟩ :: m.frames }

/-- The machine without its innermost frame. -/
def popFrame (m : Machine) : Machine :=
  { m with frames := m.frames.tail }

/-- Whether the frames are back at a depth, or below it. -/
def isBackAt (m : Machine) (depth : Nat) : Bool :=
  (m.frames.drop depth).isEmpty

theorem isBackAt_iff {m : Machine} {depth : Nat} :
    m.isBackAt depth = true ↔ m.frames.length ≤ depth := by
  simp [isBackAt]

/-- The machine with its frames cut down to a depth. -/
def truncateFrames (m : Machine) (depth : Nat) : Machine :=
  { m with frames := m.frames.drop (m.frames.length - depth) }

/-- The machine with a run of a word started. -/
def startRun (m : Machine) (w : WordId) (pending : Pending) : Machine :=
  { m with runs := ⟨m.frames.length, pending⟩ :: m.runs }.enter w

/-- The machine after a primitive has said how to go on.  The frame of the primitive ends, unless
    a nested run comes before its end.  Leaving the calling word never leaves the run. -/
def proceed (m : Machine) : Flow → Machine
  | .next => m.popFrame
  | .leave => if m.popFrame.isBackAt m.runBase then m.popFrame else m.popFrame.popFrame
  | .call w => m.popFrame.enter w
  | .nest w pending => m.startRun w pending

/-- The machine after an error, on its way out through the runs `rs`.  The text of an error that
    is caught is pushed; if it does not fit, that is a new error. -/
def unwind (e : Error) (m : Machine) : List Run → Progress
  | [] => .failed e m
  | r :: rest =>
    let m := { m.truncateFrames r.base with runs := rest }
    match r.pending with
    | .outside => .failed e m
    | .attempt =>
      match M.pushNew (.text e.message) m with
      | .ok _ m => .running (m.proceed .next)
      | .error e m => unwind e m rest
    | _ => unwind e m rest

/-- The machine after an error. -/
def fail (e : Error) (m : Machine) : Progress :=
  unwind e m m.runs

/-- What is done when a nested run has ended without an error. -/
def resume : Pending → M Flow
  | .outside | .run => pure .next
  | .handler depth after => do
    Operator.conclude depth after
    pure .next
  | .attempt => do
    M.pushNew (.text "fine")
    pure .next

/-- The machine after the work of a primitive. -/
def settle : EStateM.Result Error Machine Flow → Progress
  | .ok flow m => .running (m.proceed flow)
  | .error e m => m.fail e

/-- One step of a composed word at an element of its body. -/
def stepElement (m : Machine) (f : Frame) (rest : List Frame) : Progress :=
  let w := m.heap.word f.word
  match w.body[f.ip]? with
  | none => .running m.popFrame
  | some e =>
    let debugger :=
      if m.debugger.isWatching then
        m.debugger.visit f.word w.label f.ip m.frames.length m.data.depth
      else m.debugger
    let m := { m with debugger, frames := { f with ip := f.ip + 1 } :: rest }
    match e with
    | .call callee => .running (m.enter callee)
    | .recurse => .running (m.enter f.word)
    | .direct _ | .lit _ => m.fail (.notExecutable w.label f.ip)

/-- One step of the innermost frame. -/
def stepFrame (m : Machine) (f : Frame) (rest : List Frame) : Progress :=
  match (m.heap.word f.word).code with
  | .error e => m.fail e
  | .ok .docol => m.stepElement f rest
  | .ok (.native p) => settle (p.run m)
  | .ok (.indirect body entry) =>
    match M.push (.ptr (m.heap.pointer f.word 1)) m with
    | .ok _ m => .running { m with frames := ⟨body, entry⟩ :: rest }
    | .error e m => m.fail e

/-- One step. -/
def step (m : Machine) : Progress :=
  match m.runs with
  | [] => .ended m
  | r :: rest =>
    if m.isBackAt r.base then
      let m := { m with runs := rest }
      match r.pending with
      | .outside => .ended m
      | pending => settle (resume pending m)
    else if m.interrupt then { m with interrupt := false }.fail .interrupted
    else
      match m.frames with
      | [] => m.fail .callStackCorrupted
      | f :: rest => m.stepFrame f rest

/-- Steps until the outermost run has ended; `none` if the fuel does not suffice. -/
def steps : Nat → Machine → Option (EStateM.Result Error Machine Unit)
  | 0, _ => none
  | fuel + 1, m =>
    match m.step with
    | .running m => steps fuel m
    | .ended m => some (.ok () m)
    | .failed e m => some (.error e m)

/-- Runs a word to completion. -/
def execute (fuel : Nat) (w : WordId) (m : Machine) : Option (EStateM.Result Error Machine Unit) :=
  steps fuel (m.startRun w .outside)

end Machine

/-- Steps on a machine that may fail, or may not end within the fuel. -/
abbrev Runner (α : Type) := Machine → Option (EStateM.Result Error Machine α)

namespace Runner

variable {α β : Type}

/-- A step that needs no fuel. -/
def ofM (act : M α) : Runner α := fun m =>
  some (act m)

/-- One part after the other, as long as there is no error. -/
def andThen (first : Runner α) (next : α → Runner β) : Runner β := fun m =>
  match first m with
  | none => none
  | some (.ok a m) => next a m
  | some (.error e m) => some (.error e m)

end Runner

/-- Applies an operator from outside of any word. -/
def Operator.applyFrom (fuel : Nat) (a b : Value) (op : Operator) : Runner Value :=
  (Runner.ofM (op.dispatch a b)).andThen fun
    | .done v => Runner.ofM (pure v)
    | .run w depth =>
      Runner.andThen (Machine.execute fuel w) fun _ => Runner.ofM (takeResult depth)

end ThreadedForth
