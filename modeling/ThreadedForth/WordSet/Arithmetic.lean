/-
  Words for integers, flags, floats and everything that has operators.

  An operator is applied by the handler of an operand's type, the left operand
  first, and by the rules for plain values if neither operand is an object
  with a handler.  A handler that is a word runs as a nested run.

  * `Operator.dispatch`: the result, or the word that will give it;
  * `Operator.conclude`: what is done when the handler has run.
-/
import ThreadedForth.Arithmetic
import ThreadedForth.Machine

namespace ThreadedForth

namespace Operator

/-- How an operator is applied. -/
inductive Dispatch where
  /-- It has been applied. -/
  | done (result : Value)
  /-- A word applies it, called with the data stack at a depth before its operands. -/
  | run (w : WordId) (depth : Nat)

/-- The handler of an operand. -/
def handlerOf? (m : Machine) : Value → Option Handler
  | .obj o => m.types.handler? (m.heap.object o).type
  | _ => none

/-- The handler that applies an operator to two operands. -/
def handler? (m : Machine) (a b : Value) : Option Handler :=
  (handlerOf? m a).or (handlerOf? m b)

/-- Takes the result of a handler, which has to be the only value it left. -/
def takeResult (depth : Nat) : M Value := do
  if (← get).data.depth = depth + 1 then M.pop else throw .handlerContract

/-- The handler of strings: it replaces the operands and the operator by the result. -/
def handleStrings : M Unit := do
  let op ← M.lift (← M.pop).toOperator
  let b ← M.pop
  let a ← M.pop
  let (v, heap) ← M.lift ((← get).heap.applyStrings a b op)
  modify fun m => { m with heap }
  M.push v

/-- The handlers of the host; one of them has a word called. -/
def handleHost : HostHandler → M (Option WordId)
  | .const | .exit => do
    let _ ← M.pop
    let _ ← M.pop
    let _ ← M.pop
    M.push (.int 42)
    pure none
  | .call => do pure (some (← M.builtin "handler"))
  | .broken => do
    let _ ← M.pop
    pure none

/-- Starts a handler on its operands and the operator, which are on the data stack. -/
def handle : Handler → M (Option WordId)
  | .strings => do
    handleStrings
    pure none
  | .host h => handleHost h
  | .word w => pure (some w)

/-- Applies an operator, as far as that needs no word to run. -/
def dispatch (a b : Value) (op : Operator) : M Dispatch := do
  let m ← get
  match handler? m a b with
  | none => pure (.done (← M.lift (m.heap.applyValues a b op)))
  | some h =>
    let depth := m.data.depth
    M.push a
    M.push b
    M.push (.binop op)
    match ← handle h with
    | some w => pure (.run w depth)
    | none => pure (.done (← takeResult depth))

/-- What is done with the result of an operator. -/
def useResult (v : Value) : After → M Unit
  | .push => M.push v
  | .select a b => do
    if ← M.lift v.toFlag then M.push a else M.push b
  | .store p => do M.setHeap ((← get).heap.store p v)

/-- What is done when the handler of an operator has run. -/
def conclude (depth : Nat) (after : After) : M Unit := do
  useResult (← takeResult depth) after

/-- Applies an operator and uses its result. -/
def applyThen (a b : Value) (op : Operator) (after : After) : M Flow := do
  match ← dispatch a b op with
  | .done v =>
    useResult v after
    pure .next
  | .run w depth => pure (.nest w (.handler depth after))

end Operator

/-- The magnitude of an integer; that of the least integer wraps around to itself. -/
def magnitude (n : Int64) : Int64 :=
  if n < 0 then -n else n

/-- What an arithmetic word does. -/
def ArithmeticWord.run : ArithmeticWord → M Flow
  | .apply op => do
    let b ← M.pop
    let a ← M.pop
    op.applyThen a b .push
  | .select op => do
    let b ← M.pop
    let a ← M.pop
    op.applyThen a b (.select a b)
  | .increment => do Operator.add.applyThen (← M.pop) (.int 1) .push
  | .decrement => do Operator.sub.applyThen (← M.pop) (.int 1) .push
  | .negate => do
    match ← M.pop with
    | .float x => M.push (.float (-x))
    | v => M.push (.int (-(← M.lift v.toInt)))
    pure .next
  | .abs => do
    match ← M.pop with
    | .float x => M.push (.float x.abs)
    | v => M.push (.int (magnitude (← M.lift v.toInt)))
    pure .next
  | .not => do
    M.push (.bool (!(← M.popFlag)))
    pure .next
  | .invert => do
    M.push (.int (~~~(← M.popInt)))
    pure .next
  | .flag b => do
    M.push (.bool b)
    pure .next

/-- A function of a float, on the top of the data stack. -/
def onFloat (f : Float → Float) : M Unit := do
  M.push (.float (f (← M.lift (← M.pop).toFloat)))

/-- What a word for floats does. -/
def FloatWord.run : FloatWord → M Unit
  | .toFloat => onFloat id
  | .toInt => do
    match ← M.pop with
    | .float x => M.push (.int x.toInt64)
    | v => M.push (.int (← M.lift v.toInt))
  | .sqrt => onFloat Float.sqrt
  | .floor => onFloat Float.floor
  | .ceil => onFloat Float.ceil
  | .round => onFloat Float.round

end ThreadedForth
