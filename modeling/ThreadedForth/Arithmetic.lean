/-
  Binary operators on values.

  `Heap.applyValues` gives the result for operands whose types have no handler
  of their own: floats with numbers, flags with flags, integers with
  integers, pointers with distances, and equality within the remaining kinds.
  `Heap.applyStrings` gives the operators of strings.
-/
import ThreadedForth.Heap.Display
import ThreadedForth.Heap.Pointer
import ThreadedForth.Number.Remainder

namespace ThreadedForth

/-- An operator on integers, which wrap around at 64 bits. -/
def intResult (a b : Int64) : Operator → Except Error Value
  | .add => .ok (.int (a + b))
  | .sub => .ok (.int (a - b))
  | .mul => .ok (.int (a * b))
  | .div => if b = 0 then .error .divideByZero else .ok (.int (a / b))
  | .mod => if b = 0 then .error .divideByZero else .ok (.int (a % b))
  | .eq => .ok (.bool (a == b))
  | .ne => .ok (.bool (a != b))
  | .lt => .ok (.bool (decide (a < b)))
  | .gt => .ok (.bool (decide (b < a)))
  | .le => .ok (.bool (decide (a ≤ b)))
  | .ge => .ok (.bool (decide (b ≤ a)))
  | .and => .ok (.int (a &&& b))
  | .or => .ok (.int (a ||| b))
  | .xor => .ok (.int (a ^^^ b))

/-- An operator on floats. -/
def floatResult (a b : Float) : Operator → Except Error Value
  | .add => .ok (.float (a + b))
  | .sub => .ok (.float (a - b))
  | .mul => .ok (.float (a * b))
  | .div => if b == 0.0 then .error .divideByZero else .ok (.float (a / b))
  | .mod => if b == 0.0 then .error .divideByZero else .ok (.float (remainder a b))
  | .eq => .ok (.bool (a == b))
  | .ne => .ok (.bool (a != b))
  | .lt => .ok (.bool (decide (a < b)))
  | .gt => .ok (.bool (decide (b < a)))
  | .le => .ok (.bool (decide (a ≤ b)))
  | .ge => .ok (.bool (decide (b ≤ a)))
  | op => .error (.typeMismatch (.floatOperator op))

/-- The error that no rule applies to the operands. -/
def noRule (a b : Value) (op : Operator) : Error :=
  .typeMismatch (.operands a.kind op b.kind)

/-- An operator on flags. -/
def flagResult (a b : Bool) : Operator → Except Error Value
  | .eq => .ok (.bool (a == b))
  | .ne => .ok (.bool (a != b))
  | .and => .ok (.bool (a && b))
  | .or => .ok (.bool (a || b))
  | .xor => .ok (.bool (a != b))
  | op => .error (noRule (.bool a) (.bool b) op)

/-- The operators of values that can only be equal or different. -/
def equalityResult (a b : Value) : Operator → Except Error Value
  | .eq => .ok (.bool (a.same b))
  | .ne => .ok (.bool (!a.same b))
  | op => .error (noRule a b op)

/-- An operator on an integer and an integer, a character or a flag, or the other way round. -/
def intLikeResult (a b : Value) (op : Operator) : Except Error Value := do
  intResult (← a.toInt) (← b.toInt) op

/-- An operator on two numbers, at least one of them a float. -/
def numberResult (a b : Value) (op : Operator) : Except Error Value := do
  floatResult (← a.toFloat) (← b.toFloat) op

namespace Heap

/-- A pointer moved by a distance. -/
def moved (h : Heap) (p : Pointer) (n : Int64) : Except Error Value :=
  (h.offset p n).map .ptr

/-- An operator on values that no handler takes care of. -/
def applyValues (h : Heap) (a b : Value) (op : Operator) : Except Error Value :=
  if (a.kind == .float || b.kind == .float) && a.isNumber && b.isNumber then numberResult a b op
  else
    match a, b with
    | .bool x, .bool y => flagResult x y op
    | .ptr p, .int n =>
      match op with
      | .add => h.moved p n
      | .sub => h.moved p (-n)
      | _ => .error (noRule a b op)
    | .int n, .ptr p =>
      match op with
      | .add => h.moved p n
      | _ => .error (noRule a b op)
    | .ptr p, .ptr q =>
      match op with
      | .sub =>
        if p.target = q.target then .ok (.int (Int64.ofInt (p.index - q.index)))
        else .error (noRule a b op)
      | _ => equalityResult a b op
    | .type _, .type _ | .binop _, .binop _ | .xt _, .xt _ | .obj _, .obj _ => equalityResult a b op
    | _, _ =>
      if a.isIntLike && b.isIntLike then intLikeResult a b op else .error (noRule a b op)

/-- A comparison of texts, by their characters. -/
def compareTexts (a b : String) : Operator → Bool
  | .eq => a == b
  | .ne => a != b
  | .lt => decide (a < b)
  | .gt => decide (b < a)
  | .le => !decide (b < a)
  | _ => !decide (a < b)

/-- An operator with a string on either side.  Addition joins the texts of both operands; two
    strings are compared by their texts. -/
def applyStrings (h : Heap) (a b : Value) (op : Operator) : Except Error (Value × Heap) :=
  if op = .add then .ok (h.addText (h.display a ++ h.display b))
  else if op.isComparison then
    match h.text? a, h.text? b with
    | some s, some t => .ok (.bool (compareTexts s t op), h)
    | s, _ =>
      match op with
      | .eq => .ok (.bool false, h)
      | .ne => .ok (.bool true, h)
      | _ => .error (.typeMismatch (.compareString (if s.isSome then b.kind else a.kind)))
  else .error (.typeMismatch (.stringOperator op))

end Heap
end ThreadedForth
