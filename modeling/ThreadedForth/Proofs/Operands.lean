/-
  Operands on the data stack.
-/
import ThreadedForth.Proofs.Runs
import ThreadedForth.WordSet.Arithmetic

namespace ThreadedForth

namespace Machine

variable {α : Type} {m : Machine} {v : Value} {rest : List Value}

/-- The machine with the given items on its data stack. -/
def withItems (m : Machine) (items : List Value) : Machine :=
  { m with data := { m.data with items } }

theorem pop_of_items (hd : m.data.items = v :: rest) :
    M.pop m = .ok v { m with data := { m.data with items := rest } } := by
  simp only [M.pop, Stack.pop, hd]

theorem lift_ok {r : Except Error α} {a : α} (h : r = .ok a) : M.lift r m = .ok a m := by
  rw [h]
  rfl

theorem push_withItems (v : Value) (h : rest.length < m.data.capacity) :
    M.push v (m.withItems rest) = .ok () (m.withItems (v :: rest)) := by
  have hroom : (m.withItems rest).data.depth < (m.withItems rest).data.capacity := h
  simp only [M.push, Stack.push, if_pos hroom]
  rfl

end Machine

namespace Operator

open Machine

variable {m : Machine} {a b v : Value} {rest : List Value} {op : Operator}

theorem dispatch_of_no_handler (h : handler? m a b = none) :
    dispatch a b op m = match m.heap.applyValues a b op with
      | .ok v => .ok (.done v) m
      | .error e => .error e m := by
  have hget : (MonadState.get : M Machine) m = .ok m m := rfl
  rw [dispatch, M.bind_ok hget, h]
  cases hr : m.heap.applyValues a b op with
  | ok v => rfl
  | error e => rfl

/-- What a word does that applies an operator to operands without a handler. -/
theorem run_apply (hd : m.data.items = b :: a :: rest) (hfits : m.data.Fits)
    (hh : handler? m a b = none) (op : Operator) :
    ArithmeticWord.run (.apply op) m = match m.heap.applyValues a b op with
      | .ok v => .ok .next (m.withItems (v :: rest))
      | .error e => .error e (m.withItems rest) := by
  have hroom : rest.length < m.data.capacity := by
    have hfits : m.data.items.length ≤ m.data.capacity := hfits
    rw [hd] at hfits
    simp only [List.length_cons] at hfits
    omega
  have hdispatch : dispatch a b op (m.withItems rest) = _ := dispatch_of_no_handler hh
  rw [ArithmeticWord.run, M.bind_ok (pop_of_items hd), M.bind_ok (pop_of_items rfl)]
  show applyThen a b op .push (m.withItems rest) = _
  rw [show (m.withItems rest).heap = m.heap from rfl] at hdispatch
  rw [applyThen]
  cases hr : m.heap.applyValues a b op with
  | ok v =>
    rw [hr] at hdispatch
    rw [M.bind_ok hdispatch]
    exact M.bind_ok (push_withItems v hroom)
  | error e =>
    rw [hr] at hdispatch
    exact M.bind_error hdispatch

end Operator
end ThreadedForth
