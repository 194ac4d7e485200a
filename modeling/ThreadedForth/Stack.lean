/-
  Bounded stacks.

  A stack knows its kind, for error messages, and how many items it may hold.
  Its items are kept top first.  An operation that fails leaves no trace: it
  returns no new stack.
-/
import ThreadedForth.Error

namespace ThreadedForth

/-- A stack of at most `capacity` items. -/
structure Stack (α : Type) where
  /-- Which stack it is. -/
  kind : StackKind
  /-- How many items it may hold. -/
  capacity : Nat
  /-- The items, the top first. -/
  items : List α := []
deriving DecidableEq

namespace Stack

variable {α : Type}

instance : Inhabited (Stack α) := ⟨⟨.data, 0, []⟩⟩

/-- The number of items. -/
def depth (s : Stack α) : Nat :=
  s.items.length

/-- The stack with an item on top. -/
def push (s : Stack α) (x : α) : Except Error (Stack α) :=
  if s.depth < s.capacity then .ok { s with items := x :: s.items }
  else .error (.stackFull s.kind)

/-- The top item and the stack below it. -/
def pop (s : Stack α) : Except Error (α × Stack α) :=
  match s.items with
  | [] => .error (.stackEmpty s.kind)
  | x :: rest => .ok (x, { s with items := rest })

/-- The item `n` places below the top. -/
def peek? (s : Stack α) (n : Nat) : Option α :=
  s.items[n]?

/-- The item `n` places below the top, which has to be there. -/
def peek (s : Stack α) (n : Nat) : Except Error α :=
  match s.peek? n with
  | some x => .ok x
  | none => .error (.stackEmpty s.kind)

/-- Whether `n` more items fit. -/
def ensureRoom (s : Stack α) (n : Nat) : Except Error Unit :=
  if s.capacity - s.depth < n then .error (.stackFull s.kind) else .ok ()

/-- The stack with the item `n` places below the top replaced. -/
def overwrite (s : Stack α) (n : Nat) (x : α) : Except Error (Stack α) :=
  if n < s.depth then .ok { s with items := s.items.set n x }
  else .error (.overwriteInvalid s.kind)

/-- The stack without its items. -/
def clear (s : Stack α) : Stack α :=
  { s with items := [] }

/-- The items, the bottom first. -/
def toList (s : Stack α) : List α :=
  s.items.reverse

/-- A stack within its capacity. -/
def Fits (s : Stack α) : Prop :=
  s.depth ≤ s.capacity

theorem push_eq_ok {s t : Stack α} {x : α} (h : s.push x = .ok t) :
    s.depth < s.capacity ∧ t = { s with items := x :: s.items } := by
  unfold push at h
  split at h <;> simp_all

theorem pop_eq_ok {s t : Stack α} {x : α} (h : s.pop = .ok (x, t)) :
    s.items = x :: t.items ∧ t.capacity = s.capacity ∧ t.kind = s.kind := by
  unfold pop at h
  split at h
  · simp at h
  · simp only [Except.ok.injEq, Prod.mk.injEq] at h
    obtain ⟨rfl, rfl⟩ := h
    simp_all

theorem Fits.push {s t : Stack α} {x : α} (h : s.push x = .ok t) : t.Fits := by
  obtain ⟨hd, rfl⟩ := push_eq_ok h
  simp only [Fits, depth, List.length_cons] at hd ⊢
  omega

end Stack
end ThreadedForth
