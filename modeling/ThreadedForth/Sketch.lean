/-
  Values described from outside.

  A host that hands values to a machine describes them: plain values as they
  are, objects by their contents, words by their names.
-/
import ThreadedForth.Heap.Pointer

namespace ThreadedForth

/-- The description of a value. -/
inductive Sketch where
  | char (c : UInt8)
  | int (n : Int64)
  | float (x : Float)
  | bool (b : Bool)
  | type (t : TypeId)
  | binop (op : Operator)
  /-- A new string. -/
  | text (s : String)
  /-- A new array. -/
  | array (items : List Sketch)
  /-- A word. -/
  | xt (name : String)
  /-- A pointer to a slot of a word. -/
  | ptr (name : String) (index : Nat)
  /-- A value that was put aside under a name. -/
  | register (name : String)

/-- What the names in descriptions stand for. -/
structure Sketch.Scope where
  /-- The words. -/
  word : String → Except Error WordId
  /-- The values that were put aside. -/
  register : String → Value := fun _ => default

namespace Sketch

mutual

/-- The value of a description, and the heap with its new objects. -/
def build (s : Scope) : Sketch → Heap → Except Error (Value × Heap)
  | char c, h => .ok (.char c, h)
  | int n, h => .ok (.int n, h)
  | float x, h => .ok (.float x, h)
  | bool b, h => .ok (.bool b, h)
  | type t, h => .ok (.type t, h)
  | binop op, h => .ok (.binop op, h)
  | text t, h => .ok (h.addText t)
  | array items, h => do
    let (vs, h) ← buildAll s items h
    let (o, h) := h.addObject (.ofItems vs.toArray)
    pure (.obj o, h)
  | xt name, h => do pure (.xt (← s.word name), h)
  | ptr name index, h => do pure (.ptr (h.pointer (← s.word name) index), h)
  | register name, h => .ok (s.register name, h)

/-- The values of a list of descriptions. -/
def buildAll (s : Scope) : List Sketch → Heap → Except Error (List Value × Heap)
  | [], h => .ok ([], h)
  | k :: ks, h => do
    let (v, h) ← build s k h
    let (vs, h) ← buildAll s ks h
    pure (v :: vs, h)

end

end Sketch
end ThreadedForth
