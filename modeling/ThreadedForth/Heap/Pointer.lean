/-
  Pointers into word bodies.

  * `Heap.pointer`, `Heap.offset`: pointers to slots;
  * `Heap.load`, `Heap.store`: reading and writing through a pointer;
  * `Heap.follow`: a given number of levels of indirection;
  * `Heap.followToEnd`: levels until something is not a pointer; a chain that
    comes back to a slot it has passed is an error.
-/
import ThreadedForth.Heap

namespace ThreadedForth.Heap

/-- A pointer to a slot. -/
def pointer (h : Heap) (w : WordId) (index : Nat) : Pointer where
  target := w
  index := index
  type :=
    match (h.slotType w index).pointerTo with
    | .ok t => t
    | .error _ => .invalid

/-- The value that a pointer points to. -/
def load (h : Heap) (p : Pointer) : Except Error Value :=
  (h.word p.target).load p.index

/-- The heap with a value stored where a pointer points. -/
def store (h : Heap) (p : Pointer) (v : Value) : Except Error Heap :=
  h.changeWord p.target fun w => w.store p.index v

/-- The pointer `n` slots further on in the same word.  The position is read as an integer of 64
    bits, and the sum has to be one; the code of a word cannot be pointed at. -/
def offset (h : Heap) (p : Pointer) (n : Int64) : Except Error Pointer :=
  let i := (Int64.ofNat p.index).toInt + n.toInt
  if 1 ≤ i ∧ i ≤ Int64.maxValue.toInt then .ok (h.pointer p.target i.toNat)
  else .error (.badWordOffset (h.word p.target).name.text p.index)

/-- One level of indirection. -/
def deref (h : Heap) (v : Value) : Except Error Value :=
  match v.toPointer with
  | .ok p => h.load p
  | .error e => .error e

/-- The given number of levels of indirection. -/
def follow (h : Heap) (v : Value) : Nat → Except Error Value
  | 0 => .ok v
  | n + 1 =>
    match h.deref v with
    | .ok w => h.follow w n
    | .error e => .error e

/-- The slots of all words. -/
def slotCount (h : Heap) : Nat :=
  h.words.foldl (fun n w => n + w.size) 0

/-- The value at the end of a chain of pointers that has passed the slots `seen`. -/
def followFrom (h : Heap) (seen : List (WordId × Nat)) : Nat → Value → Except Error Value
  | 0, _ => .error .pointerCycle
  | fuel + 1, .ptr p =>
    if seen.contains (p.target, p.index) then .error .pointerCycle
    else
      match h.load p with
      | .ok v => h.followFrom ((p.target, p.index) :: seen) fuel v
      | .error e => .error e
  | _ + 1, v => .ok v

/-- The first value of a chain of pointers that is not a pointer.  A chain can pass each slot
    once, so that it ends within as many levels as there are slots. -/
def followToEnd (h : Heap) (v : Value) : Except Error Value :=
  h.followFrom [] (h.slotCount + 2) v

end ThreadedForth.Heap
