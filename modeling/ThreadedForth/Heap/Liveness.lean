/-
  Which words and objects are alive, and how often an object is referred to.

  The machine owns its words and objects by counted references: a word or an
  object is alive as long as one reference to it is held by a root or by
  something that is itself alive.  Starting from everything that was ever
  allocated, what nothing alive refers to is dropped again and again until
  nothing changes.  Structures that refer to themselves keep themselves alive.

  * `Heap.alive`: what is left in the end;
  * `Heap.references`: how many references to an object are held;
  * `Heap.liveCount`: the references to the object at the end of a chain of
    pointers.
-/
import ThreadedForth.Heap.Pointer

namespace ThreadedForth

/-- A reference to the heap. -/
inductive Ref where
  | word (w : WordId)
  | object (o : ObjId)
deriving DecidableEq, Repr

/-- The references that a value holds. -/
def Value.refs : Value → List Ref
  | .xt w => [.word w]
  | .ptr p => [.word p.target]
  | .obj o => [.object o]
  | _ => []

/-- The references that an element of a body holds. -/
def Elem.refs : Elem → List Ref
  | .direct (.indirect body _) => [.word body]
  | .direct _ => []
  | .call w => [.word w]
  | .lit v => v.refs
  | .recurse => []

/-- The references that a word holds. -/
def Word.refs (w : Word) : List Ref :=
  w.body.toList.flatMap Elem.refs

/-- The references that an object holds. -/
def Obj.refs (o : Obj) : List Ref :=
  o.items.toList.flatMap Value.refs

/-- A set of words and objects of a heap, by their order of allocation. -/
structure Marks where
  /-- The words. -/
  words : Array Bool
  /-- The objects. -/
  objects : Array Bool
deriving DecidableEq

namespace Marks

/-- No words and objects of a heap. -/
def none (h : Heap) : Marks :=
  ⟨Array.replicate h.words.size false, Array.replicate h.objects.size false⟩

/-- All words and objects of a heap. -/
def all (h : Heap) : Marks :=
  ⟨Array.replicate h.words.size true, Array.replicate h.objects.size true⟩

/-- Whether a word or an object belongs to the set. -/
def has (m : Marks) : Ref → Bool
  | .word w => m.words[w.index]?.getD false
  | .object o => m.objects[o.index]?.getD false

/-- The set with a word or an object added. -/
def add (m : Marks) : Ref → Marks
  | .word w => { m with words := m.words.setIfInBounds w.index true }
  | .object o => { m with objects := m.objects.setIfInBounds o.index true }

end Marks

namespace Heap

/-- The references held by the words and objects of a set. -/
def heldBy (h : Heap) (m : Marks) : List Ref :=
  ((h.words.toList.zip m.words.toList).flatMap fun (w, kept) => if kept then w.refs else []) ++
    ((h.objects.toList.zip m.objects.toList).flatMap fun (o, kept) => if kept then o.refs else [])

/-- The words and objects that the roots or the members of a set refer to. -/
def supported (h : Heap) (roots : List Ref) (m : Marks) : Marks :=
  (roots ++ h.heldBy m).foldl Marks.add (Marks.none h)

/-- What is left of a set when everything that nothing refers to has been dropped. -/
def settle (h : Heap) (roots : List Ref) : Nat → Marks → Marks
  | 0, m => m
  | fuel + 1, m =>
    let next := h.supported roots m
    if next = m then m else h.settle roots fuel next

/-- The words and objects that are alive.  Every round but the last drops something. -/
def alive (h : Heap) (roots : List Ref) : Marks :=
  h.settle roots (h.words.size + h.objects.size + 1) (Marks.all h)

/-- Whether a word is alive.  A root is alive without a further look. -/
def isAlive (h : Heap) (roots : List Ref) (w : WordId) : Bool :=
  roots.contains (.word w) || (h.alive roots).has (.word w)

/-- The number of references to an object that are held. -/
def references (h : Heap) (roots : List Ref) (o : ObjId) : Nat :=
  (roots ++ h.heldBy (h.alive roots)).count (.object o)

/-- The number of references to the object that a value is, or that a chain of pointers ends in;
    none for any other value. -/
def liveCount? (h : Heap) (roots : List Ref) : Value → Option Nat
  | .obj o => some (h.references roots o)
  | .ptr p =>
    match h.followToEnd (.ptr p) with
    | .ok (.obj o) => some (h.references roots o)
    | _ => none
  | _ => none

end Heap
end ThreadedForth
