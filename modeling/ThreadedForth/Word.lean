/-
  Words.

  A word has a name, two flags and a body.  The first element of a body is a
  direct call, the code that runs the word; the other elements are calls of
  words, inline data and calls of the word itself.  `Word.push` and
  `Word.poke` keep to that rule; data slots are read and written by
  `Word.load` and `Word.store`.
-/
import ThreadedForth.Name
import ThreadedForth.Primitive
import ThreadedForth.Value

namespace ThreadedForth

/-- How a word runs. -/
inductive Code where
  /-- As a primitive. -/
  | native (p : Primitive)
  /-- Element by element, from the one after the code on. -/
  | docol
  /-- By pushing the address of its data and running `body` from the element `entry` on. -/
  | indirect (body : WordId) (entry : Nat)
deriving DecidableEq, Repr

/-- An element of a body. -/
inductive Elem where
  /-- The code of the word, which only the first element is. -/
  | direct (c : Code)
  /-- A call of a word. -/
  | call (w : WordId)
  /-- Inline data: an operand of the call before it, or a data slot. -/
  | lit (v : Value)
  /-- A call of the word that holds the element. -/
  | recurse
deriving DecidableEq, Repr

/-- A word. -/
structure Word where
  /-- The name; it is empty for words without one. -/
  name : Name
  /-- Whether the word cannot be found by its name. -/
  hidden : Bool
  /-- Whether the word runs even while a definition is open. -/
  immediate : Bool
  /-- Whether the word came with the machine. -/
  builtin : Bool
  /-- The elements. -/
  body : Array Elem
deriving DecidableEq

/-- How many slots a body or an array may have. -/
def slotLimit : Nat := 0x3ffffffffffffff

namespace Word

/-- A new word: hidden and without elements. -/
def blank (name : String) : Word :=
  ⟨.ofString name, true, false, false, #[]⟩

instance : Inhabited Word := ⟨blank ""⟩

/-- A word that came with the machine. -/
def ofPrimitive (name : String) (p : Primitive) (immediate : Bool) : Word :=
  ⟨.ofString name, false, immediate, true, #[.direct (.native p)]⟩

/-- A visible word that pushes the address of its data. -/
def created (name : String) : Word :=
  ⟨.ofString name, false, false, false, #[.direct (.native .dataAddress)]⟩

/-- A word that pushes a value. -/
def constant (name : String) (v : Value) : Word :=
  ⟨.ofString name, true, false, false, #[.direct (.native .pushConstant), .lit v]⟩

/-- Whether the word has no name. -/
def isAnonymous (w : Word) : Bool :=
  w.name.isEmpty

/-- The name in messages and listings. -/
def label (w : Word) : String :=
  if w.isAnonymous then "<anon>" else w.name.text

/-- The number of elements. -/
def size (w : Word) : Nat :=
  w.body.size

/-- The error that the word has no suitable slot at a position. -/
def badOffset (w : Word) (index : Nat) : Error :=
  .badWordOffset w.label index

/-- The code that runs the word. -/
def code (w : Word) : Except Error Code :=
  match (w.body[0]? : Option Elem) with
  | some (.direct c) => .ok c
  | _ => .error (.notExecutable w.label 0)

/-- Whether an element may stand at a position: a direct call first, anything else later. -/
def checkSlot (index : Nat) : Elem → Except Error Unit
  | .direct _ => if index = 0 then .ok () else .error .misplacedDirectCall
  | _ => if index = 0 then .error .misplacedDirectCall else .ok ()

/-- The word with an element added. -/
def push (w : Word) (e : Elem) : Except Error Word :=
  match checkSlot w.size e with
  | .ok _ => .ok { w with body := w.body.push e }
  | .error err => .error err

/-- The word with an element replaced. -/
def poke (w : Word) (index : Nat) (e : Elem) : Except Error Word :=
  match checkSlot index e with
  | .ok _ =>
    if index < w.size then .ok { w with body := w.body.setIfInBounds index e }
    else .error (w.badOffset index)
  | .error err => .error err

/-- The word with its code replaced. -/
def setCode (w : Word) (c : Code) : Except Error Word :=
  w.poke 0 (.direct c)

/-- The word with `n` data slots added, which hold zero. -/
def expand (w : Word) (n : Nat) : Except Error Word :=
  if w.size + n ≤ slotLimit then
    .ok { w with body := w.body ++ Array.replicate n (.lit (.int 0)) }
  else .error (.nativeFault .allocation)

/-- The value in a data slot. -/
def load (w : Word) (index : Nat) : Except Error Value :=
  match w.body[index]? with
  | some (.lit v) => if index = 0 then .error (w.badOffset index) else .ok v
  | _ => .error (w.badOffset index)

/-- The word with a value put into a data slot. -/
def store (w : Word) (index : Nat) (v : Value) : Except Error Word :=
  match w.load index with
  | .ok _ => .ok { w with body := w.body.setIfInBounds index (.lit v) }
  | .error err => .error err

end Word
end ThreadedForth
