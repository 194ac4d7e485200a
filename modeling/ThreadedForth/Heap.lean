/-
  The heap.

  Words and objects stay in the order of their allocation.  Nothing is ever
  taken out: what nothing refers to any more cannot be observed, except
  through the counts and the weak reference of `Heap.Liveness`, which are
  computed from the references that there are.
-/
import ThreadedForth.Word

namespace ThreadedForth

/-- The declaration of a type of records. -/
structure Declaration where
  /-- The name as it was written. -/
  name : String
  /-- The names of the fields. -/
  fields : List String
deriving DecidableEq, Repr, Inhabited

/-- An object.  Objects that hold values have a mark, which is set while a walk over the objects
    is inside them. -/
inductive Obj where
  /-- A string. -/
  | text (s : String)
  /-- An array. -/
  | array (items : Array Value) (visiting : Bool)
  /-- A record of a declared type, with one value for each field. -/
  | record (type : TypeId) (declaration : Declaration) (items : Array Value) (visiting : Bool)
deriving DecidableEq

namespace Obj

instance : Inhabited Obj := ⟨text ""⟩

/-- A new array. -/
def ofItems (items : Array Value) : Obj :=
  array items false

/-- A new record, all of whose fields hold zero. -/
def ofDeclaration (t : TypeId) (d : Declaration) : Obj :=
  record t d (Array.replicate d.fields.length (.int 0)) false

/-- The type of an object. -/
def type : Obj → TypeId
  | text _ => .string
  | array _ _ => .array
  | record t _ _ _ => t

/-- The values that an object holds. -/
def items : Obj → Array Value
  | text _ => #[]
  | array items _ | record _ _ items _ => items

/-- The object with its values replaced; a string has none. -/
def setItems (items : Array Value) : Obj → Obj
  | text s => text s
  | array _ v => array items v
  | record t d _ v => record t d items v

/-- The mark; a string has none. -/
def visiting? : Obj → Option Bool
  | text _ => none
  | array _ v | record _ _ _ v => some v

/-- The object with its mark set or cleared. -/
def setVisiting (v : Bool) : Obj → Obj
  | text s => text s
  | array items _ => array items v
  | record t d items _ => record t d items v

end Obj

/-- The words and objects in the order of their allocation. -/
structure Heap where
  /-- The words. -/
  words : Array Word := #[]
  /-- The objects. -/
  objects : Array Obj := #[]
deriving DecidableEq, Inhabited

namespace Heap

/-- A word of the heap. -/
def word (h : Heap) (w : WordId) : Word :=
  h.words[w.index]?.getD default

/-- An object of the heap. -/
def object (h : Heap) (o : ObjId) : Obj :=
  h.objects[o.index]?.getD default

/-- A new word. -/
def addWord (h : Heap) (w : Word) : WordId × Heap :=
  (⟨h.words.size⟩, { h with words := h.words.push w })

/-- A new object. -/
def addObject (h : Heap) (o : Obj) : ObjId × Heap :=
  (⟨h.objects.size⟩, { h with objects := h.objects.push o })

/-- A new string. -/
def addText (h : Heap) (s : String) : Value × Heap :=
  let (o, h) := h.addObject (.text s)
  (.obj o, h)

/-- The heap with a word replaced. -/
def setWord (h : Heap) (w : WordId) (x : Word) : Heap :=
  { h with words := h.words.setIfInBounds w.index x }

/-- The heap with an object replaced. -/
def setObject (h : Heap) (o : ObjId) (x : Obj) : Heap :=
  { h with objects := h.objects.setIfInBounds o.index x }

/-- The heap with a word changed by an operation that may fail. -/
def changeWord (h : Heap) (w : WordId) (f : Word → Except Error Word) : Except Error Heap :=
  match f (h.word w) with
  | .ok x => .ok (h.setWord w x)
  | .error e => .error e

/-- The heap with a flag of a word changed. -/
def updateWord (h : Heap) (w : WordId) (f : Word → Word) : Heap :=
  h.setWord w (f (h.word w))

/-- The type of a value. -/
def typeOf (h : Heap) : Value → TypeId
  | .char _ => .char
  | .int _ => .int
  | .float _ => .float
  | .bool _ => .bool
  | .type _ => .type
  | .xt _ => .xt
  | .ptr p => p.type
  | .obj o => (h.object o).type
  | .binop _ => .binop

/-- The type of what a slot holds. -/
def slotType (h : Heap) (w : WordId) (index : Nat) : TypeId :=
  match (h.word w).body[index]? with
  | some (.lit v) => h.typeOf v
  | some _ => .xt
  | none => .invalid

/-- The text of a string object. -/
def text? (h : Heap) : Value → Option String
  | .obj o =>
    match h.object o with
    | .text s => some s
    | _ => none
  | _ => none

end Heap
end ThreadedForth
