/-
  The functions of objects.

  A function of an object takes its operands from the data stack and leaves
  its results there.  Strings are sequences of bytes, arrays and records
  sequences of values.  Operands are taken before they are looked at, so that
  an error leaves the stack without them.

  * `Obj.implements`: which functions an object has;
  * `Store.invoke`: the functions.
-/
import ThreadedForth.Heap.Display
import ThreadedForth.Stack

namespace ThreadedForth

/-- Whether an object has a function. -/
def Obj.implements : Obj → Function → Bool
  | .text _, f | .array _ _, f => !([.close, .read, .readLine, .readChar, .eof].contains f)
  | .record _ _ _ _, f =>
    [.size, .hash, .get, .set, .contains, .indexOf, .deconstruct, .implements].contains f

/-- The name of an object's type in the error that it has no such function. -/
def Obj.typeLabel : Obj → String
  | .text _ => "string"
  | .array _ _ => "array"
  | .record _ d _ _ => d.name

/-- A position in a sequence. -/
def checkIndex (index : Int64) (length : Nat) : Except Error Nat :=
  if 0 ≤ index.toInt ∧ index.toInt < length then .ok index.toInt.toNat
  else .error (.indexOutOfRange index.toInt length)

/-- A number, but none above the largest integer of 64 bits. -/
def clamp (n : Int) : Int :=
  if n ≤ Int64.maxValue.toInt then n else Int64.maxValue.toInt

/-- The positions from `start` on, `count` of them, as the first position and the one after the
    last. -/
def checkRange (start count : Int64) (length : Nat) : Except Error (Nat × Nat) :=
  if ¬(0 ≤ start.toInt ∧ start.toInt ≤ length) then .error (.indexOutOfRange start.toInt length)
  else if ¬(0 ≤ count.toInt ∧ start.toInt + count.toInt ≤ length) then
    .error (.indexOutOfRange (clamp (start.toInt + count.toInt)) length)
  else .ok (start.toInt.toNat, (start.toInt + count.toInt).toNat)

/-- Equality of the values of a sequence: strings by their texts, all else as values. -/
def Heap.sameContent (h : Heap) (a b : Value) : Bool :=
  match h.text? a, h.text? b with
  | some s, some t => s == t
  | _, _ => a.same b

/-- The text that a string is searched for. -/
def Heap.needle (h : Heap) : Value → Except Error String
  | .char c => .ok (String.singleton (byteChar c))
  | v =>
    match h.text? v with
    | some s => .ok s
    | none => .error (.typeMismatch (.searchString v.kind))

/-- The ASCII character that a value stores in a string. -/
def storedChar : Value → Except Error Char
  | .char c => if c < 128 then .ok (byteChar c) else .error (.typeMismatch (.storeInString .char))
  | .int n =>
    if 0 ≤ n.toInt ∧ n.toInt < 128 then .ok (Char.ofNat n.toInt.toNat)
    else .error (.typeMismatch (.storeInString .int))
  | v => .error (.typeMismatch (.storeInString v.kind))

/-- The hash of an object by its address, of which the least byte comes first. -/
def identityHash (address : UInt64) : Int64 :=
  Int64.ofNat (hashBytes ((List.range 8).map fun i => UInt8.ofNat (address.toNat >>> (8 * i)))).toNat

/-- The part of a machine that the functions of objects work on. -/
structure Store where
  /-- The heap. -/
  heap : Heap
  /-- The data stack. -/
  data : Stack Value

/-- Steps on a store that may fail. -/
abbrev StoreM := EStateM Error Store

namespace Store

/-- The top of the data stack, which is taken off. -/
def pop : StoreM Value := fun s =>
  match s.data.pop with
  | .ok (v, data) => .ok v { s with data }
  | .error e => .error e s

/-- Puts a value on the data stack. -/
def push (v : Value) : StoreM Unit := fun s =>
  match s.data.push v with
  | .ok data => .ok () { s with data }
  | .error e => .error e s

/-- The result of a computation that changes nothing. -/
def lift {α : Type} (r : Except Error α) : StoreM α := fun s =>
  match r with
  | .ok a => .ok a s
  | .error e => .error e s

/-- The integer on top of the data stack. -/
def popInt : StoreM Int64 := do
  lift (← pop).toInt

/-- Replaces an object. -/
def replace (o : ObjId) (x : Obj) : StoreM Unit :=
  modify fun s => { s with heap := s.heap.setObject o x }

/-- Puts values on the data stack one after the other. -/
def pushAll : List Value → StoreM Unit
  | [] => pure ()
  | v :: vs => do push v; pushAll vs

/-- Puts a new object on the data stack. -/
def pushNew (x : Obj) : StoreM Unit := do
  let (o, heap) := (← get).heap.addObject x
  modify fun s => { s with heap }
  push (.obj o)

/-- The functions of the string `text`. -/
def invokeText (o : ObjId) (text : String) : Function → StoreM Unit
  | .size => push (.nat text.utf8ByteSize)
  | .hash => push (.nat (hashBytes (Utf8.bytes text)).toNat)
  | .get => do
    let i ← lift (checkIndex (← popInt) text.utf8ByteSize)
    push (.char ((Utf8.bytes text)[i]?.getD 0))
  | .set => do
    let index ← popInt
    let c ← lift (storedChar (← pop))
    let i ← lift (checkIndex index text.utf8ByteSize)
    match Utf8.splice? i (i + 1) [c] text.toList with
    | some cs => replace o (.text (String.ofList cs))
    | none => throw (.nativeFault .splitCharacter)
  | .contains => do
    let v ← pop
    let needle ← lift ((← get).heap.needle v)
    push (.bool (Utf8.offsetOf? needle.toList text.toList).isSome)
  | .indexOf => do
    let v ← pop
    let needle ← lift ((← get).heap.needle v)
    match Utf8.offsetOf? needle.toList text.toList with
    | some i => push (.nat i)
    | none => push (.int (-1))
  | .subRange => do
    let count ← popInt
    let start ← popInt
    let (i, j) ← lift (checkRange start count text.utf8ByteSize)
    match Utf8.slice? i j text.toList with
    | some cs => pushNew (.text (String.ofList cs))
    | none => throw (.nativeFault .splitCharacter)
  | .deconstruct => do
    pushAll ((Utf8.bytes text).map .char)
    push (.nat text.utf8ByteSize)
  | .append => do
    let v ← pop
    replace o (.text (text ++ (← get).heap.display v))
  | .implements => do
    let f? := Function.ofIndex? (← popInt)
    push (.bool ((f?.map (Obj.text text).implements).getD false))
  | f => throw (.unsupportedFunction f "string")

/-- The functions that arrays and records share, on the values `items` of the object `x`. -/
def invokeItems (address : UInt64) (o : ObjId) (x : Obj) (items : Array Value) : Function → StoreM Unit
  | .size => push (.nat items.size)
  | .hash => push (.int (identityHash address))
  | .get => do
    let i ← lift (checkIndex (← popInt) items.size)
    push (items[i]?.getD default)
  | .set => do
    let index ← popInt
    let v ← pop
    let i ← lift (checkIndex index items.size)
    replace o (x.setItems (items.setIfInBounds i v))
  | .contains => do
    let v ← pop
    let h := (← get).heap
    push (.bool (items.any fun w => h.sameContent w v))
  | .indexOf => do
    let v ← pop
    let h := (← get).heap
    match items.toList.findIdx? fun w => h.sameContent w v with
    | some i => push (.nat i)
    | none => push (.int (-1))
  | .deconstruct => do
    pushAll items.toList
    push (.nat items.size)
  | .implements => do
    let f? := Function.ofIndex? (← popInt)
    push (.bool ((f?.map x.implements).getD false))
  | f => throw (.unsupportedFunction f x.typeLabel)

/-- The functions of arrays: those of all sequences of values, and two of their own. -/
def invokeArray (address : UInt64) (o : ObjId) (x : Obj) (items : Array Value) :
    Function → StoreM Unit
  | .subRange => do
    let count ← popInt
    let start ← popInt
    let (i, j) ← lift (checkRange start count items.size)
    pushNew (.ofItems (items.extract i j))
  | .append => do
    let v ← pop
    replace o (x.setItems (items.push v))
  | f => invokeItems address o x items f

/-- Runs a function of the object `o`, which is at the given address. -/
def invoke (address : UInt64) (o : ObjId) (f : Function) : StoreM Unit := do
  match (← get).heap.object o with
  | .text s => invokeText o s f
  | .array items v => invokeArray address o (.array items v) items f
  | .record t d items v => invokeItems address o (.record t d items v) items f

end Store
end ThreadedForth
