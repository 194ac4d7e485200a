/-
  Words for objects and types.
-/
import ThreadedForth.Machine

namespace ThreadedForth
namespace ObjectWord

/-- Makes an object of the type `t`. -/
def make (t : TypeId) : Maker → M Unit
  | .string => M.pushNew (.text "")
  | .array => do
    let n ← M.popInt
    if n < 0 then throw (.construction (.negativeSize n.toInt))
    if slotLimit < n.toInt.toNat then throw (.nativeFault .allocation)
    M.pushNew (.ofItems (Array.replicate n.toInt.toNat (.int 0)))
  | .host false => do M.pushNew (.text ((← get).types.nameOf t))
  | .host true => throw (.construction (.refused "host says no"))

/-- Takes a type off the data stack and makes an object of it. -/
def makeObject : M Unit := do
  let t ← M.lift (← M.pop).toType
  let types := (← get).types
  let name := types.nameOf t
  if t.isPointer then throw (.construction (.pointerType name))
  match types.get? t with
  | none => throw (.unknownType name)
  | some e =>
    match e.sort with
    | .value => throw (.construction (.valueType name))
    | .object maker _ => make t maker
    | .user d _ => M.pushNew (.ofDeclaration t d)

/-- Takes an object off the data stack and runs a function of it. -/
def call (f : Function) : M Unit := do
  let o ← M.lift (← M.pop).toObject
  let m ← get
  let x := m.heap.object o
  if x.implements f then M.onStore (Store.invoke (m.addresses o) o f)
  else throw (.unsupportedFunction f (m.types.nameOf x.type))

/-- The names up to the token that ends a struct; there is none at the end of the line. -/
def nextFields : Nat → M (Option (List String))
  | 0 => pure none
  | fuel + 1 => do
    match ← M.nextToken with
    | none => pure none
    | some ";struct" => pure (some [])
    | some field => do pure ((← nextFields fuel).map (field :: ·))

/-- Defines a constant for each field of a struct, from the position `i` on. -/
def defineFields (name : String) : Nat → List String → M Unit
  | _, [] => pure ()
  | i, field :: rest => do
    let _ ← M.defineConstant (name ++ "." ++ field) (.nat i)
    defineFields name (i + 1) rest

/-- Declares a type with the fields that follow on the line, and words for it and its fields. -/
def declare : M Unit := do
  let name ← M.nextName "struct:"
  match ← nextFields ((← get).line.text.length + 1) with
  | none => throw (.compileState (.structOpen name))
  | some fields =>
    let t ← M.onTypes fun types => types.addUser ⟨name, fields⟩
    let _ ← M.defineConstant name (.type t)
    defineFields name 0 fields

/-- What the word does. -/
def run : ObjectWord → M Unit
  | new => makeObject
  | typeOf => do
    let v ← M.pop
    M.push (.type ((← get).heap.typeOf v))
  | invoke f => call f
  | struct => declare
  | setHandler => do
    let t ← M.lift (← M.pop).toType
    let w ← M.popWord
    M.onTypes fun types => types.setHandler t (.word w)
  | refcount => do
    let v ← M.peek 0
    let m ← get
    M.push (.nat ((m.heap.liveCount? m.roots v).getD 0))

end ObjectWord
end ThreadedForth
