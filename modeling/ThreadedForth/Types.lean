/-
  The registry of types.

  Each of the three ranges of base types is filled from its start, and an
  index gives the type of a name.  Names are compared without regard to case.
  Object types and declared types may have a handler, which applies the binary
  operators to their objects.
-/
import ThreadedForth.Heap
import ThreadedForth.NameIndex

namespace ThreadedForth

/-- How a host handles operators. -/
inductive HostHandler where
  /-- Take the three operands and push 42. -/
  | const
  /-- The same, and ask to leave the calling word. -/
  | exit
  /-- Have the word named `handler` called. -/
  | call
  /-- Take one operand only, against the rules. -/
  | broken
deriving DecidableEq, Repr

/-- What applies operators to the objects of a type. -/
inductive Handler where
  /-- The operators of strings. -/
  | strings
  /-- The host. -/
  | host (h : HostHandler)
  /-- A word of the program. -/
  | word (w : WordId)
deriving DecidableEq, Repr

/-- What makes a new object of a type. -/
inductive Maker where
  /-- An empty string. -/
  | string
  /-- An array of a size taken from the data stack. -/
  | array
  /-- The host, which makes a string of the type's name or refuses. -/
  | host (refuses : Bool)
deriving DecidableEq, Repr

/-- The three sorts of types. -/
inductive TypeSort where
  | value
  | object (maker : Maker) (handler : Option Handler)
  | user (declaration : Declaration) (handler : Option Handler)
deriving DecidableEq, Repr

/-- A registered type. -/
structure TypeEntry where
  /-- The name, its case folded. -/
  name : String
  /-- The sort. -/
  sort : TypeSort
deriving DecidableEq, Repr

namespace TypeEntry

/-- The handler of a type. -/
def handler? (e : TypeEntry) : Option Handler :=
  match e.sort with
  | .value => none
  | .object _ h | .user _ h => h

/-- The type with a new handler. -/
def setHandler (e : TypeEntry) (h : Handler) : Except Error TypeEntry :=
  match e.sort with
  | .value => .error (.typeMismatch (.valueTypeHandler e.name))
  | .object m _ => .ok { e with sort := .object m (some h) }
  | .user d _ => .ok { e with sort := .user d (some h) }

end TypeEntry

/-- The registered types. -/
structure Types where
  /-- The value types. -/
  values : Array TypeEntry := #[]
  /-- The object types. -/
  objects : Array TypeEntry := #[]
  /-- The declared types. -/
  users : Array TypeEntry := #[]
  /-- The types by name. -/
  index : NameIndex TypeId := .empty
deriving DecidableEq

namespace Types

instance : Inhabited Types := ⟨{}⟩

/-- The type of a name. -/
def find? (t : Types) (name : String) : Option TypeId :=
  t.index.find? (.ofString name)

/-- The type with a base type. -/
def get? (t : Types) (id : TypeId) : Option TypeEntry :=
  let b := id.base.toNat
  if b < TypeId.objectMin then t.values[b]?
  else if b < TypeId.userMin then t.objects[b - TypeId.objectMin]?
  else t.users[b - TypeId.userMin]?

/-- How many types there are. -/
def size (t : Types) : Nat :=
  t.values.size + t.objects.size + t.users.size

/-- Whether a name is free for a new type in a range with `used` of `room` places taken. -/
def checkFree (t : Types) (name : String) (used room : Nat) : Except Error Unit :=
  if (t.find? name).isSome then .error (.typeRedefined name)
  else if used < room then .ok ()
  else .error .typeSpaceExhausted

/-- The type identifier of the place `n` of the range that starts at `first`. -/
def place (first n : Nat) : TypeId :=
  ⟨UInt16.ofNat (first + n), 0⟩

/-- Registers a value type.  The registry stays as it is if there is an error. -/
def addValue (t : Types) (name : String) : Except Error TypeId × Types :=
  match t.checkFree name t.values.size TypeId.valueRoom with
  | .error e => (.error e, t)
  | .ok _ =>
    let id := place 0 t.values.size
    (.ok id, { t with
      values := t.values.push ⟨foldCase name, .value⟩
      index := t.index.insert (.ofString name) id })

/-- Registers an object type. -/
def addObject (t : Types) (name : String) (maker : Maker) (handler : Option Handler) :
    Except Error TypeId × Types :=
  match t.checkFree name t.objects.size TypeId.objectRoom with
  | .error e => (.error e, t)
  | .ok _ =>
    let id := place TypeId.objectMin t.objects.size
    (.ok id, { t with
      objects := t.objects.push ⟨foldCase name, .object maker handler⟩
      index := t.index.insert (.ofString name) id })

/-- Registers a declared type. -/
def addUser (t : Types) (d : Declaration) : Except Error TypeId × Types :=
  match t.checkFree d.name t.users.size TypeId.userRoom with
  | .error e => (.error e, t)
  | .ok _ =>
    let id := place TypeId.userMin t.users.size
    (.ok id, { t with
      users := t.users.push ⟨foldCase d.name, .user d none⟩
      index := t.index.insert (.ofString d.name) id })

/-- The registry with the entry of a base type replaced. -/
def setEntry (t : Types) (id : TypeId) (e : TypeEntry) : Types :=
  let b := id.base.toNat
  if b < TypeId.objectMin then { t with values := t.values.setIfInBounds b e }
  else if b < TypeId.userMin then
    { t with objects := t.objects.setIfInBounds (b - TypeId.objectMin) e }
  else { t with users := t.users.setIfInBounds (b - TypeId.userMin) e }

/-- Gives a handler to a type. -/
def setHandler (t : Types) (id : TypeId) (h : Handler) : Except Error Unit × Types :=
  match t.get? id with
  | none => (.error (.unknownType id.describe), t)
  | some e =>
    match e.setHandler h with
    | .error err => (.error err, t)
    | .ok e => (.ok (), t.setEntry id e)

/-- The handler of a type. -/
def handler? (t : Types) (id : TypeId) : Option Handler :=
  (t.get? id).bind TypeEntry.handler?

/-- The name of a type, with a star for each pointer level. -/
def nameOf (t : Types) (id : TypeId) : String :=
  let base :=
    match t.get? id with
    | some e => e.name
    | none => "<type " ++ toString id.base.toNat ++ ">"
  base ++ String.ofList (List.replicate id.indirection.toNat '*')

/-- The words that handle operators. -/
def handlerWords (t : Types) : List WordId :=
  (t.objects.toList ++ t.users.toList).filterMap fun e =>
    match e.handler? with
    | some (.word w) => some w
    | _ => none

/-- The names of the value types that every machine has. -/
def basicNames : List String :=
  ["char", "int", "float", "bool", "type", "xt", "binop"]

/-- A registry of value types with the given names, as far as they are distinct. -/
def ofValueNames (names : List String) : Types :=
  names.foldl (fun t name => (t.addValue name).2) {}

/-- The registry with the value types that every machine has. -/
def basic : Types :=
  ofValueNames basicNames

end Types
end ThreadedForth
