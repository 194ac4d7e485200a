/-
  Values.

  Values are tagged.  Words and objects live on a heap and are referred to by
  the order of their allocation; a pointer refers to a data slot of a word and
  carries the type that the slot had when the pointer was made.

  * `Value.same`: equality as the language has it, of floats by their numbers
    and of words, slots and objects by identity;
  * `Value.toInt`, `Value.toFloat`, ...: the readings of a value as an operand.
-/
import ThreadedForth.TypeId

namespace ThreadedForth

/-- A word on the heap. -/
structure WordId where
  /-- The order of its allocation. -/
  index : Nat
deriving DecidableEq, Repr, Inhabited

/-- An object on the heap. -/
structure ObjId where
  /-- The order of its allocation. -/
  index : Nat
deriving DecidableEq, Repr, Inhabited

/-- A pointer to a slot of a word's body. -/
structure Pointer where
  /-- The word that owns the slot. -/
  target : WordId
  /-- The position of the slot. -/
  index : Nat
  /-- The type of the pointer, from what the slot held when it was made. -/
  type : TypeId
deriving DecidableEq, Repr

/-- A value of the language. -/
inductive Value where
  | char (c : UInt8)
  | int (n : Int64)
  | float (x : Float)
  | bool (b : Bool)
  | type (t : TypeId)
  /-- An execution token: a word to be run. -/
  | xt (w : WordId)
  | ptr (p : Pointer)
  | obj (o : ObjId)
  | binop (op : Operator)
deriving DecidableEq, Repr

namespace Value

instance : Inhabited Value := ⟨int 0⟩

/-- The integer one of a natural number, as counts and addresses are pushed. -/
def nat (n : Nat) : Value :=
  int (Int64.ofNat n)

/-- The kind of a value. -/
def kind : Value → Kind
  | char _ => .char
  | int _ => .int
  | float _ => .float
  | bool _ => .bool
  | type _ => .type
  | xt _ => .xt
  | ptr _ => .pointer
  | obj _ => .object
  | binop _ => .binop

/-- Whether the value refers to the heap. -/
def isCounted : Value → Bool
  | xt _ | ptr _ | obj _ => true
  | _ => false

/-- Whether the value can be read as an integer. -/
def isIntLike : Value → Bool
  | int _ | char _ | bool _ => true
  | _ => false

/-- Whether the value can be read as a float. -/
def isNumber : Value → Bool
  | float _ => true
  | v => v.isIntLike

/-- The error that a value of another kind was expected. -/
def mismatch (v : Value) (what : Expectation) : Error :=
  .typeMismatch (.expected what v.kind)

/-- The value as an integer: characters are their codes, true is one. -/
def toInt : Value → Except Error Int64
  | int n => .ok n
  | char c => .ok (Int64.ofNat c.toNat)
  | bool b => .ok (if b then 1 else 0)
  | v => .error (v.mismatch .int)

/-- The value as a float. -/
def toFloat : Value → Except Error Float
  | float x => .ok x
  | v =>
    match v.toInt with
    | .ok n => .ok n.toFloat
    | .error _ => .error (v.mismatch .number)

/-- The value as a flag: anything but zero is true. -/
def toFlag : Value → Except Error Bool
  | bool b => .ok b
  | int n => .ok (n != 0)
  | char c => .ok (c != 0)
  | v => .error (v.mismatch .flag)

/-- The word of an execution token. -/
def toWord : Value → Except Error WordId
  | xt w => .ok w
  | v => .error (v.mismatch .xt)

/-- The object that a value is. -/
def toObject : Value → Except Error ObjId
  | obj o => .ok o
  | v => .error (v.mismatch .object)

/-- The type that a value is. -/
def toType : Value → Except Error TypeId
  | type t => .ok t
  | v => .error (v.mismatch .type)

/-- The operator that a value is. -/
def toOperator : Value → Except Error Operator
  | binop op => .ok op
  | v => .error (v.mismatch .binop)

/-- The pointer that a value is. -/
def toPointer : Value → Except Error Pointer
  | ptr p => .ok p
  | _ => .error .notAPointer

/-- Equality of values of one kind; values of different kinds differ. -/
def same : Value → Value → Bool
  | char a, char b => a == b
  | int a, int b => a == b
  | float a, float b => a == b
  | bool a, bool b => a == b
  | type a, type b => a == b
  | xt a, xt b => a == b
  | ptr a, ptr b => a.target == b.target && a.index == b.index
  | obj a, obj b => a == b
  | binop a, binop b => a == b
  | _, _ => false

end Value
end ThreadedForth
