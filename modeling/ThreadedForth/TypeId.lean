/-
  Type identifiers.

  A type identifier is a base type and a number of pointer levels, sixteen
  bits each.  The base types fall into three ranges: value types from 0,
  object types of the library and its host from 1024, and types that programs
  declare from 32768.  The base 1023 belongs to no type.
-/
import ThreadedForth.Error

namespace ThreadedForth

/-- A base type and a number of pointer levels. -/
structure TypeId where
  /-- The base type. -/
  base : UInt16
  /-- The number of pointer levels. -/
  indirection : UInt16
deriving DecidableEq, Repr, Inhabited

namespace TypeId

def char : TypeId := ⟨0, 0⟩
def int : TypeId := ⟨1, 0⟩
def float : TypeId := ⟨2, 0⟩
def bool : TypeId := ⟨3, 0⟩
def type : TypeId := ⟨4, 0⟩
def xt : TypeId := ⟨5, 0⟩
def binop : TypeId := ⟨6, 0⟩
def invalid : TypeId := ⟨1023, 0⟩
def string : TypeId := ⟨1024, 0⟩
def array : TypeId := ⟨1025, 0⟩

/-- The first base of the object types. -/
def objectMin : Nat := 1024

/-- The first base of the declared types. -/
def userMin : Nat := 32768

/-- How many value types there can be. -/
def valueRoom : Nat := 1023

/-- How many object types there can be. -/
def objectRoom : Nat := 31744

/-- How many declared types there can be. -/
def userRoom : Nat := 32768

/-- Both halves in one number, the base in the high one. -/
def raw (t : TypeId) : UInt32 :=
  (t.base.toUInt32 <<< 16) ||| t.indirection.toUInt32

/-- The base type alone. -/
def baseType (t : TypeId) : TypeId :=
  ⟨t.base, 0⟩

/-- Whether values of the type are pointers. -/
def isPointer (t : TypeId) : Bool :=
  0 < t.indirection

/-- The type of the pointers to values of a type, while the levels can be counted. -/
def pointerTo (t : TypeId) : Except Error TypeId :=
  if t.indirection.toNat + 1 < UInt16.size then .ok ⟨t.base, t.indirection + 1⟩
  else .error .typeSpaceExhausted

/-- The halves of the identifier in text. -/
def halves (t : TypeId) : String :=
  toString t.base.toNat ++ "^" ++ toString t.indirection.toNat

/-- The identifier in text, for types without a name. -/
def describe (t : TypeId) : String :=
  "TypeId(" ++ t.halves ++ ")"

end TypeId
end ThreadedForth
