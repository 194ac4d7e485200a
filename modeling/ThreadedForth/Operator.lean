/-
  The closed vocabularies of the language.

  * `Operator`: the binary operators, which are also values that a handler of
    an object type is called with;
  * `Function`: the functions that an object may have;
  * `Kind`: the kinds of values, as error messages name them.
-/
namespace ThreadedForth

/-- A binary operator. -/
inductive Operator where
  | add | sub | mul | div | mod | eq | ne | lt | gt | le | ge | and | or | xor
deriving DecidableEq, Repr, Inhabited

namespace Operator

/-- Every operator. -/
def all : List Operator :=
  [add, sub, mul, div, mod, eq, ne, lt, gt, le, ge, and, or, xor]

/-- The word that applies the operator. -/
def symbol : Operator → String
  | add => "+"
  | sub => "-"
  | mul => "*"
  | div => "/"
  | mod => "mod"
  | eq => "="
  | ne => "<>"
  | lt => "<"
  | gt => ">"
  | le => "<="
  | ge => ">="
  | and => "and"
  | or => "or"
  | xor => "xor"

/-- The word that pushes the operator itself. -/
def constantName : Operator → String
  | add => "op.add"
  | sub => "op.sub"
  | mul => "op.mul"
  | div => "op.div"
  | mod => "op.mod"
  | eq => "op.eq"
  | ne => "op.ne"
  | lt => "op.lt"
  | gt => "op.gt"
  | le => "op.le"
  | ge => "op.ge"
  | and => "op.and"
  | or => "op.or"
  | xor => "op.xor"

/-- Whether the operator compares its operands. -/
def isComparison : Operator → Bool
  | eq | ne | lt | gt | le | ge => true
  | _ => false

end Operator

/-- A function that an object may have. -/
inductive Function where
  | size | hash | get | set | contains | indexOf | subRange | deconstruct | append | implements
  | close | read | readLine | readChar | eof
deriving DecidableEq, Repr, Inhabited

namespace Function

/-- Every function, in the order of the numbers that `implements?` takes. -/
def all : List Function :=
  [size, hash, get, set, contains, indexOf, subRange, deconstruct, append, implements, close, read,
    readLine, readChar, eof]

/-- The name of the function in error messages. -/
def label : Function → String
  | size => "Size"
  | hash => "Hash"
  | get => "Get"
  | set => "Set"
  | contains => "Contains"
  | indexOf => "IndexOf"
  | subRange => "SubRange"
  | deconstruct => "Deconstruct"
  | append => "Append"
  | implements => "Implements"
  | close => "Close"
  | read => "Read"
  | readLine => "ReadLine"
  | readChar => "ReadChar"
  | eof => "Eof"

/-- The function with a number. -/
def ofIndex? (n : Int64) : Option Function :=
  if 0 ≤ n.toInt then all[n.toInt.toNat]? else none

end Function

/-- The kind of a value. -/
inductive Kind where
  | char | int | float | bool | type | xt | pointer | object | binop
deriving DecidableEq, Repr

/-- The name of the kind in error messages. -/
def Kind.label : Kind → String
  | char => "char"
  | int => "int"
  | float => "float"
  | bool => "bool"
  | type => "type"
  | xt => "xt"
  | pointer => "pointer"
  | object => "object"
  | binop => "binop"

end ThreadedForth
