/-
  Errors and their messages.

  An error is a cause; `Error.message` is the one place where causes are put
  into words.
-/
import ThreadedForth.Operator

namespace ThreadedForth

/-- The stacks of a machine. -/
inductive StackKind where
  | data | «return» | temp | self
deriving DecidableEq, Repr, Inhabited

/-- The name of a stack. -/
def StackKind.label : StackKind → String
  | data => "data"
  | «return» => "return"
  | temp => "temp"
  | self => "self"

/-- What an operand was expected to be. -/
inductive Expectation where
  | int | number | flag | xt | object | type | binop
deriving DecidableEq, Repr

/-- The expected operand with its article. -/
def Expectation.label : Expectation → String
  | int => "an int"
  | number => "a number"
  | flag => "a flag"
  | xt => "an xt"
  | object => "an object"
  | type => "a type"
  | binop => "a binop"

/-- Why values do not fit an operation. -/
inductive Mismatch where
  /-- An operand of the kind `got` stands where another was expected. -/
  | expected (what : Expectation) (got : Kind)
  /-- A value that is no ASCII character is stored in a string. -/
  | storeInString (got : Kind)
  /-- A string is searched for something that is neither a character nor a string. -/
  | searchString (got : Kind)
  /-- A string is ordered against something else. -/
  | compareString (got : Kind)
  /-- Strings do not have the operator. -/
  | stringOperator (op : Operator)
  /-- Floats do not have the operator. -/
  | floatOperator (op : Operator)
  /-- No rule applies the operator to operands of these kinds. -/
  | operands (left : Kind) (op : Operator) (right : Kind)
  /-- A handler is given to the value type of this name. -/
  | valueTypeHandler (name : String)
deriving DecidableEq, Repr

/-- The mismatch in words. -/
def Mismatch.message : Mismatch → String
  | expected what got => "expected " ++ what.label ++ ", got " ++ got.label
  | storeInString got => "can't store a " ++ got.label ++ " in a string"
  | searchString got => "can't search a string for a " ++ got.label
  | compareString got => "can't compare a string with " ++ got.label
  | stringOperator op => "unsupported operation '" ++ op.symbol ++ "' on strings"
  | floatOperator op => "'" ++ op.symbol ++ "' is not defined for floats"
  | operands left op right =>
    "unsupported operation on these types: " ++ left.label ++ " " ++ op.symbol ++ " " ++ right.label
  | valueTypeHandler name => "'" ++ name ++ "' is a value type and cannot have binary operations"

/-- Why a word cannot run in the present state of compilation. -/
inductive CompileFault where
  /-- The word belongs inside a definition. -/
  | onlyInDefinition (word : String)
  /-- A definition is open already. -/
  | nested
  /-- No definition is open. -/
  | noneOpen
  /-- No word has been created, or the last one is gone. -/
  | noneCreated
  /-- The definition ends with fewer values on the data stack than it started with. -/
  | consumed (count : Nat)
  /-- The definition ends with more values on the data stack than it started with. -/
  | left (count : Nat)
  /-- A number stands where a word is needed. -/
  | expectedWord (token : String)
  /-- A pending word cannot be `does>`. -/
  | pendingDoes
  /-- The fields of a struct do not end on the line. -/
  | structOpen (name : String)
deriving DecidableEq, Repr

/-- The compile fault in words. -/
def CompileFault.message : CompileFault → String
  | onlyInDefinition word => "'" ++ word ++ "' is only valid inside a definition"
  | nested => "definitions can't be nested"
  | noneOpen => "no word is being defined"
  | noneCreated => "no word has been created"
  | consumed n => "definition consumed " ++ toString n ++ " values from the data stack"
  | left n => "definition left " ++ toString n ++ " values on the data stack"
  | expectedWord token => "expected a word, got '" ++ token ++ "'"
  | pendingDoes => "does> can't be postponed here"
  | structOpen name => "struct '" ++ name ++ "' is missing ;struct"

/-- Why an object cannot be constructed. -/
inductive ConstructionFault where
  /-- An array cannot have a negative size. -/
  | negativeSize (n : Int)
  /-- A pointer type has no objects. -/
  | pointerType (name : String)
  /-- A value type has no objects. -/
  | valueType (name : String)
  /-- The host refuses. -/
  | refused (reason : String)
deriving DecidableEq, Repr

/-- The construction fault in words. -/
def ConstructionFault.message : ConstructionFault → String
  | negativeSize n => "array of negative size " ++ toString n
  | pointerType name => "'" ++ name ++ "' is a pointer type"
  | valueType name => "'" ++ name ++ "' is a value type"
  | refused reason => reason

/-- How control words fail to match. -/
inductive ControlFault where
  | elseWithoutIf | thenWithoutIf | untilWithoutBegin | againWithoutBegin | whileWithoutBegin
  | repeatWithoutWhile | repeatWithoutBegin | loopWithoutDo | plusLoopWithoutDo | unterminated
deriving DecidableEq, Repr

/-- The control fault in words. -/
def ControlFault.message : ControlFault → String
  | elseWithoutIf => "else without if"
  | thenWithoutIf => "then without if"
  | untilWithoutBegin => "until without begin"
  | againWithoutBegin => "again without begin"
  | whileWithoutBegin => "while without begin"
  | repeatWithoutWhile => "repeat without while"
  | repeatWithoutBegin => "repeat without begin"
  | loopWithoutDo => "loop without do"
  | plusLoopWithoutDo => "+loop without do"
  | unterminated => "unterminated control structure"

/-- Faults of native words that are not errors of the program they run in. -/
inductive NativeFault where
  /-- More slots are asked for than can exist. -/
  | allocation
  /-- A text is cut inside a character. -/
  | splitCharacter
  /-- A host word raised a fault with a text. -/
  | raised (text : String)
  /-- A host word raised a fault without a text. -/
  | unknown
deriving DecidableEq, Repr

/-- The native fault in words. -/
def NativeFault.message : NativeFault → String
  | allocation => "capacity overflow"
  | splitCharacter => "cut inside a character"
  | raised text => text
  | unknown => "unknown panic"

/-- The causes for which a word, a line or a call of the library fails. -/
inductive Error where
  | stackEmpty (stack : StackKind)
  | stackFull (stack : StackKind)
  | overwriteInvalid (stack : StackKind)
  | outputFull
  | outputFormat
  | lineTooLong
  | lineNotAscii
  | unterminated
  | typeMismatch (cause : Mismatch)
  | unknownWord (name : String)
  | compileState (cause : CompileFault)
  | indexOutOfRange (index : Int) (length : Nat)
  | divideByZero
  | construction (cause : ConstructionFault)
  | nativeFault (cause : NativeFault)
  | notAPointer
  | pointerCycle
  | badWordOffset (word : String) (index : Nat)
  | notExecutable (word : String) (ip : Nat)
  | misplacedDirectCall
  | controlMismatch (cause : ControlFault)
  | missingName (word : String)
  | badStringLiteral
  | typeRedefined (name : String)
  | typeSpaceExhausted
  | unknownType (name : String)
  | unsupportedFunction (function : Function) (type : String)
  | handlerContract
  | cantForgetBuiltin (name : String)
  | callStackCorrupted
  | interrupted
deriving DecidableEq, Repr

/-- The error in words. -/
def Error.message : Error → String
  | stackEmpty s => s.label ++ " stack underflow"
  | stackFull s => s.label ++ " stack overflow"
  | overwriteInvalid s => "invalid " ++ s.label ++ " stack overwrite"
  | outputFull => "output buffer full"
  | outputFormat => "output formatting failed"
  | lineTooLong => "input line too long"
  | lineNotAscii => "input must be ascii"
  | unterminated => "unterminated literal"
  | typeMismatch cause => "type mismatch: " ++ cause.message
  | unknownWord name => "unknown word '" ++ name ++ "'"
  | compileState cause => "wrong compile state: " ++ cause.message
  | indexOutOfRange index length =>
    "index " ++ toString index ++ " out of range for length " ++ toString length
  | divideByZero => "divide by zero"
  | construction cause => "can't construct object: " ++ cause.message
  | nativeFault cause => "native fault: " ++ cause.message
  | notAPointer => "not a pointer"
  | pointerCycle => "pointer chain loops back on itself"
  | badWordOffset word index => "offset " ++ toString index ++ " is not valid in word '" ++ word ++ "'"
  | notExecutable word ip => "element " ++ toString ip ++ " of word '" ++ word ++ "' is not executable"
  | misplacedDirectCall => "direct calls are only valid as the first element of a word"
  | controlMismatch cause => "control structure mismatch: " ++ cause.message
  | missingName word => "'" ++ word ++ "' expects a name"
  | badStringLiteral => "bad string literal"
  | typeRedefined name => "type '" ++ name ++ "' is already defined"
  | typeSpaceExhausted => "no more type ids available"
  | unknownType name => "unknown type " ++ name
  | unsupportedFunction function type => "'" ++ type ++ "' does not support " ++ function.label
  | handlerContract => "binary operation handler broke the stack contract"
  | cantForgetBuiltin name => "can't forget builtin '" ++ name ++ "'"
  | callStackCorrupted => "call stack corrupted"
  | interrupted => "interrupted"

end ThreadedForth
