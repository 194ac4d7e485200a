/-
  The names of the primitive words.
-/
import ThreadedForth.Primitive

namespace ThreadedForth

/-- A primitive word with its name. -/
structure Builtin where
  /-- The name. -/
  name : String
  /-- The primitive. -/
  word : Primitive
  /-- Whether the word runs even while a definition is open. -/
  immediate : Bool := false
deriving DecidableEq, Repr

namespace Builtin

/-- Words that move values on the stacks. -/
def stackWords : List Builtin :=
  [⟨"dup", .stack .dup, false⟩,
   ⟨"drop", .stack .drop, false⟩,
   ⟨"swap", .stack .swap, false⟩,
   ⟨"over", .stack .over, false⟩,
   ⟨"rot", .stack .rot, false⟩,
   ⟨"nip", .stack .nip, false⟩,
   ⟨"tuck", .stack .tuck, false⟩,
   ⟨"2dup", .stack .twoDup, false⟩,
   ⟨"2drop", .stack .twoDrop, false⟩,
   ⟨"pick", .stack .pick, false⟩,
   ⟨"depth", .stack .depth, false⟩,
   ⟨"clear", .stack .clear, false⟩,
   ⟨".s", .output .printStack, false⟩,
   ⟨">r", .stack .toReturn, false⟩,
   ⟨"r>", .stack .fromReturn, false⟩,
   ⟨"r@", .stack .copyReturn, false⟩,
   ⟨">t", .stack (.toSide .temp), false⟩,
   ⟨"t>", .stack (.fromSide .temp), false⟩,
   ⟨"t@", .stack (.copySide .temp), false⟩,
   ⟨">self", .stack (.toSide .self), false⟩,
   ⟨"self>", .stack (.fromSide .self), false⟩,
   ⟨"self@", .stack (.copySide .self), false⟩]

/-- The word of a binary operator. -/
def ofOperator (op : Operator) : Builtin :=
  ⟨op.symbol, .arithmetic (.apply op), false⟩

/-- Words for numbers, flags and floats. -/
def numberWords : List Builtin :=
  Operator.all.map ofOperator ++
  [⟨"negate", .arithmetic .negate, false⟩,
   ⟨"abs", .arithmetic .abs, false⟩,
   ⟨"1+", .arithmetic .increment, false⟩,
   ⟨"1-", .arithmetic .decrement, false⟩,
   ⟨"not", .arithmetic .not, false⟩,
   ⟨"invert", .arithmetic .invert, false⟩,
   ⟨"min", .arithmetic (.select .le), false⟩,
   ⟨"max", .arithmetic (.select .ge), false⟩,
   ⟨"true", .arithmetic (.flag true), false⟩,
   ⟨"false", .arithmetic (.flag false), false⟩,
   ⟨">float", .float .toFloat, false⟩,
   ⟨">int", .float .toInt, false⟩,
   ⟨"sqrt", .float .sqrt, false⟩,
   ⟨"floor", .float .floor, false⟩,
   ⟨"ceil", .float .ceil, false⟩,
   ⟨"round", .float .round, false⟩,
   ⟨"f.", .output .printFloat, false⟩]

/-- Words that write to the output. -/
def outputWords : List Builtin :=
  [⟨".", .output .print, false⟩,
   ⟨"emit", .output .emit, false⟩,
   ⟨"cr", .output .newline, false⟩,
   ⟨"space", .output .space, false⟩,
   ⟨"spaces", .output .spaces, false⟩,
   ⟨"type", .output .type, false⟩]

/-- Words for data slots and the words that own them. -/
def memoryWords : List Builtin :=
  [⟨"@", .memory .load, false⟩,
   ⟨"!", .memory .store, false⟩,
   ⟨"+!", .memory .addStore, false⟩,
   ⟨"here", .memory .here, false⟩,
   ⟨",", .memory .comma, false⟩,
   ⟨"allot", .memory .allot, false⟩,
   ⟨"create", .memory .create, false⟩,
   ⟨"variable", .memory .variable, false⟩,
   ⟨"constant", .memory .constant, false⟩,
   ⟨"does>", .memory .does, true⟩,
   ⟨"(does>)", .memory .doesRuntime, false⟩]

/-- Words that make definitions or read the input line. -/
def definingWords : List Builtin :=
  [⟨":", .defining .colon, false⟩,
   ⟨":noname", .defining .noname, false⟩,
   ⟨";", .defining .semicolon, true⟩,
   ⟨"immediate", .defining .immediate, false⟩,
   ⟨"postpone", .defining .postpone, true⟩,
   ⟨"[", .defining .leftBracket, true⟩,
   ⟨"]", .defining .rightBracket, false⟩,
   ⟨"literal", .defining .literal, true⟩,
   ⟨"'", .defining .tick, false⟩,
   ⟨"[']", .defining .bracketTick, true⟩,
   ⟨"execute", .defining .execute, false⟩,
   ⟨"compile,", .defining .compileComma, false⟩,
   ⟨"exit", .branch .exit, false⟩,
   ⟨"forget", .defining .forget, false⟩,
   ⟨"words", .output .words, false⟩,
   ⟨"see", .output .see, false⟩,
   ⟨"char", .defining .char, false⟩,
   ⟨"[char]", .defining .bracketChar, true⟩,
   ⟨"s\x22", .defining .string, true⟩,
   ⟨".\x22", .defining .printString, true⟩,
   ⟨"(", .defining .comment, true⟩,
   ⟨"\\", .defining .lineComment, true⟩]

/-- Words that compile control structures, and the two that read loop counters. -/
def controlWords : List Builtin :=
  [⟨"if", .control .openIf, true⟩,
   ⟨"else", .control .elseBranch, true⟩,
   ⟨"then", .control .closeIf, true⟩,
   ⟨"begin", .control .beginLoop, true⟩,
   ⟨"until", .control .untilFlag, true⟩,
   ⟨"again", .control .again, true⟩,
   ⟨"while", .control .whileFlag, true⟩,
   ⟨"repeat", .control .repeatLoop, true⟩,
   ⟨"do", .control (.openCount false), true⟩,
   ⟨"?do", .control (.openCount true), true⟩,
   ⟨"loop", .control (.closeCount false), true⟩,
   ⟨"+loop", .control (.closeCount true), true⟩,
   ⟨"leave", .control .leave, true⟩,
   ⟨"unloop", .control .unloop, true⟩,
   ⟨"recurse", .control .recurse, true⟩,
   ⟨"i", .branch .index, false⟩,
   ⟨"j", .branch .outerIndex, false⟩]

/-- Words for objects and types. -/
def objectWords : List Builtin :=
  [⟨"new", .object .new, false⟩,
   ⟨"type-of", .object .typeOf, false⟩,
   ⟨"size", .object (.invoke .size), false⟩,
   ⟨"hash", .object (.invoke .hash), false⟩,
   ⟨"get", .object (.invoke .get), false⟩,
   ⟨"set", .object (.invoke .set), false⟩,
   ⟨"contains", .object (.invoke .contains), false⟩,
   ⟨"index-of", .object (.invoke .indexOf), false⟩,
   ⟨"sub-range", .object (.invoke .subRange), false⟩,
   ⟨"deconstruct", .object (.invoke .deconstruct), false⟩,
   ⟨"append", .object (.invoke .append), false⟩,
   ⟨"implements?", .object (.invoke .implements), false⟩,
   ⟨"struct:", .object .struct, false⟩,
   ⟨"binops!", .object .setHandler, false⟩,
   ⟨"refcount", .object .refcount, false⟩]

/-- Words for the state cells and the debugger. -/
def stateWords : List Builtin :=
  [⟨"cell@", .state .loadCell, false⟩,
   ⟨"cell!", .state .storeCell, false⟩,
   ⟨"flag@", .state .loadFlag, false⟩,
   ⟨"flag!", .state .storeFlag, false⟩,
   ⟨"debug-level", .state .debugLevel, false⟩]

/-- Words that compiled control structures run. -/
def branchWords : List Builtin :=
  [⟨"(literal)", .branch .inlineLiteral, false⟩,
   ⟨"jump", .branch .jump, false⟩,
   ⟨"jumponfalse", .branch .jumpIfFalse, false⟩,
   ⟨"jumptrue", .branch .jumpIfTrue, false⟩,
   ⟨"(do)", .branch (.enterCount false), false⟩,
   ⟨"(?do)", .branch (.enterCount true), false⟩,
   ⟨"(loop)", .branch (.advanceCount false), false⟩,
   ⟨"(+loop)", .branch (.advanceCount true), false⟩,
   ⟨"(leave)", .branch .leave, false⟩,
   ⟨"(unloop)", .branch .unloop, false⟩]

/-- Every word that a machine comes with. -/
def all : List Builtin :=
  stackWords ++ numberWords ++ outputWords ++ memoryWords ++ definingWords ++ controlWords ++
    objectWords ++ stateWords ++ branchWords

/-- The words that a host adds. -/
def hostWords : List Builtin :=
  [⟨"log", .host .log, false⟩,
   ⟨"bump", .host .bump, false⟩,
   ⟨"boom", .host .boom, false⟩,
   ⟨"boom-any", .host .boomAny, false⟩,
   ⟨"boom-s", .host .boomText, false⟩,
   ⟨"host-run", .host .nested, false⟩,
   ⟨"host-try", .host .attempt, false⟩,
   ⟨"host-exit", .host .exit, false⟩,
   ⟨"host-call", .host .call, false⟩,
   ⟨"host-interrupt", .host .interrupt, false⟩]

end Builtin
end ThreadedForth
