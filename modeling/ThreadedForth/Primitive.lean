/-
  The primitive words.

  A primitive is a word whose behaviour is built into the machine.  The
  primitives come in families; each family's behaviour has a module of its own
  under `WordSet`, and `Vocabulary` gives them their names.
-/
import ThreadedForth.Operator

namespace ThreadedForth

/-- The stacks beside the data stack that hold any value. -/
inductive SideStack where
  | temp | self
deriving DecidableEq, Repr

/-- Words that move values on the stacks. -/
inductive StackWord where
  | dup | drop | swap | over | rot | nip | tuck | twoDup | twoDrop | pick | depth | clear
  | toReturn | fromReturn | copyReturn
  | toSide (stack : SideStack) | fromSide (stack : SideStack) | copySide (stack : SideStack)
deriving DecidableEq, Repr

/-- Words for integers, flags and everything that has operators. -/
inductive ArithmeticWord where
  | apply (op : Operator)
  /-- Keep the left operand if the comparison holds, otherwise the right one. -/
  | select (op : Operator)
  | increment | decrement | negate | abs | not | invert | flag (value : Bool)
deriving DecidableEq, Repr

/-- Words for floats. -/
inductive FloatWord where
  | toFloat | toInt | sqrt | floor | ceil | round
deriving DecidableEq, Repr

/-- Words that write to the output. -/
inductive OutputWord where
  | print | printFloat | printStack | emit | newline | space | spaces | type | words | see
deriving DecidableEq, Repr

/-- Words for data slots and the words that own them. -/
inductive MemoryWord where
  | load | store | addStore | here | comma | allot | create | variable | constant
  | does | doesRuntime
deriving DecidableEq, Repr

/-- Words that make definitions or read the input line. -/
inductive DefiningWord where
  | colon | noname | semicolon | immediate | postpone | leftBracket | rightBracket | literal
  | tick | bracketTick | execute | compileComma | forget | char | bracketChar | string
  | printString | comment | lineComment
deriving DecidableEq, Repr

/-- Words that compile control structures. -/
inductive ControlWord where
  | openIf | elseBranch | closeIf
  | beginLoop | untilFlag | again | whileFlag | repeatLoop
  /-- Open a counted loop, which may be skipped when it has nothing to count. -/
  | openCount (maySkip : Bool)
  /-- Close a counted loop, whose step is one or is taken from the stack. -/
  | closeCount (stepped : Bool)
  | leave | unloop | recurse
deriving DecidableEq, Repr

/-- Words that compiled control structures run. -/
inductive BranchWord where
  | inlineLiteral | jump | jumpIfFalse | jumpIfTrue
  | enterCount (maySkip : Bool) | advanceCount (stepped : Bool)
  | leave | unloop | index | outerIndex | exit
deriving DecidableEq, Repr

/-- Words for objects and types. -/
inductive ObjectWord where
  | new | typeOf | invoke (f : Function) | struct | setHandler | refcount
deriving DecidableEq, Repr

/-- Words for the state cells and the debugger. -/
inductive StateWord where
  | loadCell | storeCell | loadFlag | storeFlag | debugLevel
deriving DecidableEq, Repr

/-- Words that a host adds to a machine. -/
inductive HostWord where
  | log | bump | boom | boomAny | boomText | nested | attempt | exit | call | interrupt
deriving DecidableEq, Repr

/-- A primitive word. -/
inductive Primitive where
  | stack (w : StackWord)
  | arithmetic (w : ArithmeticWord)
  | float (w : FloatWord)
  | output (w : OutputWord)
  | memory (w : MemoryWord)
  | defining (w : DefiningWord)
  | control (w : ControlWord)
  | branch (w : BranchWord)
  | object (w : ObjectWord)
  | state (w : StateWord)
  | host (w : HostWord)
  /-- Push the address of the running word's data. -/
  | dataAddress
  /-- Push the first data slot of the running word. -/
  | pushConstant
  /-- Do nothing. -/
  | nop
deriving DecidableEq, Repr

end ThreadedForth
