/-
  Control structures.

  The words of a control structure run while a definition is open.  They
  compile jumps whose targets are literals, and keep what is still open on the
  data stack, as an address and a tag: a jump whose target is to be filled in,
  or a place to jump back to.  The closing word checks the tag.

  The compiled jumps are words that act on the frame of their caller.  A
  counted loop keeps its exit address, its limit and its index on the return
  stack.
-/
import ThreadedForth.Machine

namespace ThreadedForth

/-! ## Compilation -/

/-- What an address on the data stack belongs to. -/
inductive ControlTag where
  | ifOpen | elseOpen | beginOpen | whileOpen | countOpen
deriving DecidableEq, Repr

namespace ControlTag

/-- The integer that stands for a tag on the data stack. -/
def code : ControlTag → Int64
  | ifOpen => 0x1f0001
  | elseOpen => 0x1f0002
  | beginOpen => 0x1f0003
  | whileOpen => 0x1f0004
  | countOpen => 0x1f0005

/-- Every tag. -/
def all : List ControlTag :=
  [ifOpen, elseOpen, beginOpen, whileOpen, countOpen]

/-- Whether a value is the integer of one of the tags. -/
def isCode (tags : List ControlTag) : Value → Bool
  | .int n => tags.any fun t => n == t.code
  | _ => false

end ControlTag

namespace ControlWord

/-- Leaves an address and its tag on the data stack. -/
def openAt (address : Nat) (tag : ControlTag) : M Unit := do
  M.push (.nat address)
  M.push (.int tag.code)

/-- Takes an address off the data stack. -/
def popAddress (fault : ControlFault) : M Nat := do
  let n ← M.popInt
  if n < 0 then throw (.controlMismatch fault)
  pure n.toInt.toNat

/-- Takes an address with one of the given tags off the data stack. -/
def closeTag (tags : List ControlTag) (fault : ControlFault) : M Nat := do
  if ControlTag.isCode tags (← M.pop) then popAddress fault
  else throw (.controlMismatch fault)

/-- Compiles a literal to be filled in, and gives its position. -/
def compileHole : M Nat := do
  M.compileBuiltin "(literal)"
  let position ← M.here
  M.compile (.lit (.int 0))
  pure position

/-- Fills in a literal with a position to jump to. -/
def fillHole (hole target : Nat) : M Unit := do
  let m ← get
  M.setHeap (m.compiler.alter m.heap hole (.lit (.nat target)))

/-- Compiles a jump to a position. -/
def compileJump (target : Nat) (word : String) : M Unit := do
  M.compileLiteral (.nat target)
  M.compileBuiltin word

/-- The word that starts a counted loop. -/
def enterWord (maySkip : Bool) : String :=
  if maySkip then "(?do)" else "(do)"

/-- The word that ends a round of a counted loop. -/
def advanceWord (stepped : Bool) : String :=
  if stepped then "(+loop)" else "(loop)"

/-- The fault of a closing word without a counted loop. -/
def closeFault (stepped : Bool) : ControlFault :=
  if stepped then .plusLoopWithoutDo else .loopWithoutDo

/-- The name of the word. -/
def label : ControlWord → String
  | openIf => "if"
  | elseBranch => "else"
  | closeIf => "then"
  | beginLoop => "begin"
  | untilFlag => "until"
  | again => "again"
  | whileFlag => "while"
  | repeatLoop => "repeat"
  | openCount maySkip => if maySkip then "?do" else "do"
  | closeCount stepped => if stepped then "+loop" else "loop"
  | leave => "leave"
  | unloop => "unloop"
  | recurse => "recurse"

/-- What the word does inside a definition. -/
def build : ControlWord → M Unit
  | openIf => do
    let hole ← compileHole
    M.compileBuiltin "jumponfalse"
    openAt hole .ifOpen
  | elseBranch => do
    let ifHole ← closeTag [.ifOpen] .elseWithoutIf
    let hole ← compileHole
    M.compileBuiltin "jump"
    fillHole ifHole (← M.here)
    openAt hole .elseOpen
  | closeIf => do
    let hole ← closeTag [.ifOpen, .elseOpen] .thenWithoutIf
    fillHole hole (← M.here)
  | beginLoop => do openAt (← M.here) .beginOpen
  | untilFlag => do
    let target ← closeTag [.beginOpen] .untilWithoutBegin
    compileJump target "jumponfalse"
  | again => do
    let target ← closeTag [.beginOpen] .againWithoutBegin
    compileJump target "jump"
  | whileFlag => do
    if !ControlTag.isCode [.beginOpen] (← M.peek 0) then
      throw (.controlMismatch .whileWithoutBegin)
    let hole ← compileHole
    M.compileBuiltin "jumponfalse"
    openAt hole .whileOpen
  | repeatLoop => do
    let hole ← closeTag [.whileOpen] .repeatWithoutWhile
    let target ← closeTag [.beginOpen] .repeatWithoutBegin
    compileJump target "jump"
    fillHole hole (← M.here)
  | openCount maySkip => do
    let hole ← compileHole
    M.compileBuiltin (enterWord maySkip)
    M.push (.nat (← M.here))
    openAt hole .countOpen
  | closeCount stepped => do
    let hole ← closeTag [.countOpen] (closeFault stepped)
    let entry ← popAddress (closeFault stepped)
    compileJump entry (advanceWord stepped)
    fillHole hole (← M.here)
  | leave => M.compileBuiltin "(leave)"
  | unloop => M.compileBuiltin "(unloop)"
  | recurse => M.compile .recurse

/-- What the word does. -/
def run (w : ControlWord) : M Unit := do
  M.requireCompiling w.label
  w.build

end ControlWord

/-! ## Running -/

namespace BranchWord

/-- Moves the calling word to a position of its body, or to its end. -/
def jumpTo (address : Int64) : M Unit := do
  let f ← M.parent
  let w := (← get).heap.word f.word
  if 1 ≤ address.toInt ∧ address.toInt ≤ w.size then M.setParentIp address.toInt.toNat
  else throw (w.badOffset address.toInt.toNat)

/-- Puts the exit address, the limit and the index of a counted loop on the return stack. -/
def openLoop (exit limit start : Int64) : M Unit := do
  M.pushReturn exit
  M.pushReturn limit
  M.pushReturn start

/-- Drops what a counted loop keeps on the return stack. -/
def dropLoop : M Unit := do
  let _ ← M.popReturn
  let _ ← M.popReturn
  let _ ← M.popReturn

/-- Replaces the index of the innermost counted loop. -/
def setIndex (n : Int64) : M Unit := fun m =>
  match m.return.overwrite 0 n with
  | .ok s => .ok () { m with «return» := s }
  | .error e => .error e m

/-- Whether a counted loop is over when its index has come to `next`.  A loop with a negative step
    counts down, and includes its limit. -/
def isOver (limit next step : Int64) (stepped : Bool) : Bool :=
  if stepped && step < 0 then next < limit else limit ≤ next

/-- Ends a round of a counted loop: the loop goes on at `entry`, or it is over. -/
def advance (entry step : Int64) (stepped : Bool) : M Unit := do
  let index ← M.peekReturn 0
  let limit ← M.peekReturn 1
  let next := index + step
  if isOver limit next step stepped then dropLoop
  else
    setIndex next
    jumpTo entry

/-- What the word does, apart from `exit`. -/
def act : BranchWord → M Unit
  | inlineLiteral => do
    let f ← M.parent
    let v ← M.lift (((← get).heap.word f.word).load f.ip)
    M.setParentIp (f.ip + 1)
    M.push v
  | jump => do jumpTo (← M.popInt)
  | jumpIfFalse => do
    let address ← M.popInt
    if !(← M.popFlag) then jumpTo address
  | jumpIfTrue => do
    let address ← M.popInt
    if ← M.popFlag then jumpTo address
  | enterCount maySkip => do
    let exit ← M.popInt
    let start ← M.popInt
    let limit ← M.popInt
    if maySkip && start == limit then jumpTo exit else openLoop exit limit start
  | advanceCount stepped => do
    let entry ← M.popInt
    let step ← if stepped then M.popInt else pure 1
    advance entry step stepped
  | leave => do
    let exit ← M.peekReturn 2
    dropLoop
    jumpTo exit
  | unloop => dropLoop
  | index => do M.push (.int (← M.peekReturn 0))
  | outerIndex => do M.push (.int (← M.peekReturn 3))
  | exit => pure ()

/-- What the word does. -/
def run : BranchWord → M Flow
  | exit => pure .leave
  | w => do
    w.act
    pure .next

end BranchWord
end ThreadedForth
