/-
  Words that make definitions or read the input line.
-/
import ThreadedForth.WordSet.Control

namespace ThreadedForth

namespace Line

/-- The line after a comment, and whether the comment ended on it: tokens are passed up to one
    that ends in a closing parenthesis. -/
def skipComment : Nat → Line → Line × Bool
  | 0, l => (l, false)
  | fuel + 1, l =>
    let l := l.advance
    match l.token? with
    | none => (l, false)
    | some t => if t.toList.getLast? == some ')' then (l, true) else skipComment fuel l

end Line

/-- The machine after a comment.  It is still inside the comment if the line ended first. -/
def Machine.skipComment (m : Machine) : Machine :=
  let (line, ended) := m.line.skipComment (m.line.text.length + 1)
  { m with line, inComment := !ended }

namespace DefiningWord

/-- Opens a definition. -/
def openDefinition (name : String) : M Unit := do
  if (← M.mode) ≠ .interpreting then throw (.compileState .nested)
  modify fun m =>
    let (_, compiler, heap) := m.compiler.start m.heap name m.data.depth
    { m with compiler, heap }
  M.compile (.direct .docol)
  M.setMode .compiling

/-- Fails unless a definition leaves the data stack as deep as it was when it was opened. -/
def checkBalance : M Unit := do
  let m ← get
  let depth := m.data.depth
  let start := m.compiler.startDepth
  if depth < start then throw (.compileState (.consumed (start - depth)))
  if start < depth then
    if (m.data.peek? 0).any (ControlTag.isCode ControlTag.all) then
      throw (.controlMismatch .unterminated)
    throw (.compileState (.left (depth - start)))

/-- Finishes the word under construction: a word with a name is bound in the dictionary, one
    without is left on the data stack. -/
def reveal : M Unit := do
  checkBalance
  let m ← get
  let w ← M.lift m.compiler.building
  set { m with compiler := { m.compiler with building? := none } }
  if (m.heap.word w).isAnonymous then
    modify fun m => { m with heap := m.heap.updateWord w fun x => { x with hidden := false } }
    M.push (.xt w)
  else
    modify fun m =>
      let (_, dictionary, heap) := m.dictionary.add m.heap w
      { m with dictionary, heap }

/-- The first character of the next token. -/
def nextChar (reader : String) : M Value := do
  match (← M.nextName reader).toList with
  | c :: _ => pure (.char (UInt8.ofNat c.toNat))
  | [] => throw (.missingName reader)

/-- What the word does, apart from `execute`. -/
def act : DefiningWord → M Unit
  | colon => do openDefinition (← M.nextName ":")
  | noname => openDefinition ""
  | semicolon => do
    M.requireCompiling ";"
    reveal
    M.setMode .interpreting
  | immediate => do
    let w ← M.last
    modify fun m => { m with heap := m.heap.updateWord w fun x => { x with immediate := true } }
  | postpone => do
    M.requireCompiling "postpone"
    M.setMode .compilingPostponed
  | leftBracket => do
    M.requireCompiling "["
    M.setMode .interpreting
  | rightBracket => do
    let _ ← M.lift (← get).compiler.building
    M.setMode .compiling
  | literal => do
    M.requireCompiling "literal"
    M.compileLiteral (← M.pop)
  | tick => do M.push (.xt (← M.nextWord "'"))
  | bracketTick => do
    M.requireCompiling "[']"
    M.compileLiteral (.xt (← M.nextWord "[']"))
  | execute => pure ()
  | compileComma => do M.compileWord (← M.popWord)
  | forget => do
    let name ← M.nextName "forget"
    let m ← get
    let (_, dictionary, heap) ← M.lift (m.dictionary.forget m.heap name)
    set { m with dictionary, heap }
  | char => do M.push (← nextChar "char")
  | bracketChar => do
    M.requireCompiling "[char]"
    M.compileLiteral (← nextChar "[char]")
  | string => do
    let v ← M.newText (← M.nextText)
    if (← M.mode) = .compiling then M.compileLiteral v else M.push v
  | printString => do
    let text ← M.nextText
    if (← M.mode) = .compiling then
      M.compileLiteral (← M.newText text)
      M.compileBuiltin "type"
    else M.put text
  | comment => modify Machine.skipComment
  | lineComment => modify fun m => { m with line := m.line.skip }

/-- What the word does. -/
def run : DefiningWord → M Flow
  | execute => do pure (.call (← M.popWord))
  | w => do
    w.act
    pure .next

end DefiningWord
end ThreadedForth
