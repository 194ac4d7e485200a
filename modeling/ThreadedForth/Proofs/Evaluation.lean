/-
  The meaning of structured programs, without code.
-/
import ThreadedForth.Proofs.Calls
import ThreadedForth.Proofs.Drafting

namespace ThreadedForth

/-! ## Decisions -/

namespace BranchWord

/-- The step of a counted loop. -/
def loopStep (stepped : Bool) : M Int64 :=
  if stepped then M.popInt else pure 1

/-- Ends a round of a counted loop, and says whether it was the last one. -/
def finishRound (step : Int64) (stepped : Bool) : M Bool := do
  let index ← M.peekReturn 0
  let limit ← M.peekReturn 1
  if isOver limit (index + step) step stepped then
    dropLoop
    pure true
  else
    setIndex (index + step)
    pure false

/-- Whether the code behind a jump comes next, and not its target, once the target has been taken
    off the data stack. -/
def decision (address : Int64) : BranchWord → M Bool
  | jump => pure false
  | jumpIfFalse => M.popFlag
  | enterCount maySkip => do
    let start ← M.popInt
    let limit ← M.popInt
    if maySkip && start == limit then pure false
    else
      openLoop address limit start
      pure true
  | advanceCount stepped => do finishRound (← loopStep stepped) stepped
  | _ => pure true

/-- Whether the code behind a jump comes next.  The target of the jump needs room on the data
    stack. -/
def choose (target : Nat) (b : BranchWord) : M Bool := do
  StackWord.ensureRoom 1
  b.decision (.ofNat target)

end BranchWord

namespace Machine

/-! ## Calls -/

/-- The machine with a word running that stands at a position. -/
def calling (s : Machine) (w : WordId) (ip : Nat) : Machine :=
  { s with frames := ⟨w, ip⟩ :: s.frames }

/-- A call that leaves its caller `w` alone: it does not leave the caller, and when it comes back,
    the caller stands where it was and has the same code, and the return stack is as before. -/
structure Local (k : BranchWord → WordId) (w : WordId) (m : Machine) (c : WordId) : Prop where
  stays : Stays m.frames.length m.runs (m.startRun c .outside)
  returns : ∀ fuel m', m.execute fuel c = some (.ok () m') →
    m'.frames = m.frames ∧ m'.return = m.return ∧ m'.interrupt = false ∧
      m'.heap.word w = m.heap.word w ∧
      ∀ b ∈ BranchWord.compiled, m'.heap.word (k b) = m.heap.word (k b)

/-- A word that ends its caller. -/
def Exits (m : Machine) (c : WordId) : Prop :=
  (m.heap.word c).code = .ok (.native (.branch .exit))

end Machine

/-! ## Evaluation -/

/-- How a part of a program ends. -/
inductive Ending where
  /-- The next part comes. -/
  | next (s : Machine)
  /-- The innermost counted loop is left. -/
  | left (s : Machine)
  /-- The whole word is left. -/
  | exited (s : Machine)
  | failed (e : Error) (s : Machine)
  /-- A call does not leave its caller alone. -/
  | foreign

namespace Ending

/-- The end of a part that is a single computation. -/
def of {α : Type} : EStateM.Result Error Machine α → Ending
  | .ok _ s => next s
  | .error e s => failed e s

/-- The end of a counted loop whose rounds end in the given way. -/
def caught : Ending → Ending
  | left s => next s
  | o => o

/-- The next part does not come. -/
def Stops : Ending → Prop
  | next _ => False
  | _ => True

end Ending

/-- What is evaluated. -/
inductive Task where
  | prog (p : Prog)
  /-- The rounds of a loop: a program, and a jump back to its start. -/
  | loop (p : Prog) (b : BranchWord)

open Machine in
/-- The ways in which the code of a word `w` can end, for a program that starts at a position. -/
inductive Eval (k : BranchWord → WordId) (w : WordId) : Task → Nat → Machine → Ending → Prop
  | skip {a s} : Eval k w (.prog .skip) a s (.next s)
  | number {a s v} : Eval k w (.prog (.simple (.number v))) a s (.of (M.push v s))
  | exit {a s c} (hc : s.Exits c) : Eval k w (.prog (.simple (.word c))) a s (.exited s)
  | call {a s c fuel r} (hc : ¬ s.Exits c) (hl : Local k w (s.calling w (a + 1)) c)
    (hr : (s.calling w (a + 1)).execute fuel c = some r) :
    Eval k w (.prog (.simple (.word c))) a s (.of (alter popFrame r))
  | foreign {a s c} (hc : ¬ s.Exits c) (hl : ¬ Local k w (s.calling w (a + 1)) c) :
    Eval k w (.prog (.simple (.word c))) a s .foreign
  | leave {a s s₁} (h : BranchWord.dropLoop s = .ok () s₁) :
    Eval k w (.prog (.simple .leave)) a s (.left s₁)
  | seqStop {a s p q o} (hp : Eval k w (.prog p) a s o) (ho : o.Stops) :
    Eval k w (.prog (.seq p q)) a s o
  | seq {a s s₁ p q o} (hp : Eval k w (.prog p) a s (.next s₁))
    (hq : Eval k w (.prog q) (a + p.size) s₁ o) : Eval k w (.prog (.seq p q)) a s o
  | ifFail {a s s₁ p e}
    (h : BranchWord.jumpIfFalse.choose (a + 3 + p.size) s = .error e s₁) :
    Eval k w (.prog (.ifThen p)) a s (.failed e s₁)
  | ifFalse {a s s₁ p} (h : BranchWord.jumpIfFalse.choose (a + 3 + p.size) s = .ok false s₁) :
    Eval k w (.prog (.ifThen p)) a s (.next s₁)
  | ifTrue {a s s₁ p o} (h : BranchWord.jumpIfFalse.choose (a + 3 + p.size) s = .ok true s₁)
    (hp : Eval k w (.prog p) (a + 3) s₁ o) : Eval k w (.prog (.ifThen p)) a s o
  | elseFail {a s s₁ p q e}
    (h : BranchWord.jumpIfFalse.choose (a + 3 + p.size + 3) s = .error e s₁) :
    Eval k w (.prog (.ifElse p q)) a s (.failed e s₁)
  | elseFalse {a s s₁ p q o}
    (h : BranchWord.jumpIfFalse.choose (a + 3 + p.size + 3) s = .ok false s₁)
    (hq : Eval k w (.prog q) (a + 3 + p.size + 3) s₁ o) : Eval k w (.prog (.ifElse p q)) a s o
  | elseTrueStop {a s s₁ p q o}
    (h : BranchWord.jumpIfFalse.choose (a + 3 + p.size + 3) s = .ok true s₁)
    (hp : Eval k w (.prog p) (a + 3) s₁ o) (ho : o.Stops) : Eval k w (.prog (.ifElse p q)) a s o
  | elseTrue {a s s₁ s₂ p q}
    (h : BranchWord.jumpIfFalse.choose (a + 3 + p.size + 3) s = .ok true s₁)
    (hp : Eval k w (.prog p) (a + 3) s₁ (.next s₂)) :
    Eval k w (.prog (.ifElse p q)) a s
      (.of (BranchWord.jump.choose (a + 3 + p.size + 3 + q.size) s₂))
  | beginUntil {a s p o} (h : Eval k w (.loop p .jumpIfFalse) a s o) :
    Eval k w (.prog (.beginUntil p)) a s o
  | beginAgain {a s p o} (h : Eval k w (.loop p .jump) a s o) :
    Eval k w (.prog (.beginAgain p)) a s o
  | whileStop {a s p q o} (hp : Eval k w (.prog p) a s o) (ho : o.Stops) :
    Eval k w (.prog (.beginWhile p q)) a s o
  | whileFail {a s s₁ s₂ p q e} (hp : Eval k w (.prog p) a s (.next s₁))
    (h : BranchWord.jumpIfFalse.choose (a + p.size + 3 + q.size + 3) s₁ = .error e s₂) :
    Eval k w (.prog (.beginWhile p q)) a s (.failed e s₂)
  | whileFalse {a s s₁ s₂ p q} (hp : Eval k w (.prog p) a s (.next s₁))
    (h : BranchWord.jumpIfFalse.choose (a + p.size + 3 + q.size + 3) s₁ = .ok false s₂) :
    Eval k w (.prog (.beginWhile p q)) a s (.next s₂)
  | whileTrueStop {a s s₁ s₂ p q o} (hp : Eval k w (.prog p) a s (.next s₁))
    (h : BranchWord.jumpIfFalse.choose (a + p.size + 3 + q.size + 3) s₁ = .ok true s₂)
    (hq : Eval k w (.prog q) (a + p.size + 3) s₂ o) (ho : o.Stops) :
    Eval k w (.prog (.beginWhile p q)) a s o
  | whileTrueFail {a s s₁ s₂ s₃ s₄ p q e} (hp : Eval k w (.prog p) a s (.next s₁))
    (h : BranchWord.jumpIfFalse.choose (a + p.size + 3 + q.size + 3) s₁ = .ok true s₂)
    (hq : Eval k w (.prog q) (a + p.size + 3) s₂ (.next s₃))
    (hj : BranchWord.jump.choose a s₃ = .error e s₄) :
    Eval k w (.prog (.beginWhile p q)) a s (.failed e s₄)
  | whileTrue {a s s₁ s₂ s₃ s₄ p q o} (hp : Eval k w (.prog p) a s (.next s₁))
    (h : BranchWord.jumpIfFalse.choose (a + p.size + 3 + q.size + 3) s₁ = .ok true s₂)
    (hq : Eval k w (.prog q) (a + p.size + 3) s₂ (.next s₃))
    (hj : BranchWord.jump.choose a s₃ = .ok false s₄)
    (hl : Eval k w (.prog (.beginWhile p q)) a s₄ o) : Eval k w (.prog (.beginWhile p q)) a s o
  | countFail {a s s₁ maySkip stepped p e}
    (h : (BranchWord.enterCount maySkip).choose (a + 3 + p.size + 3) s = .error e s₁) :
    Eval k w (.prog (.count maySkip stepped p)) a s (.failed e s₁)
  | countSkip {a s s₁ maySkip stepped p}
    (h : (BranchWord.enterCount maySkip).choose (a + 3 + p.size + 3) s = .ok false s₁) :
    Eval k w (.prog (.count maySkip stepped p)) a s (.next s₁)
  | count {a s s₁ maySkip stepped p o}
    (h : (BranchWord.enterCount maySkip).choose (a + 3 + p.size + 3) s = .ok true s₁)
    (hl : Eval k w (.loop p (.advanceCount stepped)) (a + 3) s₁ o) :
    Eval k w (.prog (.count maySkip stepped p)) a s o.caught
  | loopStop {a s p b o} (hp : Eval k w (.prog p) a s o) (ho : o.Stops) :
    Eval k w (.loop p b) a s o
  | loopFail {a s s₁ s₂ p b e} (hp : Eval k w (.prog p) a s (.next s₁))
    (h : b.choose a s₁ = .error e s₂) : Eval k w (.loop p b) a s (.failed e s₂)
  | loopEnd {a s s₁ s₂ p b} (hp : Eval k w (.prog p) a s (.next s₁))
    (h : b.choose a s₁ = .ok true s₂) : Eval k w (.loop p b) a s (.next s₂)
  | loopAgain {a s s₁ s₂ p b o} (hp : Eval k w (.prog p) a s (.next s₁))
    (h : b.choose a s₁ = .ok false s₂) (hl : Eval k w (.loop p b) a s₂ o) :
    Eval k w (.loop p b) a s o

/-! ## What decisions leave as it was -/

/-- A computation that changes nothing but the data stack and the return stack. -/
def OnStacks {α : Type} (act : M α) : Prop :=
  ∀ m, ∃ x y, Machine.after (act m) = { m with data := x, «return» := y }

namespace OnStacks

variable {α β : Type}

theorem pure (a : α) : OnStacks (Pure.pure a : M α) := fun m => ⟨m.data, m.return, rfl⟩

theorem bind {x : M α} {f : α → M β} (hx : OnStacks x) (hf : ∀ a, OnStacks (f a)) :
    OnStacks (x >>= f) := by
  intro m
  obtain ⟨d, r, h⟩ := hx m
  cases hr : x m with
  | ok a m₁ =>
    rw [hr] at h
    obtain ⟨d', r', h'⟩ := hf a m₁
    rw [M.bind_ok hr]
    obtain rfl : m₁ = _ := h
    exact ⟨d', r', h'⟩
  | error e m₁ =>
    rw [hr] at h
    rw [M.bind_error hr]
    exact ⟨d, r, h⟩

theorem ite {c : Prop} [Decidable c] {x y : M α} (hx : OnStacks x) (hy : OnStacks y) :
    OnStacks (if c then x else y) := by
  split
  · exact hx
  · exact hy

theorem lift (r : Except Error α) : OnStacks (M.lift r) := by
  intro m
  cases r <;> exact ⟨m.data, m.return, rfl⟩

theorem pop : OnStacks M.pop := by
  intro m
  unfold M.pop
  cases m.data.pop <;> exact ⟨_, m.return, rfl⟩

theorem push (v : Value) : OnStacks (M.push v) := by
  intro m
  unfold M.push
  cases m.data.push v <;> exact ⟨_, m.return, rfl⟩

theorem peek (n : Nat) : OnStacks (M.peek n) := by
  intro m
  unfold M.peek
  cases m.data.peek n <;> exact ⟨m.data, m.return, rfl⟩

theorem popInt : OnStacks M.popInt := pop.bind fun _ => lift _

theorem popFlag : OnStacks M.popFlag := pop.bind fun _ => lift _

theorem ensureRoom (n : Nat) : OnStacks (StackWord.ensureRoom n) := by
  intro m
  show ∃ x y, Machine.after (M.lift (m.data.ensureRoom n) m) = _
  exact lift _ m

theorem pushReturn (n : Int64) : OnStacks (M.pushReturn n) := by
  intro m
  unfold M.pushReturn
  cases m.return.push n <;> exact ⟨m.data, _, rfl⟩

theorem popReturn : OnStacks M.popReturn := by
  intro m
  unfold M.popReturn
  cases m.return.pop <;> exact ⟨m.data, _, rfl⟩

theorem peekReturn (n : Nat) : OnStacks (M.peekReturn n) := by
  intro m
  unfold M.peekReturn
  cases m.return.peek n <;> exact ⟨m.data, m.return, rfl⟩

theorem setIndex (n : Int64) : OnStacks (BranchWord.setIndex n) := by
  intro m
  unfold BranchWord.setIndex
  cases m.return.overwrite 0 n <;> exact ⟨m.data, _, rfl⟩

theorem dropLoop : OnStacks BranchWord.dropLoop :=
  popReturn.bind fun _ => popReturn.bind fun _ => popReturn.bind fun _ => pure _

theorem openLoop (exit limit start : Int64) : OnStacks (BranchWord.openLoop exit limit start) :=
  (pushReturn _).bind fun _ => (pushReturn _).bind fun _ => pushReturn _

theorem loopStep (stepped : Bool) : OnStacks (BranchWord.loopStep stepped) :=
  .ite popInt (pure _)

theorem finishRound (step : Int64) (stepped : Bool) :
    OnStacks (BranchWord.finishRound step stepped) :=
  (peekReturn 0).bind fun _ => (peekReturn 1).bind fun _ =>
    .ite (dropLoop.bind fun _ => pure _) ((setIndex _).bind fun _ => pure _)

theorem decision (address : Int64) (b : BranchWord) : OnStacks (b.decision address) := by
  cases b with
  | jumpIfFalse => exact popFlag
  | enterCount maySkip =>
    exact popInt.bind fun _ => popInt.bind fun _ =>
      .ite (pure _) ((openLoop _ _ _).bind fun _ => pure _)
  | advanceCount stepped => exact (loopStep stepped).bind fun _ => finishRound _ stepped
  | _ => exact pure _

theorem choose (target : Nat) (b : BranchWord) : OnStacks (b.choose target) :=
  (ensureRoom 1).bind fun _ => decision _ b

end OnStacks

/-! ## The return stack -/

/-- A computation that does not touch the return stack. -/
def KeepsReturn {α : Type} (act : M α) : Prop :=
  ∀ m, (Machine.after (act m)).return = m.return

namespace KeepsReturn

variable {α β : Type}

theorem pure (a : α) : KeepsReturn (Pure.pure a : M α) := fun _ => rfl

theorem bind {x : M α} {f : α → M β} (hx : KeepsReturn x) (hf : ∀ a, KeepsReturn (f a)) :
    KeepsReturn (x >>= f) := by
  intro m
  have h := hx m
  cases hr : x m with
  | ok a m₁ =>
    rw [hr] at h
    rw [M.bind_ok hr]
    exact (hf a m₁).trans h
  | error e m₁ =>
    rw [hr] at h
    rw [M.bind_error hr]
    exact h

theorem lift (r : Except Error α) : KeepsReturn (M.lift r) := by
  intro m
  cases r <;> rfl

theorem pop : KeepsReturn M.pop := by
  intro m
  unfold M.pop
  cases m.data.pop <;> rfl

theorem push (v : Value) : KeepsReturn (M.push v) := by
  intro m
  unfold M.push
  cases m.data.push v <;> rfl

theorem peek (n : Nat) : KeepsReturn (M.peek n) := by
  intro m
  unfold M.peek
  cases m.data.peek n <;> rfl

theorem popInt : KeepsReturn M.popInt := pop.bind fun _ => lift _

theorem popFlag : KeepsReturn M.popFlag := pop.bind fun _ => lift _

theorem ensureRoom (n : Nat) : KeepsReturn (StackWord.ensureRoom n) := fun m => lift _ m

theorem peekReturn (n : Nat) : KeepsReturn (M.peekReturn n) := by
  intro m
  unfold M.peekReturn
  cases m.return.peek n <;> rfl

theorem loopStep (stepped : Bool) : KeepsReturn (BranchWord.loopStep stepped) := by
  cases stepped
  · exact pure _
  · exact popInt

/-- In a computation, what comes first does not touch the return stack. -/
theorem of_ok {act : M α} (h : KeepsReturn act) {m m' : Machine} {a : α} (hr : act m = .ok a m') :
    m'.return = m.return := by
  have := h m
  rwa [hr] at this

end KeepsReturn

namespace BranchWord

theorem popReturn_eq_ok {s s₁ : Machine} {x : Int64} (h : M.popReturn s = .ok x s₁) :
    ∃ rest, s.return.items = x :: rest ∧
      s₁ = { s with «return» := { s.return with items := rest } } := by
  unfold M.popReturn Stack.pop at h
  cases hi : s.return.items with
  | nil =>
    rw [hi] at h
    cases h
  | cons y rest =>
    rw [hi] at h
    cases h
    exact ⟨rest, rfl, rfl⟩

/-- What a counted loop keeps on the return stack: the index, the limit and the exit address. -/
theorem dropLoop_eq_ok {s s₁ : Machine} (h : dropLoop s = .ok () s₁) :
    ∃ i l x rest, s.return.items = i :: l :: x :: rest ∧
      s₁ = { s with «return» := { s.return with items := rest } } := by
  obtain ⟨i, m₁, h₁, h⟩ := M.of_bind_ok h
  obtain ⟨l, m₂, h₂, h⟩ := M.of_bind_ok h
  obtain ⟨x, m₃, h₃, h⟩ := M.of_bind_ok h
  cases h
  obtain ⟨r₁, hi₁, rfl⟩ := popReturn_eq_ok h₁
  obtain ⟨r₂, hi₂, rfl⟩ := popReturn_eq_ok h₂
  obtain ⟨r₃, hi₃, rfl⟩ := popReturn_eq_ok h₃
  refine ⟨i, l, x, r₃, ?_, rfl⟩
  rw [hi₁]
  simp only at hi₂ hi₃
  rw [hi₂, hi₃]

theorem dropLoop_of_items {s : Machine} {i l x : Int64} {rest : List Int64}
    (h : s.return.items = i :: l :: x :: rest) :
    dropLoop s = .ok () { s with «return» := { s.return with items := rest } } := by
  have hpop : ∀ (s : Machine) (y : Int64) (ys : List Int64), s.return.items = y :: ys →
      M.popReturn s = .ok y { s with «return» := { s.return with items := ys } } := by
    intro s y ys hy
    simp only [M.popReturn, Stack.pop, hy]
  rw [dropLoop, M.bind_ok (hpop s i _ h), M.bind_ok (hpop _ l _ rfl), M.bind_ok (hpop _ x _ rfl)]
  rfl

theorem pushReturn_eq_ok {s s₁ : Machine} {x : Int64} (h : M.pushReturn x s = .ok () s₁) :
    s₁.return = { s.return with items := x :: s.return.items } := by
  unfold M.pushReturn at h
  cases hp : s.return.push x with
  | ok t =>
    rw [hp] at h
    cases h
    exact (Stack.push_eq_ok hp).2
  | error e =>
    rw [hp] at h
    cases h

theorem enterCount_return {target : Nat} {maySkip c : Bool} {s s₁ : Machine}
    (h : (enterCount maySkip).choose target s = .ok c s₁) :
    (c = true → ∃ i l, s₁.return =
      { s.return with items := i :: l :: .ofNat target :: s.return.items }) ∧
    (c = false → s₁.return = s.return) := by
  obtain ⟨_, m₁, h₁, h⟩ := M.of_bind_ok h
  obtain ⟨start, m₂, h₂, h⟩ := M.of_bind_ok h
  obtain ⟨limit, m₃, h₃, h⟩ := M.of_bind_ok h
  have hret : m₃.return = s.return :=
    (KeepsReturn.popInt.of_ok h₃).trans
      ((KeepsReturn.popInt.of_ok h₂).trans ((KeepsReturn.ensureRoom 1).of_ok h₁))
  split at h
  · cases h
    exact ⟨nofun, fun _ => hret⟩
  · obtain ⟨_, m₄, h₄, h⟩ := M.of_bind_ok h
    cases h
    refine ⟨fun _ => ⟨start, limit, ?_⟩, nofun⟩
    obtain ⟨_, m₅, h₅, h₄⟩ := M.of_bind_ok h₄
    obtain ⟨_, m₆, h₆, h₄⟩ := M.of_bind_ok h₄
    rw [pushReturn_eq_ok h₄, pushReturn_eq_ok h₆, pushReturn_eq_ok h₅, hret]

theorem advanceCount_return {target : Nat} {stepped c : Bool} {s s₁ : Machine}
    (h : (advanceCount stepped).choose target s = .ok c s₁) :
    (c = true → s₁.return = { s.return with items := s.return.items.drop 3 }) ∧
    (c = false → ∃ i, s₁.return = { s.return with items := s.return.items.set 0 i }) := by
  obtain ⟨_, m₁, h₁, h⟩ := M.of_bind_ok h
  obtain ⟨step, m₂, h₂, h⟩ := M.of_bind_ok h
  obtain ⟨index, m₃, h₃, h⟩ := M.of_bind_ok h
  obtain ⟨limit, m₄, h₄, h⟩ := M.of_bind_ok h
  have hret : m₄.return = s.return :=
    ((KeepsReturn.peekReturn 1).of_ok h₄).trans (((KeepsReturn.peekReturn 0).of_ok h₃).trans
      (((KeepsReturn.loopStep stepped).of_ok h₂).trans ((KeepsReturn.ensureRoom 1).of_ok h₁)))
  split at h
  · obtain ⟨_, m₅, h₅, h⟩ := M.of_bind_ok h
    cases h
    obtain ⟨i, l, x, rest, hi, rfl⟩ := dropLoop_eq_ok h₅
    rw [hret] at hi
    refine ⟨fun _ => ?_, nofun⟩
    show { m₄.return with items := rest } = _
    rw [hret, hi]
    rfl
  · obtain ⟨_, m₅, h₅, h⟩ := M.of_bind_ok h
    cases h
    refine ⟨nofun, fun _ => ⟨index + step, ?_⟩⟩
    unfold setIndex Stack.overwrite at h₅
    by_cases hlt : 0 < m₄.return.depth
    · rw [if_pos hlt] at h₅
      cases h₅
      rw [← hret]
    · rw [if_neg hlt] at h₅
      cases h₅

/-- The jumps that have nothing to do with counted loops. -/
theorem choose_return {target : Nat} {b : BranchWord} {c : Bool} {s s₁ : Machine}
    (h : b.choose target s = .ok c s₁) (he : ∀ maySkip, b ≠ enterCount maySkip)
    (ha : ∀ stepped, b ≠ advanceCount stepped) : s₁.return = s.return := by
  obtain ⟨_, m₁, h₁, h⟩ := M.of_bind_ok h
  refine Eq.trans ?_ ((KeepsReturn.ensureRoom 1).of_ok h₁)
  cases b with
  | jumpIfFalse => exact KeepsReturn.popFlag.of_ok h
  | enterCount maySkip => exact absurd rfl (he maySkip)
  | advanceCount stepped => exact absurd rfl (ha stepped)
  | _ => exact (KeepsReturn.pure _).of_ok h

end BranchWord

/-! ## What programs leave as it was -/

/-- The code that a word runs is the same, and so is what is around the word. -/
structure Steady (k : BranchWord → WordId) (w : WordId) (s s' : Machine) : Prop where
  word : s'.heap.word w = s.heap.word w
  words : ∀ b ∈ BranchWord.compiled, s'.heap.word (k b) = s.heap.word (k b)
  frames : s'.frames = s.frames
  runs : s'.runs = s.runs
  calm : s.interrupt = false → s'.interrupt = false

namespace Steady

variable {k : BranchWord → WordId} {w : WordId} {s s₁ s₂ : Machine}

theorem refl (s : Machine) : Steady k w s s := ⟨rfl, fun _ _ => rfl, rfl, rfl, id⟩

theorem trans (h : Steady k w s s₁) (h' : Steady k w s₁ s₂) : Steady k w s s₂ :=
  ⟨h'.word.trans h.word, fun b hb => (h'.words b hb).trans (h.words b hb),
    h'.frames.trans h.frames, h'.runs.trans h.runs, fun hi => h'.calm (h.calm hi)⟩

theorem of_onStacks {α : Type} {act : M α} (h : OnStacks act) {r : EStateM.Result Error Machine α}
    (hr : act s = r) : Steady k w s (Machine.after r) := by
  subst hr
  obtain ⟨x, y, h⟩ := h s
  rw [h]
  exact ⟨rfl, fun _ _ => rfl, rfl, rfl, id⟩

end Steady

/-- How many values a task takes off the return stack. -/
def Task.drops : Task → Nat
  | loop _ (.advanceCount _) => 3
  | _ => 0

/-- The jump of a loop is one that goes back. -/
def Task.Closed : Task → Prop
  | prog _ | loop _ .jump | loop _ .jumpIfFalse | loop _ (.advanceCount _) => True
  | loop _ _ => False

/-- The return stack without some of its items. -/
def Machine.returnBelow (s : Machine) (n : Nat) : Stack Int64 :=
  { s.return with items := s.return.items.drop n }

/-- What a task leaves as it was. -/
def Ending.Keeps (k : BranchWord → WordId) (w : WordId) (s : Machine) (drops : Nat) :
    Ending → Prop
  | next s' => Steady k w s s' ∧ s'.return = s.returnBelow drops
  | left s' => Steady k w s s' ∧ s'.return = s.returnBelow 3
  | _ => True

section Keeps

variable {k : BranchWord → WordId} {w : WordId} {s s₁ : Machine} {n : Nat} {o : Ending}

/-- What comes before a task, if it does not touch the return stack below. -/
theorem Ending.Keeps.after (h : o.Keeps k w s₁ n) (hs : Steady k w s s₁)
    (h₃ : s₁.returnBelow 3 = s.returnBelow 3) (hn : s₁.returnBelow n = s.returnBelow n) :
    o.Keeps k w s n := by
  cases o with
  | next s' => exact ⟨hs.trans h.1, h.2.trans hn⟩
  | left s' => exact ⟨hs.trans h.1, h.2.trans h₃⟩
  | _ => trivial

theorem Ending.Keeps.after_same (h : o.Keeps k w s₁ n) (hs : Steady k w s s₁)
    (hr : s₁.return = s.return) : o.Keeps k w s n :=
  h.after hs (by simp only [Machine.returnBelow, hr]) (by simp only [Machine.returnBelow, hr])

theorem Ending.Keeps.of_stops (h : o.Keeps k w s n) (ho : o.Stops) (n' : Nat) :
    o.Keeps k w s n' := by
  cases o with
  | next s' => exact ho.elim
  | _ => exact h

/-- The end of a single computation that does not touch the return stack. -/
theorem Ending.Keeps.of {α : Type} {act : M α} (h₁ : OnStacks act) (h₂ : KeepsReturn act)
    {r : EStateM.Result Error Machine α} (hr : act s = r) : (Ending.of r).Keeps k w s 0 := by
  cases r with
  | ok a s' => exact ⟨.of_onStacks h₁ hr, h₂.of_ok hr⟩
  | error e s' => trivial

theorem Steady.of_choose {target : Nat} {b : BranchWord} {c : Bool}
    (h : b.choose target s = .ok c s₁) : Steady k w s s₁ :=
  .of_onStacks (OnStacks.choose target b) h

/-- The jump at the end of a loop: below what belongs to the loop, the return stack is the same. -/
theorem Task.loop_return {p : Prog} {b : BranchWord} {a : Nat} {c : Bool}
    (ht : (Task.loop p b).Closed) (h : b.choose a s = .ok c s₁) :
    (c = true → s₁.return = s.returnBelow (Task.loop p b).drops) ∧
    (c = false → s₁.returnBelow 3 = s.returnBelow 3 ∧
      s₁.returnBelow (Task.loop p b).drops = s.returnBelow (Task.loop p b).drops) := by
  cases b with
  | advanceCount stepped =>
    have hr := BranchWord.advanceCount_return h
    refine ⟨hr.1, fun hc => ?_⟩
    obtain ⟨i, hi⟩ := hr.2 hc
    have h₃ : s₁.returnBelow 3 = s.returnBelow 3 := by
      simp only [Machine.returnBelow, hi]
      cases s.return.items <;> rfl
    exact ⟨h₃, h₃⟩
  | jump | jumpIfFalse =>
    have hr := BranchWord.choose_return h nofun nofun
    refine ⟨fun _ => hr, fun _ => ?_⟩
    simp only [Machine.returnBelow, hr, and_self]
  | _ => exact ht.elim

/-- The code of the word and the words around it stay as they are, and so does the return stack,
    except for what belongs to a loop that has ended. -/
theorem Eval.keeps {t : Task} {a : Nat} (h : Eval k w t a s o) (ht : t.Closed) :
    o.Keeps k w s t.drops := by
  have hif : ∀ {target c} {s s₁ : Machine}, BranchWord.jumpIfFalse.choose target s = .ok c s₁ →
      s₁.return = s.return := fun h => BranchWord.choose_return h nofun nofun
  have hj : ∀ {target c} {s s₁ : Machine}, BranchWord.jump.choose target s = .ok c s₁ →
      s₁.return = s.return := fun h => BranchWord.choose_return h nofun nofun
  induction h with
  | skip => exact ⟨.refl _, rfl⟩
  | number => exact .of (OnStacks.push _) (KeepsReturn.push _) rfl
  | exit | foreign | ifFail | elseFail | whileFail | whileTrueFail | countFail | loopFail =>
    trivial
  | @call a s c fuel r hc hl hr =>
    cases r with
    | ok _ m' =>
      have hR := Machine.execute_restores hr
      obtain ⟨hf, hret, hi, hw, hk⟩ := hl.returns fuel m' hr
      refine ⟨⟨hw, hk, ?_, hR.runs, fun _ => hi⟩, hret⟩
      show m'.frames.tail = s.frames
      rw [hf]
      rfl
    | error e m' => trivial
  | leave h =>
    obtain ⟨i, l, x, rest, hi, rfl⟩ := BranchWord.dropLoop_eq_ok h
    refine ⟨⟨rfl, fun _ _ => rfl, rfl, rfl, id⟩, ?_⟩
    rw [Machine.returnBelow, hi]
    rfl
  | seqStop _ ho ih => exact (ih trivial).of_stops ho _
  | seq _ _ ihp ihq => exact (ihq trivial).after_same (ihp trivial).1 (ihp trivial).2
  | ifFalse h => exact ⟨.of_choose h, hif h⟩
  | ifTrue h _ ih => exact (ih trivial).after_same (.of_choose h) (hif h)
  | elseFalse h _ ih => exact (ih trivial).after_same (.of_choose h) (hif h)
  | elseTrueStop h _ ho ih => exact (ih trivial).after_same (.of_choose h) (hif h)
  | @elseTrue a s s₁ s₂ p q h _ ih =>
    have hkeeps : KeepsReturn (BranchWord.jump.choose (a + 3 + p.size + 3 + q.size)) :=
      (KeepsReturn.ensureRoom 1).bind fun _ => .pure _
    have hjoin := Ending.Keeps.of (k := k) (w := w) (s := s₂) (OnStacks.choose _ _) hkeeps rfl
    exact hjoin.after_same ((Steady.of_choose h).trans (ih trivial).1)
      ((ih trivial).2.trans (hif h))
  | beginUntil _ ih => exact ih trivial
  | beginAgain _ ih => exact ih trivial
  | whileStop _ ho ih => exact (ih trivial).of_stops ho _
  | whileFalse _ h ih =>
    exact ⟨(ih trivial).1.trans (.of_choose h), (hif h).trans (ih trivial).2⟩
  | whileTrueStop _ h _ ho ihp ihq =>
    exact (ihq trivial).after_same ((ihp trivial).1.trans (.of_choose h))
      ((hif h).trans (ihp trivial).2)
  | whileTrue _ h _ hback _ ihp ihq ihl =>
    have h₂ := (ihp trivial).1.trans (Steady.of_choose h)
    have h₄ := (ihq trivial).1.trans (Steady.of_choose hback)
    exact (ihl trivial).after_same (h₂.trans h₄)
      ((hj hback).trans ((ihq trivial).2.trans ((hif h).trans (ihp trivial).2)))
  | countSkip h => exact ⟨.of_choose h, (BranchWord.enterCount_return h).2 rfl⟩
  | @count a s s₁ maySkip stepped p o h _ ih =>
    obtain ⟨i, l, hr⟩ := (BranchWord.enterCount_return h).1 rfl
    have hbelow : s₁.returnBelow 3 = s.return := by
      rw [Machine.returnBelow, hr]
      rfl
    have hl := ih trivial
    cases o with
    | next s' => exact ⟨(Steady.of_choose h).trans hl.1, hl.2.trans hbelow⟩
    | left s' => exact ⟨(Steady.of_choose h).trans hl.1, hl.2.trans hbelow⟩
    | _ => trivial
  | loopStop _ ho ih => exact (ih trivial).of_stops ho _
  | loopEnd _ h ih =>
    have hr := (Task.loop_return ht h).1 rfl
    refine ⟨(ih trivial).1.trans (.of_choose h), ?_⟩
    rw [hr, Machine.returnBelow, (ih trivial).2]
    rfl
  | @loopAgain a s s₁ s₂ p b o _ h _ ihp ihl =>
    have hsame : s₁.return = s.return := (ihp trivial).2
    have hr := (Task.loop_return ht h).2 rfl
    simp only [Machine.returnBelow, hsame] at hr
    exact (ihl ht).after ((ihp trivial).1.trans (.of_choose h)) hr.1 hr.2

/-- A call is foreign only if it does not leave its caller alone. -/
theorem Eval.not_local {c : WordId} {a : Nat}
    (h : Eval k w (.prog (.simple (.word c))) a s .foreign) :
    ¬ Machine.Local k w (s.calling w (a + 1)) c := by
  generalize ho : Ending.foreign = o at h
  cases h with
  | exit => cases ho
  | foreign _ hl => exact hl
  | @call _ _ _ _ r => cases r <;> cases ho

end Keeps

/-! ## Words that leave their caller alone -/

namespace Machine

variable {m : Machine} {c : WordId} {p : Primitive} {act : M Unit}

/-- A primitive that works on the data stack alone. -/
structure OnData (p : Primitive) (act : M Unit) : Prop where
  run : p.run = thenNext act
  onStacks : OnStacks act
  keeps : KeepsReturn act

/-- The machine with another data stack. -/
def withData (m : Machine) (x : Stack Value) : Machine :=
  { m with data := x }

/-- A primitive on the data stack, run on its own. -/
theorem OnData.start (h : OnData p act) (m : Machine) (c : WordId) :
    (∃ x, p.run (m.startRun c .outside) = .ok .next ((m.withData x).startRun c .outside)) ∨
      ∃ e x, p.run (m.startRun c .outside) = .error e ((m.withData x).startRun c .outside) := by
  obtain ⟨x, y, hx⟩ := h.onStacks (m.startRun c .outside)
  have hk := h.keeps (m.startRun c .outside)
  rw [hx] at hk
  obtain rfl : y = m.return := hk
  rw [h.run, thenNext]
  cases hr : act (m.startRun c .outside) with
  | ok _ z =>
    rw [hr] at hx
    obtain rfl : z = _ := hx
    exact .inl ⟨x, M.bind_ok hr⟩
  | error e z =>
    rw [hr] at hx
    obtain rfl : z = _ := hx
    exact .inr ⟨e, x, M.bind_error hr⟩

/-- It does nothing but end its own frame, so it leaves its caller alone. -/
theorem Local.of_onData (hc : (m.heap.word c).code = .ok (.native p)) (hi : m.interrupt = false)
    (h : OnData p act) (k : BranchWord → WordId) (w : WordId) : Local k w m c := by
  have hc' : ((m.startRun c .outside).heap.word c).code = .ok (.native p) := hc
  have hstep : (m.startRun c .outside).step = settle (p.run (m.startRun c .outside)) := by
    rw [step_startRun hi, stepFrame]
    simp only [hc']
  have hback : ∀ x, ((m.withData x).startRun c .outside).popFrame.step = .ended (m.withData x) :=
    fun x => step_of_back (m := ((m.withData x).startRun c .outside).popFrame)
      (r := ⟨m.frames.length, .outside⟩) rfl (Nat.le_refl _)
  refine ⟨?_, ?_⟩
  · rintro j z hg - hf ⟨f, rest, p', y, hfr, hcode, hy⟩
    rcases h.start m c with ⟨x, hx⟩ | ⟨e, x, hx⟩
    · cases hg with
      | refl =>
        cases hfr
        cases hc'.symm.trans hcode
        cases hx.symm.trans hy
      | step hs hg =>
        rw [hstep, hx] at hs
        cases hs
        cases hg with
        | refl => exact absurd hf (Nat.ne_of_lt (Nat.lt_succ_self _))
        | step hs _ => cases (hback x).symm.trans hs
    · cases hg with
      | refl =>
        cases hfr
        cases hc'.symm.trans hcode
        cases hx.symm.trans hy
      | step hs _ =>
        rw [hstep, hx] at hs
        cases hs
  · intro fuel m' hr
    rcases h.start m c with ⟨x, hx⟩ | ⟨e, x, hx⟩
    · cases steps_unique hr (execute_native hc hi hx rfl rfl 0)
      exact ⟨rfl, rfl, hi, rfl, fun _ _ => rfl⟩
    · cases steps_unique hr (execute_native_error hc hi hx rfl 0)

end Machine
end ThreadedForth
