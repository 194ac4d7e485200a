/-
  Counted loops around any body: the rounds, and the return stack in each of them.
-/
import ThreadedForth.Proofs.CodeSteps
import ThreadedForth.Proofs.Invariants
import ThreadedForth.Proofs.Locality
import ThreadedForth.Proofs.Ownership

namespace ThreadedForth
namespace Machine

/-! ## Code in any run -/

section Standing

variable {k : BranchWord → WordId} {w c : WordId} {es : List Elem} {s s₁ : Machine} {ip t : Nat}
  {fs : List Frame} {rs : List Run} {d : Debugger}

theorem Goes.unique {n : Nat} {m x y : Machine} (hx : Goes n m x) (hy : Goes n m y) : x = y := by
  induction hx with
  | refl => cases hy; rfl
  | step hs _ ih =>
    cases hy with
    | step hs' hy =>
      cases hs.symm.trans hs'
      exact ih hy

/-- The machine with a word that stands at a position, above the frames `fs` and in the runs `rs`. -/
def standing (s : Machine) (w : WordId) (ip : Nat) (fs : List Frame) (rs : List Run)
    (d : Debugger) : Machine :=
  { s with frames := ⟨w, ip⟩ :: fs, runs := rs, debugger := d }

/-- A call takes a step. -/
theorem step_call_standing (h : Carries w es s) (hr : Covers rs fs)
    (hget : es[ip]? = some (.call c)) (d : Debugger) :
    ∃ d', (s.standing w ip fs rs d).step = .running ((s.standing w (ip + 1) fs rs d').enter c) := by
  obtain ⟨r, rs', rfl, hb⟩ := hr
  have hc : ((s.standing w ip fs (r :: rs') d).heap.word w).code = .ok .docol := h.code
  have hg : ((s.standing w ip fs (r :: rs') d).heap.word w).body[ip]? = some (.call c) :=
    (h.get ip).trans hget
  rw [step_of_frame (m := s.standing w ip fs (r :: rs') d) rfl rfl (Nat.lt_succ_of_le hb) h.calm,
    stepFrame]
  simp only [hc, stepElement_eq, hg]
  exact ⟨_, rfl⟩

/-- A primitive that is called and goes on with its caller, perhaps at another position. -/
theorem goes_native_standing {p : Primitive} (h : Carries w es s) (hr : Covers rs fs)
    (hget : es[ip]? = some (.call c)) (hc : (s.heap.word c).code = .ok (.native p)) (d : Debugger)
    {ip' : Nat}
    (hrun : ∀ d, p.run ((s.standing w (ip + 1) fs rs d).enter c) =
      .ok .next ((s₁.standing w ip' fs rs d).enter c)) :
    ∃ d', Goes 2 (s.standing w ip fs rs d) (s₁.standing w ip' fs rs d') := by
  obtain ⟨d', hstep⟩ := step_call_standing h hr hget d
  refine ⟨d', .step hstep (.one ?_)⟩
  obtain ⟨r, rs', rfl, hb⟩ := hr
  have hc' : (((s.standing w (ip + 1) fs (r :: rs') d').enter c).heap.word c).code =
      .ok (.native p) := hc
  rw [step_of_frame (m := (s.standing w (ip + 1) fs (r :: rs') d').enter c) rfl rfl
    (by show r.base < fs.length + 1 + 1; omega) h.calm, stepFrame]
  simp only [hc', hrun]
  rfl

/-- A computation on the stacks, inside a primitive that is called. -/
theorem standing_ok {α : Type} {act : M α} (hb : Blind act) (ho : OnStacks act) {v : α}
    (h : act s = .ok v s₁) (w c : WordId) (ip : Nat) (fs : List Frame) (rs : List Run)
    (d : Debugger) :
    act ((s.standing w ip fs rs d).enter c) = .ok v ((s₁.standing w ip fs rs d).enter c) := by
  have hw : (s.standing w ip fs rs d).enter c = s.within ⟨⟨c, 1⟩ :: ⟨w, ip⟩ :: fs, rs, d⟩ := rfl
  obtain ⟨x, y, hx⟩ := ho s
  rw [h] at hx
  rw [hw, hb, h]
  obtain rfl : s₁ = _ := hx
  rfl

/-- The value of a literal is pushed, and its place is passed. -/
theorem literal_standing (h : Carries w es s) (hr : Covers rs fs)
    (hc : (s.heap.word c).code = .ok (.native (.branch .inlineLiteral))) {v : Value}
    (hat : CodeAt es ip [.call c, .lit v]) (hp : M.push v s = .ok () s₁) (d : Debugger) :
    ∃ d', Goes 2 (s.standing w ip fs rs d) (s₁.standing w (ip + 2) fs rs d') := by
  have hat' : CodeAt es ip ([.call c] ++ [.lit v]) := hat
  have hlit : es[ip + 1]? = some (.lit v) := hat'.right.get
  have hload : (s.heap.word w).load (ip + 1) = .ok v := by
    rw [Word.load, h.get, hlit]
    simp
  refine goes_native_standing h hr hat.get hc d fun d => ?_
  have hact : BranchWord.act .inlineLiteral ((s.standing w (ip + 1) fs rs d).enter c) =
      M.push v ((s.standing w (ip + 2) fs rs d).enter c) := by
    show (M.lift ((s.heap.word w).load (ip + 1)) >>= fun v => M.setParentIp (ip + 2) >>= fun _ =>
      M.push v) ((s.standing w (ip + 1) fs rs d).enter c) = _
    rw [hload]
    rfl
  exact M.bind_ok (hact.trans (standing_ok (M.push_blind v) (.push v) hp w c (ip + 2) fs rs d))

/-- The caller of a primitive is moved to a position of its body. -/
theorem jumpTo_standing (h : Carries w es s) (ht : 1 ≤ t ∧ t ≤ es.length) (hfit : t < 2 ^ 63)
    (d : Debugger) :
    BranchWord.jumpTo (.ofNat t) ((s.standing w ip fs rs d).enter c) =
      .ok () ((s.standing w t fs rs d).enter c) := by
  have hi : (Int64.ofNat t).toInt = t := Int64.toInt_ofNat_of_lt hfit
  have hsize : (s.heap.word w).size = es.length := by
    rw [Word.size, ← Array.length_toList, h.body]
  show (if 1 ≤ (Int64.ofNat t).toInt ∧ (Int64.ofNat t).toInt ≤ ((s.heap.word w).size : Int) then
    M.setParentIp (Int64.ofNat t).toInt.toNat else _ : M Unit) _ = _
  rw [hi, hsize, if_pos (by omega)]
  rfl

/-- **A jump of compiled code**, in any run: it goes where its decision says. -/
theorem jump_standing {b : BranchWord} (hb : b.Jumps) (h : Holds k w es s) (hr : Covers rs fs)
    (hat : CodeAt es ip (Prog.jumpElems k t b)) (ht : 1 ≤ t ∧ t ≤ es.length) (hfit : t < 2 ^ 63)
    (hroom : s.data.depth < s.data.capacity) {goesOn : Bool}
    (hdec : b.decision (.ofNat t) s = .ok goesOn s₁) (d : Debugger) :
    ∃ d', Goes 4 (s.standing w ip fs rs d)
      (s₁.standing w (if goesOn then ip + 3 else t) fs rs d') := by
  have hat' : CodeAt es ip ([.call (k .inlineLiteral), .lit (.nat t)] ++ [.call (k b)]) := hat
  have hget : es[ip + 2]? = some (.call (k b)) := hat'.right.get
  have hpush : M.push (.nat t) s = .ok () (s.withTarget t) := by
    simp only [M.push, Stack.push, hroom, if_true]
    rfl
  have hs' : Holds k w es (s.withTarget t) := ⟨⟨h.body, h.code, h.calm⟩, h.words⟩
  have hs₁ : Holds k w es s₁ := h.steady (.of_onStacks (OnStacks.decision (.ofNat t) b) hdec)
  obtain ⟨d₁, hlit⟩ := literal_standing h.toCarries hr (h.words .inlineLiteral (by decide)) hat'.left
    hpush d
  have hrun : (Primitive.branch b).run = (b.act >>= fun _ => pure .next) := by
    cases b with
    | exit => exact hb.elim
    | _ => rfl
  obtain ⟨d₂, hjump⟩ : ∃ d', Goes 2 ((s.withTarget t).standing w (ip + 2) fs rs d₁)
      (s₁.standing w (if goesOn then ip + 3 else t) fs rs d') := by
    refine goes_native_standing hs'.toCarries hr hget (hs'.words b hb.mem) d₁ fun d => ?_
    have hpop : M.popInt (((s.withTarget t).standing w (ip + 2 + 1) fs rs d).enter (k b)) =
        .ok (.ofNat t) ((s.standing w (ip + 2 + 1) fs rs d).enter (k b)) := rfl
    have hact : b.act (((s.withTarget t).standing w (ip + 2 + 1) fs rs d).enter (k b)) =
        .ok () ((s₁.standing w (if goesOn then ip + 3 else t) fs rs d).enter (k b)) := by
      rw [BranchWord.act_eq hb, M.bind_ok hpop, M.bind_ok (standing_ok
        (BranchWord.decision_blind (.ofNat t) b) (OnStacks.decision (.ofNat t) b) hdec w _ _ fs rs d)]
      cases goesOn with
      | true => rfl
      | false => exact jumpTo_standing hs₁.toCarries ht hfit d
    rw [hrun]
    exact M.bind_ok hact
  exact ⟨d₂, hlit.trans hjump⟩

end Standing

end Machine

/-! ## The decisions of a counted loop -/

namespace BranchWord

open Machine

variable {s : Machine} {start limit : Int64}

/-- A loop that has something to count puts its record on the return stack. -/
theorem decision_enterCount (address : Int64) {maySkip : Bool} {ds : List Value}
    (hd : s.data.items = .int start :: .int limit :: ds)
    (hr : s.return.depth + 3 ≤ s.return.capacity) (hs : (maySkip && start == limit) = false) :
    (enterCount maySkip).decision address s = .ok true { s with
      data := { s.data with items := ds }
      «return» := { s.return with items := start :: limit :: address :: s.return.items } } := by
  have h₁ : M.popInt s = .ok start { s with data := { s.data with items := .int limit :: ds } } := by
    simp only [M.popInt, M.pop, Stack.pop, hd, Bind.bind, EStateM.bind]
    rfl
  have h₂ : M.popInt { s with data := { s.data with items := .int limit :: ds } } =
      .ok limit { s with data := { s.data with items := ds } } := rfl
  have hpush : ∀ (x : Machine) (n : Int64), x.return.depth < x.return.capacity →
      M.pushReturn n x =
        .ok () { x with «return» := { x.return with items := n :: x.return.items } } := by
    intro x n hx
    simp only [M.pushReturn, Stack.push, hx, if_true]
  rw [decision, M.bind_ok h₁, M.bind_ok h₂, hs, if_neg Bool.false_ne_true, openLoop, bind_assoc,
    M.bind_ok (hpush _ _ (by simp; omega)), bind_assoc,
    M.bind_ok (hpush _ _ (by simp [Stack.depth] at hr ⊢; omega)),
    M.bind_ok (hpush _ _ (by simp [Stack.depth] at hr ⊢; omega))]
  rfl

/-- A loop that may be skipped and has nothing to count. -/
theorem decision_skipCount (address : Int64) {n : Int64} {ds : List Value}
    (hd : s.data.items = .int n :: .int n :: ds) :
    (enterCount true).decision address s =
      .ok false { s with data := { s.data with items := ds } } := by
  have h₁ : M.popInt s = .ok n { s with data := { s.data with items := .int n :: ds } } := by
    simp only [M.popInt, M.pop, Stack.pop, hd, Bind.bind, EStateM.bind]
    rfl
  have h₂ : M.popInt { s with data := { s.data with items := .int n :: ds } } =
      .ok n { s with data := { s.data with items := ds } } := rfl
  rw [decision, M.bind_ok h₁, M.bind_ok h₂]
  simp
  rfl

/-- The end of a round, whatever the step. -/
theorem finishRound_of_items {s : Machine} {index limit x : Int64} {rest : List Int64}
    (hr : s.return.items = index :: limit :: x :: rest) (step : Int64) (stepped : Bool) :
    finishRound step stepped s =
      if isOver limit (index + step) step stepped then
        .ok true { s with «return» := { s.return with items := rest } }
      else .ok false { s with
        «return» := { s.return with items := (index + step) :: limit :: x :: rest } } := by
  have h₀ : M.peekReturn 0 s = .ok index s := by
    simp [M.peekReturn, Stack.peek, Stack.peek?, hr]
  have h₁ : M.peekReturn 1 s = .ok limit s := by
    simp [M.peekReturn, Stack.peek, Stack.peek?, hr]
  have hset : setIndex (index + step) s = .ok () { s with
      «return» := { s.return with items := (index + step) :: limit :: x :: rest } } := by
    simp [setIndex, Stack.overwrite, Stack.depth, hr]
  rw [finishRound, M.bind_ok h₀, M.bind_ok h₁]
  split
  · rw [M.bind_ok (dropLoop_of_items hr)]
    rfl
  · rw [M.bind_ok hset]
    rfl

/-- The end of a round: the loop is over, or its index is one higher. -/
theorem decision_advanceCount (address : Int64) {i : Int64} {rest : List Int64}
    (hr : s.return.items = i :: limit :: rest) (hrest : rest ≠ []) :
    (advanceCount false).decision address s =
      if limit ≤ i + 1 then
        .ok true { s with «return» := { s.return with items := rest.tail } }
      else .ok false { s with «return» := { s.return with items := (i + 1) :: limit :: rest } } := by
  obtain ⟨x, rest, rfl⟩ := List.exists_cons_of_ne_nil hrest
  show finishRound 1 false s = _
  rw [finishRound_of_items hr]
  simp only [isOver, Bool.false_and, Bool.false_eq_true, if_false, decide_eq_true_eq, List.tail_cons]

end BranchWord

/-- Below a limit, counting does not overflow. -/
theorem toInt_add_one {i limit : Int64} (h : i < limit) : (i + 1).toInt = i.toInt + 1 := by
  have hlt := Int64.lt_iff_toInt_lt.1 h
  have hmax := limit.toInt_lt
  have hmin := i.le_toInt
  rw [Int64.toInt_add, show (1 : Int64).toInt = 1 from rfl,
    Int.bmod_eq_of_le (by omega) (by omega)]

/-! ## Counted loops in the body of a word -/

/-- A counted loop in the body of a word. -/
structure CountedLoop where
  /-- The word that the loop stands in. -/
  word : WordId
  /-- Where the code of the loop starts. -/
  start : Nat
  /-- The code of the loop's body. -/
  body : List Elem
  /-- Whether the loop is skipped when it has nothing to count. -/
  maySkip : Bool

namespace CountedLoop

variable (l : CountedLoop)

/-- Where the body of the loop starts. -/
def entry : Nat := l.start + 3

/-- Where the body of the loop ends. -/
def finish : Nat := l.entry + l.body.length

/-- What comes after the loop. -/
def exit : Nat := l.finish + 3

/-- The code of the loop, with the words `k` for what compiled code runs. -/
def code (k : BranchWord → WordId) : List Elem :=
  Prog.jumpElems k l.exit (.enterCount l.maySkip) ++
    (l.body ++ Prog.jumpElems k l.entry (.advanceCount false))

end CountedLoop

namespace Machine

theorem Stands.eq_standing {w : WordId} {ip : Nat} {rest : List Frame} {runs : List Run}
    {m : Machine} (h : m.Stands w ip rest runs) : m.standing w ip rest runs m.debugger = m := by
  rw [standing, ← h.frames, ← h.runs]

theorem stands_standing (s : Machine) (w : WordId) (ip : Nat) (rest : List Frame) (runs : List Run)
    (d : Debugger) : (s.standing w ip rest runs d).Stands w ip rest runs :=
  ⟨rfl, rfl⟩

end Machine

namespace CountedLoop

open Machine

variable {k : BranchWord → WordId} {l : CountedLoop} {rest : List Frame} {runs : List Run}
  {m s s' : Machine}

/-! ## The rounds of a loop -/

/-- The code of the loop is in the body of its word, and the words `k` that it calls are those that
    came with the machine for it. -/
structure HasCode (k : BranchWord → WordId) (l : CountedLoop) (s : Machine) : Prop where
  composed : (s.heap.word l.word).code = .ok .docol
  code : CodeAt (s.heap.word l.word).body.toList l.start (l.code k)
  words : ∀ b ∈ BranchWord.compiled, s.Gives (k b) (.branch b)

/-- A machine that is about to open the loop.  The limit and the start are on the data stack, and
    there is room for one more value there and for three on the return stack. -/
structure Opens (k : BranchWord → WordId) (l : CountedLoop) (rest : List Frame) (runs : List Run)
    (limit start : Int64) (m : Machine) : Prop where
  code : l.HasCode k m
  stands : m.Stands l.word l.start rest runs
  covers : Covers runs rest
  fits : l.exit < 2 ^ 63
  calm : m.interrupt = false
  counts : ∃ ds, m.data.items = .int start :: .int limit :: ds
  room : m.data.depth < m.data.capacity
  returnRoom : m.return.depth + 3 ≤ m.return.capacity

/-- The machine is in the body of the loop, or in something that the body has called. -/
def Within (l : CountedLoop) (rest : List Frame) (m : Machine) : Prop :=
  ∃ above ip, m.frames = above ++ ⟨l.word, ip⟩ :: rest ∧ l.entry ≤ ip ∧ ip ≤ l.finish

/-- The run stays in the body until it comes to the end of the body for the first time. -/
inductive Through (l : CountedLoop) (rest : List Frame) (runs : List Run) : Machine → Machine → Prop
  | here {m : Machine} (h : m.Stands l.word l.finish rest runs) : Through l rest runs m m
  | step {m m₁ m' : Machine} (hw : l.Within rest m) (hn : ¬ m.Stands l.word l.finish rest runs)
    (hs : m.step = .running m₁) (ht : Through l rest runs m₁ m') : Through l rest runs m m'

/-- The body is run once.  It comes to its end with the return stack as it was, with room for a value
    on the data stack and no interrupt due, and the word that the loop stands in is still
    composed. -/
structure RunsBody (l : CountedLoop) (rest : List Frame) (runs : List Run) (s s' : Machine) :
    Prop where
  through : l.Through rest runs s s'
  keeps : s'.return = s.return
  composed : (s'.heap.word l.word).code = .ok .docol
  calm : s'.interrupt = false
  room : s'.data.depth < s'.data.capacity

/-- The machines at which the body is started, after a number of rounds since the loop was opened. -/
inductive Round (l : CountedLoop) (rest : List Frame) (runs : List Run) (m : Machine) :
    Nat → Machine → Prop
  | first {s : Machine} (hg : Goes 4 m s) (hs : s.Stands l.word l.entry rest runs) :
    Round l rest runs m 0 s
  | next {n : Nat} {s s₁ s' : Machine} (h : Round l rest runs m n s)
    (hb : l.RunsBody rest runs s s₁) (hg : Goes 4 s₁ s')
    (hs : s'.Stands l.word l.entry rest runs) : Round l rest runs m (n + 1) s'

theorem Through.goes (h : l.Through rest runs s s') : ∃ n, Goes n s s' := by
  induction h with
  | here => exact ⟨0, .refl _⟩
  | step _ _ hs _ ih =>
    obtain ⟨n, hn⟩ := ih
    exact ⟨n + 1, .step hs hn⟩

theorem Through.stands (h : l.Through rest runs s s') : s'.Stands l.word l.finish rest runs := by
  induction h with
  | here h => exact h
  | step _ _ _ _ ih => exact ih

theorem HasCode.of_heap (h : l.HasCode k s) (hheap : s'.heap = s.heap) : l.HasCode k s' := by
  refine ⟨?_, ?_, fun b hb => ?_⟩
  · rw [hheap]
    exact h.composed
  · rw [hheap]
    exact h.code
  · obtain ⟨hhas, hbuiltin, hnative⟩ := h.words b hb
    exact ⟨hheap ▸ hhas, hheap ▸ hbuiltin, hheap ▸ hnative⟩

theorem HasCode.holds (h : l.HasCode k s) (hi : s.interrupt = false) :
    Holds k l.word (s.heap.word l.word).body.toList s :=
  ⟨⟨rfl, h.composed, hi⟩, fun b hb => (h.words b hb).code⟩

/-- As long as the word that the loop stands in is composed, the code of the loop stays. -/
theorem HasCode.stays {left? : Option Nat} (hr : Reached (.word left?) s) (h : l.HasCode k s)
    {ip : Nat} (hstand : s.Stands l.word ip rest runs) (ht : l.Through rest runs s s')
    (hc : (s'.heap.word l.word).code = .ok .docol) : l.HasCode k s' := by
  have hframe : (⟨l.word, ip⟩ : Frame) ∈ s.frames := hstand.frames ▸ List.mem_cons_self
  have hbuild : s.compiler.building? ≠ some l.word := by
    intro hb
    obtain ⟨_, ho⟩ := hr.owning
    exact (ho.unreferenced hb).frames _ hframe rfl
  obtain ⟨n, hg⟩ := ht.goes
  have hl : Leads (.word left?) s (.word left?) s' := Leads.goes (.refl _ s) hg
  have hslots := hl.slots_of_docol hr (hr.sound.frames _ hframe).has hbuild
    (Word.code_eq_ok_iff.1 hc)
  refine ⟨hc, ?_, fun b hb => (h.words b hb).leads hr hl⟩
  obtain ⟨pre, post, hes, hpre⟩ := h.code
  have hprefix : (s.heap.word l.word).body.toList <+: (s'.heap.word l.word).body.toList := by
    rw [List.prefix_iff_getElem?]
    intro i hi
    rw [Array.length_toList] at hi
    rw [Array.getElem?_toList, hslots i hi, ← Array.getElem?_toList]
    exact List.getElem?_eq_getElem _
  obtain ⟨more, hmore⟩ := hprefix
  exact ⟨pre, post ++ more, by rw [← hmore, hes]; simp, hpre⟩

/-- A jump of the loop's code. -/
theorem HasCode.jump (h : l.HasCode k s) (hr : Covers runs rest) (hi : s.interrupt = false) {ip t : Nat}
    {b : BranchWord} (hstand : s.Stands l.word ip rest runs)
    (hat : CodeAt (s.heap.word l.word).body.toList ip (Prog.jumpElems k t b))
    (hb : b.Jumps) (ht : 1 ≤ t ∧ t ≤ l.exit) (hfit : l.exit < 2 ^ 63)
    (hroom : s.data.depth < s.data.capacity) {goesOn : Bool} {s₁ : Machine}
    (hdec : b.decision (.ofNat t) s = .ok goesOn s₁) :
    ∃ d, Goes 4 s (s₁.standing l.word (if goesOn then ip + 3 else t) rest runs d) := by
  have hlen := h.code.le
  simp only [CountedLoop.code, List.length_append, Draft.length_jumpElems] at hlen
  simp only [CountedLoop.exit, CountedLoop.finish, CountedLoop.entry] at ht hfit
  obtain ⟨d, hg⟩ := jump_standing hb (h.holds hi) hr hat
    ⟨ht.1, by omega⟩ (by omega) hroom hdec s.debugger
  rw [hstand.eq_standing] at hg
  exact ⟨d, hg⟩

/-- The end of a round: the index is one higher, or the loop is over. -/
theorem HasCode.advance (h : l.HasCode k s) (hr : Covers runs rest) (hi : s.interrupt = false)
    (hstand : s.Stands l.word l.finish rest runs) (hfit : l.exit < 2 ^ 63)
    (hroom : s.data.depth < s.data.capacity) {i limit : Int64} {above : List Int64}
    (hreturn : s.return.items = i :: limit :: above) (habove : above ≠ []) :
    ∃ x, Goes 4 s x ∧ x.heap = s.heap ∧ x.interrupt = false ∧
      ((limit ≤ i + 1 ∧ x.Stands l.word l.exit rest runs ∧
          x.return = { s.return with items := above.tail }) ∨
        (i + 1 < limit ∧ x.Stands l.word l.entry rest runs ∧
          x.return = { s.return with items := (i + 1) :: limit :: above })) := by
  have hat : CodeAt (s.heap.word l.word).body.toList l.finish
      (Prog.jumpElems k l.entry (.advanceCount false)) := h.code.right.right
  have hentry : 1 ≤ l.entry ∧ l.entry ≤ l.exit := by
    simp only [CountedLoop.exit, CountedLoop.finish, CountedLoop.entry]
    omega
  have hdec := BranchWord.decision_advanceCount (.ofNat l.entry) hreturn habove
  by_cases hover : limit ≤ i + 1
  · rw [if_pos hover] at hdec
    obtain ⟨d, hg⟩ := h.jump hr hi hstand hat trivial hentry hfit hroom hdec
    exact ⟨_, hg, rfl, hi, .inl ⟨hover, stands_standing _ _ _ _ _ _, rfl⟩⟩
  · rw [if_neg hover] at hdec
    obtain ⟨d, hg⟩ := h.jump hr hi hstand hat trivial hentry hfit hroom hdec
    exact ⟨_, hg, rfl, hi, .inr ⟨Int64.not_le.1 hover, stands_standing _ _ _ _ _ _, rfl⟩⟩

/-- Wherever the return stack is as it is in `s`, the word pushes the integer. -/
def Reads (b : BranchWord) (s : Machine) (i : Int64) : Prop :=
  ∀ x : Machine, x.return = s.return → b.run x = (do M.push (.int i); pure .next : M Flow) x

theorem reads_index {i : Int64} {above : List Int64} (h : s.return.items = i :: above) :
    Reads .index s i := by
  intro x hx
  have hpeek : M.peekReturn 0 x = .ok i x := by
    simp [M.peekReturn, Stack.peek, Stack.peek?, hx, h]
  show ((M.peekReturn 0 >>= fun n => M.push (.int n)) >>= fun _ => pure Flow.next) x = _
  rw [bind_assoc, M.bind_ok hpeek]

theorem reads_outerIndex {i a b c : Int64} {above : List Int64}
    (h : s.return.items = a :: b :: c :: i :: above) : Reads .outerIndex s i := by
  intro x hx
  have hpeek : M.peekReturn 3 x = .ok i x := by
    simp [M.peekReturn, Stack.peek, Stack.peek?, hx, h]
  show ((M.peekReturn 3 >>= fun n => M.push (.int n)) >>= fun _ => pure Flow.next) x = _
  rw [bind_assoc, M.bind_ok hpeek]

/-- The machine `s` starts the body after `n` rounds of a loop that was opened at `m`. -/
structure Counts (k : BranchWord → WordId) (l : CountedLoop) (rest : List Frame) (runs : List Run)
    (limit start : Int64) (m : Machine) (n : Nat) (s : Machine) : Prop where
  code : l.HasCode k s
  stands : s.Stands l.word l.entry rest runs
  calm : s.interrupt = false
  index : ∃ i : Int64, i.toInt = start.toInt + n ∧ i < limit ∧
    s.return = { m.return with items := i :: limit :: .ofNat l.exit :: m.return.items }

section Rounds

variable {left? : Option Nat} {limit start : Int64} (ho : l.Opens k rest runs limit start m)
include ho

/-- A loop that has something to count comes to its first round. -/
theorem Opens.first (hlt : start < limit) :
    ∃ x, Goes 4 m x ∧ l.Counts k rest runs limit start m 0 x := by
  obtain ⟨ds, hd⟩ := ho.counts
  have hexit : 1 ≤ l.exit ∧ l.exit ≤ l.exit := by
    simp only [CountedLoop.exit]
    omega
  have hne : (l.maySkip && start == limit) = false := by
    simp [Int64.ne_of_lt hlt]
  obtain ⟨d, hg⟩ := ho.code.jump ho.covers ho.calm ho.stands ho.code.code.left trivial hexit ho.fits
    ho.room (BranchWord.decision_enterCount _ hd ho.returnRoom hne)
  exact ⟨_, hg, ho.code.of_heap rfl, stands_standing _ _ _ _ _ _, ho.calm, start,
    by simp, hlt, rfl⟩

/-- What becomes of a round: the next one is started, or the loop has ended. -/
theorem Counts.ends {n : Nat} {s₁ : Machine} (hls : Reached (.word left?) s)
    (h : l.Counts k rest runs limit start m n s) (hb : l.RunsBody rest runs s s₁) :
    ∃ x, Goes 4 s₁ x ∧
      ((start.toInt + n + 1 = limit.toInt ∧ x.Stands l.word l.exit rest runs ∧
          x.return = m.return) ∨
        (start.toInt + n + 1 < limit.toInt ∧ l.Counts k rest runs limit start m (n + 1) x)) := by
  obtain ⟨i, hi, hlt, hreturn⟩ := h.index
  have hcode := h.code.stays hls h.stands hb.through hb.composed
  have hitems : s₁.return.items = i :: limit :: .ofNat l.exit :: m.return.items := by
    rw [hb.keeps, hreturn]
  have hnext := toInt_add_one hlt
  obtain ⟨x, hg, hheap, hcalm, ⟨hover, hx, hr⟩ | ⟨hon, hx, hr⟩⟩ := hcode.advance ho.covers
    hb.calm hb.through.stands ho.fits hb.room hitems (List.cons_ne_nil _ _)
  · refine ⟨x, hg, .inl ⟨?_, hx, ?_⟩⟩
    · have h₁ := Int64.le_iff_toInt_le.1 hover
      have h₂ := Int64.lt_iff_toInt_lt.1 hlt
      omega
    · rw [hr, hb.keeps, hreturn]
      rfl
  · refine ⟨x, hg, .inr ⟨?_, hcode.of_heap hheap, hx, hcalm, i + 1, ?_, hon, ?_⟩⟩
    · have h₁ := Int64.lt_iff_toInt_lt.1 hon
      omega
    · rw [hnext, hi]
      push_cast
      omega
    · rw [hr, hb.keeps, hreturn]

theorem Round.spec (hs : Reached (.word left?) m) (hlt : start < limit) {n : Nat} (h : l.Round rest runs m n s) :
    Reached (.word left?) s ∧ l.Counts k rest runs limit start m n s := by
  induction h with
  | first hg _ =>
    obtain ⟨x, hx, hc⟩ := ho.first hlt
    obtain rfl := hg.unique hx
    exact ⟨hs.goes hg, hc⟩
  | next _ hb hg hstand ih =>
    obtain ⟨hls, hc⟩ := ih
    obtain ⟨j, hj⟩ := hb.through.goes
    obtain ⟨x, hx, ⟨-, hend, -⟩ | ⟨-, hc'⟩⟩ := hc.ends ho hls hb
    · -- Behind the loop no round is started.
      obtain rfl := hg.unique hx
      have hip := hstand.frames.symm.trans hend.frames
      simp only [CountedLoop.exit, CountedLoop.finish, List.cons.injEq, Frame.mk.injEq] at hip
      omega
    · obtain rfl := hg.unique hx
      exact ⟨(hls.goes hj).goes hg, hc'⟩

/-- A loop that may be skipped and has nothing to count: only the data stack and the position
    change. -/
theorem Opens.skips (heq : start = limit) (hskip : l.maySkip = true) :
    ∃ ds d, m.data.items = .int start :: .int limit :: ds ∧
      Goes 4 m { m with
        data := { m.data with items := ds }
        frames := ⟨l.word, l.exit⟩ :: rest
        debugger := d } := by
  obtain ⟨ds, hd⟩ := ho.counts
  have hexit : 1 ≤ l.exit ∧ l.exit ≤ l.exit := by
    simp only [CountedLoop.exit]
    omega
  have hat := ho.code.code.left
  rw [hskip] at hat
  obtain ⟨d, hg⟩ := ho.code.jump ho.covers ho.calm ho.stands hat trivial hexit ho.fits ho.room
    (BranchWord.decision_skipCount _ (heq ▸ hd))
  refine ⟨ds, d, hd, ?_⟩
  rw [standing, ← ho.stands.runs] at hg
  exact hg

/-- The rounds of a loop whose body always comes to its end. -/
theorem Opens.rounds (hs : Reached (.word left?) m) (hlt : start < limit)
    (hbody : ∀ n s, l.Round rest runs m n s → ∃ s', l.RunsBody rest runs s s') (n : Nat)
    (hn : n < (limit.toInt - start.toInt).toNat) : ∃ s, l.Round rest runs m n s := by
  induction n with
  | zero =>
    obtain ⟨x, hg, hc⟩ := ho.first hlt
    exact ⟨x, .first hg hc.stands⟩
  | succ n ih =>
    obtain ⟨s, hr⟩ := ih (by omega)
    obtain ⟨s₁, hb⟩ := hbody n s hr
    obtain ⟨hls, hc⟩ := hr.spec ho hs hlt
    obtain ⟨x, hg, ⟨heq, -, -⟩ | ⟨-, hc'⟩⟩ := hc.ends ho hls hb
    · omega
    · exact ⟨x, hr.next hb hg hc'.stands⟩

end Rounds

end CountedLoop

open Machine CountedLoop in
/-- **How often a counted loop runs its body**, for all integers up to the limits of their range.
    At any moment of a session a loop is opened, with `limit` and `start` on the data stack; in each
    of its rounds the body comes to its end, with the return stack as it was and in a word that is
    still composed.  If `start < limit`, there are exactly `limit - start` rounds; in them `i` yields
    `start`, `start + 1`, and so on up to `limit - 1`, and in a loop that is opened directly inside
    `j` yields the same; after the last round the return stack is as it was before the loop.  A loop
    that may be skipped runs no round if `start = limit`, and changes nothing but the data stack,
    off which it takes the two integers. -/
theorem counted_loop_rounds {left? : Option Nat} {m : Machine} {k : BranchWord → WordId}
    {l : CountedLoop} {rest : List Frame} {runs : List Run} {limit start : Int64}
    (hs : Reached (.word left?) m) (ho : l.Opens k rest runs limit start m)
    (hbody : ∀ n s, l.Round rest runs m n s → ∃ s', l.RunsBody rest runs s s') :
    (start < limit →
      (∀ n, (∃ s, l.Round rest runs m n s) ↔ n < (limit.toInt - start.toInt).toNat) ∧
      (∀ n s, l.Round rest runs m n s → ∃ i : Int64, i.toInt = start.toInt + n ∧
        Reads .index s i ∧
        ∀ (inner : CountedLoop) (rest' : List Frame) (runs' : List Run) (limit' start' : Int64)
          (left'? : Option Nat) (m' : Machine), Reached (.word left'?) m' →
          inner.Opens k rest' runs' limit' start' m' → start' < limit' → m'.return = s.return →
          ∀ n' s', inner.Round rest' runs' m' n' s' → Reads .outerIndex s' i) ∧
      ∃ s s' m', l.Round rest runs m ((limit.toInt - start.toInt).toNat - 1) s ∧
        l.RunsBody rest runs s s' ∧ Goes 4 s' m' ∧ m'.Stands l.word l.exit rest runs ∧
        m'.return = m.return) ∧
    (start = limit → l.maySkip = true →
      (∀ n s, ¬ l.Round rest runs m n s) ∧
      ∃ ds d, m.data.items = .int start :: .int limit :: ds ∧
        Goes 4 m { m with
          data := { m.data with items := ds }
          frames := ⟨l.word, l.exit⟩ :: rest
          debugger := d }) := by
  refine ⟨fun hlt => ⟨fun n => ⟨?_, ho.rounds hs hlt hbody n⟩, ?_, ?_⟩, fun heq hskip => ?_⟩
  · rintro ⟨s, hr⟩
    obtain ⟨-, hc⟩ := hr.spec ho hs hlt
    obtain ⟨i, hi, hil, -⟩ := hc.index
    have := Int64.lt_iff_toInt_lt.1 hil
    omega
  · intro n s hr
    obtain ⟨-, hc⟩ := hr.spec ho hs hlt
    obtain ⟨i, hi, -, hreturn⟩ := hc.index
    refine ⟨i, hi, reads_index (by rw [hreturn]), ?_⟩
    intro inner rest' runs' limit' start' left'? m' hs' ho' hlt' hm' n' s' hr'
    obtain ⟨-, hc'⟩ := hr'.spec ho' hs' hlt'
    obtain ⟨i', -, -, hreturn'⟩ := hc'.index
    exact reads_outerIndex (by rw [hreturn', hm', hreturn])
  · have hpos := Int64.lt_iff_toInt_lt.1 hlt
    obtain ⟨s, hr⟩ := ho.rounds hs hlt hbody ((limit.toInt - start.toInt).toNat - 1) (by omega)
    obtain ⟨s₁, hb⟩ := hbody _ s hr
    obtain ⟨hls, hc⟩ := hr.spec ho hs hlt
    obtain ⟨x, hg, ⟨-, hx, hret⟩ | ⟨hmore, -⟩⟩ := hc.ends ho hls hb
    · exact ⟨s, s₁, x, hr, hb, hg, hx, hret⟩
    · omega
  · obtain ⟨ds, d, hd, hg⟩ := ho.skips heq hskip
    refine ⟨fun n s hr => ?_, ds, d, hd, hg⟩
    -- The first round would have to be where the loop has been passed.
    have hfirst : ∃ x, l.Round rest runs m 0 x := by
      induction hr with
      | first hg' hx => exact ⟨_, .first hg' hx⟩
      | next _ _ _ _ ih => exact ih
    obtain ⟨x, hx⟩ := hfirst
    cases hx with
    | first hg' hstand =>
      obtain rfl := hg.unique hg'
      have hip := hstand.frames
      simp only [CountedLoop.exit, CountedLoop.finish, List.cons.injEq, Frame.mk.injEq] at hip
      omega

namespace Machine

/-- The machine after some steps, if none of them ends the run. -/
def goesTo? : Nat → Machine → Option Machine
  | 0, m => some m
  | n + 1, m =>
    match m.step with
    | .running m₁ => goesTo? n m₁
    | _ => none

theorem goes_of_goesTo? {n : Nat} {m m' : Machine} (h : goesTo? n m = some m') : Goes n m m' := by
  induction n generalizing m with
  | zero =>
    cases h
    exact .refl _
  | succ n ih =>
    unfold goesTo? at h
    split at h
    · exact .step ‹_› (ih h)
    · cases h

/-- Whether a run ends within some steps, and all machines up to there pass a test. -/
def passes (test : Machine → Bool) : Nat → Machine → Bool
  | 0, _ => false
  | n + 1, m =>
    test m && match m.step with
      | .running m₁ => passes test n m₁
      | _ => true

theorem Goes.of_passes {test : Machine → Bool} {fuel n : Nat} {m m' : Machine} (hg : Goes n m m')
    (h : passes test fuel m = true) : test m' = true := by
  induction hg generalizing fuel with
  | refl m =>
    cases fuel with
    | zero => cases h
    | succ fuel => exact (Bool.and_eq_true_iff.1 h).1
  | step hs _ ih =>
    cases fuel with
    | zero => cases h
    | succ fuel =>
      simp only [passes, hs, Bool.and_eq_true] at h
      exact ih h.2

/-- A new machine with what counted loops need. -/
def unlooped : Machine :=
  ofNames {} ([":", ";", "do", "loop", "does>", "(does>)", "drop"] ++
    BranchWord.compiled.map BranchWord.label)

theorem reached_unlooped : Reached .rest unlooped := by
  rw [unlooped, ofNames]
  exact .create _ _

/-- The words of compiled code on this machine. -/
def unloopedWord (b : BranchWord) : WordId :=
  (unlooped.find? b.label).getD ⟨0⟩

/-- The primitive words of this machine. -/
def unloopedBuiltins : List Builtin :=
  [⟨"drop", .stack .drop, false⟩, ⟨"does>", .memory .does, true⟩,
    ⟨"(does>)", .memory .doesRuntime, false⟩, ⟨":", .defining .colon, false⟩,
    ⟨";", .defining .semicolon, true⟩, ⟨"do", .control (.openCount false), true⟩,
    ⟨"loop", .control (.closeCount false), true⟩] ++
    BranchWord.compiled.map fun b => ⟨b.label, .branch b, false⟩

theorem unlooped_eq : unlooped = stocked {} (supply unloopedBuiltins) :=
  ofNames_eq _ _ (by decide) (by decide)

theorem unloopedWord_eq : unloopedWord = fun b =>
    ((stocked {} (supply unloopedBuiltins)).find? b.label).getD ⟨0⟩ := by
  funext b
  rw [unloopedWord, unlooped_eq]

/-- What can be evaluated of a machine that is about to open a loop in a word that is run from
    outside. -/
def CanCount (l : CountedLoop) (limit start : Int64) (m : Machine) : Prop :=
  (m.frames = [⟨l.word, l.start⟩] ∧ m.runs = [⟨0, .outside⟩]) ∧
  ((m.heap.word l.word).code = .ok .docol ∧
    (m.heap.word l.word).body.toList =
      (m.heap.word l.word).body.toList.take l.start ++ (l.code unloopedWord ++ []) ∧
    ((m.heap.word l.word).body.toList.take l.start).length = l.start ∧
    ∀ b ∈ BranchWord.compiled, (unloopedWord b).index < m.heap.words.size ∧
      (m.heap.word (unloopedWord b)).builtin = true ∧
      (m.heap.word (unloopedWord b)).code = .ok (.native (.branch b))) ∧
  l.exit < 2 ^ 63 ∧ m.interrupt = false ∧ m.data.items = [.int start, .int limit] ∧
  m.data.depth < m.data.capacity ∧ m.return.depth + 3 ≤ m.return.capacity

instance (l : CountedLoop) (limit start : Int64) (m : Machine) : Decidable (CanCount l limit start m) :=
  inferInstanceAs (Decidable (_ ∧ _))

theorem CanCount.opens {l : CountedLoop} {limit start : Int64} {m : Machine}
    (h : CanCount l limit start m) : l.Opens unloopedWord [] [⟨0, .outside⟩] limit start m := by
  obtain ⟨⟨hf, hr⟩, ⟨hc, hbody, hlen, hwords⟩, hfit, hi, hd, hroom, hreturn⟩ := h
  exact ⟨⟨hc, ⟨_, _, hbody, hlen⟩, fun b hb => ⟨(hwords b hb).1, (hwords b hb).2.1, (hwords b hb).2.2⟩⟩,
    ⟨hf, hr⟩, ⟨_, _, rfl, Nat.le_refl 0⟩, hfit, hi, ⟨_, hd⟩, hroom, hreturn⟩

/-- The machine with a loop up to the largest integer. -/
def climbing : Machine :=
  afterLine ": w 9223372036854775807 9223372036854775806 do loop ;" unlooped

/-- The machine about to open the loop. -/
def climbingOpens : Machine :=
  (goesTo? 4 (climbing.startRun ⟨32⟩ .outside)).getD default

theorem climbingOpens_spec :
    (processLine 64 (after (fill ": w 9223372036854775807 9223372036854775806 do loop ;"
      unlooped))).isSome = true ∧ climbing.find? "w" = some ⟨32⟩ ∧
    (goesTo? 4 (climbing.startRun ⟨32⟩ .outside)).isSome = true ∧
    CanCount ⟨⟨32⟩, 5, [], false⟩ 9223372036854775807 9223372036854775806 climbingOpens ∧
    (goesTo? 4 climbingOpens).any (fun s => decide (s.data.depth < s.data.capacity)) = true := by
  simp only [CanCount, climbingOpens, climbing, unloopedWord_eq, unlooped_eq]
  decide +kernel

theorem reached_opens {m : Machine} {name : String} {w : WordId} {n : Nat} (h : Reached .rest m)
    (hw : m.find? name = some w) (hg : (goesTo? n (m.startRun w .outside)).isSome = true) :
    Reached (.word none) ((goesTo? n (m.startRun w .outside)).getD default) := by
  obtain ⟨x, hx⟩ := Option.isSome_iff_exists.1 hg
  rw [hx]
  exact (h.run hw).goes (goes_of_goesTo? hx)

open CountedLoop in
/-- The largest integer as the limit: the loop has one round, and ends. -/
theorem counted_loop_rounds_to_maximum : ∃ (m : Machine) (l : CountedLoop) (rest : List Frame)
    (runs : List Run), Reached (.word none) m ∧
    l.Opens unloopedWord rest runs 9223372036854775807 9223372036854775806 m ∧
    (∀ n, (∃ s, l.Round rest runs m n s) ↔ n < 1) ∧
    ∃ n m', Goes n m m' ∧ m'.Stands l.word l.exit rest runs ∧ m'.return = m.return := by
  obtain ⟨hline, hfind, hgoes, hcan, hroom⟩ := climbingOpens_spec
  have hs : Reached (.word none) climbingOpens :=
    reached_opens (Reached.afterLine reached_unlooped hline) hfind hgoes
  have ho := hcan.opens
  have hlt : (9223372036854775806 : Int64) < 9223372036854775807 := by decide
  obtain ⟨x, hx, hdepth⟩ := (Option.any_eq_true _ _).1 hroom
  have hbody : ∀ n s, Round ⟨⟨32⟩, 5, [], false⟩ [] [⟨0, .outside⟩] climbingOpens n s →
      ∃ s', RunsBody ⟨⟨32⟩, 5, [], false⟩ [] [⟨0, .outside⟩] s s' := by
    intro n s hr
    obtain ⟨-, hc⟩ := hr.spec ho hs hlt
    refine ⟨s, .here hc.stands, rfl, hc.code.composed, hc.calm, ?_⟩
    cases hr with
    | first hg _ =>
      obtain rfl := hg.unique (goes_of_goesTo? hx)
      exact of_decide_eq_true hdepth
    | next =>
      -- There is no second round.
      obtain ⟨i, hi, hil, -⟩ := hc.index
      have h₁ := Int64.lt_iff_toInt_lt.1 hil
      have h₂ : (9223372036854775806 : Int64).toInt = 9223372036854775806 := rfl
      have h₃ : (9223372036854775807 : Int64).toInt = 9223372036854775807 := rfl
      push_cast at hi
      omega
  have hone : ((9223372036854775807 : Int64).toInt - (9223372036854775806 : Int64).toInt).toNat = 1 := by
    decide
  obtain ⟨hcount, -, s, s', m', hr, hb, hg, hexit, hreturn⟩ :=
    (counted_loop_rounds hs ho hbody).1 hlt
  rw [hone] at hcount hr
  obtain ⟨j, hj⟩ := hb.through.goes
  refine ⟨_, _, _, _, hs, ho, hcount, ?_⟩
  cases hr with
  | first hg' _ => exact ⟨_, m', (hg'.trans hj).trans hg, hexit, hreturn⟩

/-- The machine with a loop whose body gives the word that it stands in an action. -/
def breaking : Machine :=
  afterLine ": w 3 0 do d loop ;" (afterLine ": d does> drop ;" unlooped)

/-- The machine about to open the loop. -/
def breakingOpens : Machine :=
  (goesTo? 4 (breaking.startRun ⟨33⟩ .outside)).getD default

/-- The machine in the first round of the loop, after some steps. -/
def breakingRound : Nat → Machine
  | 0 => (goesTo? 4 breakingOpens).getD default
  | n + 1 => (breakingRound n).step.machine

theorem breakingRound_eq (n : Nat) : breakingRound n =
    n.repeat (fun m => m.step.machine) ((goesTo? 4 breakingOpens).getD default) := by
  induction n with
  | zero => rw [breakingRound, Nat.repeat]
  | succ n ih => rw [breakingRound, ih, Nat.repeat]

theorem breakingOpens_spec :
    ((processLine 64 (after (fill ": d does> drop ;" unlooped))).isSome = true ∧
      (processLine 64 (after (fill ": w 3 0 do d loop ;"
        (afterLine ": d does> drop ;" unlooped)))).isSome = true ∧
      breaking.find? "w" = some ⟨33⟩ ∧
      (goesTo? 4 (breaking.startRun ⟨33⟩ .outside)).isSome = true ∧
      CanCount ⟨⟨33⟩, 5, [.call ⟨32⟩], false⟩ 3 0 breakingOpens) ∧
    ((goesTo? 4 breakingOpens).isSome = true ∧
      (∀ n ∈ [0, 1, 2], ((breakingRound n).step matches .running _) = true) ∧
      (breakingRound 0).frames = [⟨⟨33⟩, 8⟩] ∧
      (breakingRound 1).frames = [⟨⟨32⟩, 1⟩, ⟨⟨33⟩, 9⟩] ∧
      (breakingRound 2).frames = [⟨⟨2⟩, 1⟩, ⟨⟨32⟩, 2⟩, ⟨⟨33⟩, 9⟩] ∧
      (breakingRound 0).runs = [⟨0, .outside⟩] ∧
      (breakingRound 3).frames = [⟨⟨33⟩, 9⟩] ∧ (breakingRound 3).runs = [⟨0, .outside⟩]) ∧
    (breakingRound 3).return = (breakingRound 0).return ∧ (breakingRound 3).interrupt = false ∧
    (breakingRound 3).data.depth < (breakingRound 3).data.capacity ∧
    passes (fun x => decide (x.frames ≠ [⟨⟨33⟩, 8⟩])) 8 (breakingRound 3) = true ∧
    (steps 32 breakingOpens).any (fun r => match r with
      | .ok _ x => decide (x.return.items = [0, 3, 12])
      | .error _ _ => false) = true ∧ breakingOpens.return.items = [] := by
  simp only [CanCount, breakingRound_eq, breakingOpens, breaking, unloopedWord_eq, unlooped_eq]
  decide +kernel

open CountedLoop in
/-- A body that comes to its end and leaves the return stack as it was, but gives the word that the
    loop stands in an action: the loop has only one of its three rounds, and its record stays on the
    return stack. -/
theorem counted_loop_breaks_off : ∃ (m s s' x : Machine) (l : CountedLoop) (rest : List Frame)
    (runs : List Run) (fuel : Nat), Reached (.word none) m ∧
    l.Opens unloopedWord rest runs 3 0 m ∧ l.Round rest runs m 0 s ∧ l.Through rest runs s s' ∧
    s'.return = s.return ∧ s'.interrupt = false ∧ s'.data.depth < s'.data.capacity ∧
    (∀ n y, Goes n s' y → ¬ y.Stands l.word l.entry rest runs) ∧
    steps fuel m = some (.ok () x) ∧ m.return.items = [] ∧ x.return.items = [0, 3, 12] := by
  obtain ⟨⟨h₁, h₂, hfind, hgoes, hcan⟩, ⟨hfirst, hrun, hf₀, hf₁, hf₂, hr₀, hf₃, hr₃⟩, hreturn, hcalm,
    hroom, hpass, hend, hempty⟩ := breakingOpens_spec
  have hs : Reached (.word none) breakingOpens :=
    reached_opens (Reached.afterLine (Reached.afterLine reached_unlooped h₁) h₂) hfind hgoes
  obtain ⟨s, hs₀⟩ := Option.isSome_iff_exists.1 hfirst
  have hround : breakingRound 0 = s := by rw [breakingRound, hs₀]; rfl
  have hbody : ∀ n ∈ [0, 1, 2], (breakingRound n).step = .running (breakingRound (n + 1)) :=
    fun n hn => step_eq_running (hrun n hn)
  have hthrough : Through ⟨⟨33⟩, 5, [.call ⟨32⟩], false⟩ [] [⟨0, .outside⟩] (breakingRound 0)
      (breakingRound 3) := by
    refine .step ⟨[], 8, hf₀, by decide, by decide⟩ (fun h => ?_) (hbody 0 (by decide)) <|
      .step ⟨[⟨⟨32⟩, 1⟩], 9, hf₁, by decide, by decide⟩ (fun h => ?_) (hbody 1 (by decide)) <|
      .step ⟨[⟨⟨2⟩, 1⟩, ⟨⟨32⟩, 2⟩], 9, hf₂, by decide, by decide⟩ (fun h => ?_) (hbody 2 (by decide)) (.here ⟨hf₃, hr₃⟩)
    · cases hf₀.symm.trans h.frames
    · cases hf₁.symm.trans h.frames
    · cases hf₂.symm.trans h.frames
  obtain ⟨r, hr, hx⟩ := (Option.any_eq_true _ _).1 hend
  cases r with
  | error e x => cases hx
  | ok u x =>
    refine ⟨_, _, _, x, _, _, _, 32, hs, hcan.opens,
      .first (hround ▸ goes_of_goesTo? hs₀) ⟨hf₀, hr₀⟩, hthrough, hreturn, hcalm, hroom, ?_, hr,
      hempty, of_decide_eq_true hx⟩
    intro n y hg hy
    exact of_decide_eq_true (hg.of_passes hpass) hy.frames

end Machine

end ThreadedForth
