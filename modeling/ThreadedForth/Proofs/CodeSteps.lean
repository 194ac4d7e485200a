/-
  The steps of compiled code: literals, jumps and calls.
-/
import Mathlib.Algebra.GroupWithZero.Nat
import ThreadedForth.Proofs.Evaluation

namespace ThreadedForth

/-! ## Code in a body -/

/-- Elements that stand in a body from a position on. -/
def CodeAt (es : List Elem) (a : Nat) (xs : List Elem) : Prop :=
  ∃ pre post, es = pre ++ (xs ++ post) ∧ pre.length = a

namespace CodeAt

variable {es xs ys : List Elem} {x : Elem} {a : Nat}

theorem get (h : CodeAt es a (x :: xs)) : es[a]? = some x := by
  obtain ⟨pre, post, rfl, rfl⟩ := h
  simp

theorem left (h : CodeAt es a (xs ++ ys)) : CodeAt es a xs := by
  obtain ⟨pre, post, rfl, rfl⟩ := h
  exact ⟨pre, ys ++ post, by simp, rfl⟩

theorem right (h : CodeAt es a (xs ++ ys)) : CodeAt es (a + xs.length) ys := by
  obtain ⟨pre, post, rfl, rfl⟩ := h
  exact ⟨pre ++ xs, post, by simp, by simp⟩

theorem le (h : CodeAt es a xs) : a + xs.length ≤ es.length := by
  obtain ⟨pre, post, rfl, rfl⟩ := h
  simp only [List.length_append]
  omega

end CodeAt

namespace Machine

variable {k : BranchWord → WordId} {w c : WordId} {es : List Elem} {s s₁ : Machine} {ip t : Nat}
  {d : Debugger}

/-- The machine with a word running from outside that stands at a position. -/
def inside (s : Machine) (w : WordId) (ip : Nat) (d : Debugger) : Machine :=
  { s with
    frames := ⟨w, ip⟩ :: s.frames
    runs := ⟨s.frames.length, .outside⟩ :: s.runs
    debugger := d }

/-- The machine after the last frame of a run from outside. -/
def back (s : Machine) (d : Debugger) : Machine :=
  { s with runs := ⟨s.frames.length, .outside⟩ :: s.runs, debugger := d }

/-- The innermost of the runs began no higher than at the frames. -/
def Covers (rs : List Run) (fs : List Frame) : Prop :=
  ∃ r rs', rs = r :: rs' ∧ r.base ≤ fs.length

/-- The innermost frame is one of the word, at a position and above the frames `rest`. -/
structure Stands (w : WordId) (ip : Nat) (rest : List Frame) (runs : List Run) (m : Machine) :
    Prop where
  frames : m.frames = ⟨w, ip⟩ :: rest
  runs : m.runs = runs

/-- A machine on which the composed word `w` has the body `es`, and no interrupt is due. -/
structure Carries (w : WordId) (es : List Elem) (s : Machine) : Prop where
  body : (s.heap.word w).body.toList = es
  code : (s.heap.word w).code = .ok .docol
  calm : s.interrupt = false

/-- A machine on which the word `w` has the body `es`, and the words of compiled code are `k`. -/
structure Holds (k : BranchWord → WordId) (w : WordId) (es : List Elem) (s : Machine) : Prop
    extends Carries w es s where
  words : ∀ b ∈ BranchWord.compiled, (s.heap.word (k b)).code = .ok (.native (.branch b))

theorem Holds.steady (h : Holds k w es s) (hs : Steady k w s s₁) : Holds k w es s₁ where
  body := by rw [hs.word, h.body]
  code := by rw [hs.word, h.code]
  words b hb := by rw [hs.words b hb, h.words b hb]
  calm := hs.calm h.calm

theorem Carries.get (h : Carries w es s) (i : Nat) : (s.heap.word w).body[i]? = es[i]? := by
  rw [← h.body, Array.getElem?_toList]

/-! ## Single steps -/

theorem step_inside (h : Carries w es s) (ip : Nat) (d : Debugger) :
    (s.inside w ip d).step = (s.inside w ip d).stepElement ⟨w, ip⟩ s.frames := by
  have hc : ((s.inside w ip d).heap.word w).code = .ok .docol := h.code
  rw [step_of_frame (m := s.inside w ip d) (r := ⟨s.frames.length, .outside⟩) rfl rfl
    (Nat.lt_succ_self _) h.calm, stepFrame]
  simp only [hc]

/-- A call takes a step. -/
theorem step_call (h : Carries w es s) (hget : es[ip]? = some (.call c)) (d : Debugger) :
    ∃ d', (s.inside w ip d).step = .running ((s.inside w (ip + 1) d').enter c) := by
  have hg : ((s.inside w ip d).heap.word w).body[ip]? = some (.call c) := (h.get ip).trans hget
  rw [step_inside h, stepElement_eq]
  simp only [hg]
  exact ⟨_, rfl⟩

theorem step_native {p : Primitive} (hc : (s.heap.word c).code = .ok (.native p))
    (hi : s.interrupt = false) (ip : Nat) (d : Debugger) :
    ((s.inside w ip d).enter c).step = settle (p.run ((s.inside w ip d).enter c)) := by
  have hc' : (((s.inside w ip d).enter c).heap.word c).code = .ok (.native p) := hc
  rw [step_of_frame (m := (s.inside w ip d).enter c) (r := ⟨s.frames.length, .outside⟩) rfl rfl
    (by show s.frames.length < s.frames.length + 1 + 1; omega) hi, stepFrame]
  simp only [hc']

/-- The end of the body. -/
theorem step_end (h : Carries w es s) (d : Debugger) :
    (s.inside w es.length d).step = .running (s.back d) := by
  have hg : ((s.inside w es.length d).heap.word w).body[es.length]? = none := by
    rw [← List.getElem?_eq_none (Nat.le_refl es.length)]
    exact h.get es.length
  rw [step_inside h, stepElement_eq]
  simp only [hg]
  rfl

theorem step_back (s : Machine) (d : Debugger) :
    (s.back d).step = .ended { s with debugger := d } :=
  step_of_back (m := s.back d) (r := ⟨s.frames.length, .outside⟩) rfl (Nat.le_refl _)

theorem fail_inside (s : Machine) (w c : WordId) (ip : Nat) (d : Debugger) (e : Error) :
    ((s.inside w ip d).enter c).fail e = .failed e { s with debugger := d } := by
  have hf : (((s.inside w ip d).enter c).truncateFrames s.frames.length).frames = s.frames :=
    truncateFrames_frames (show _ = [⟨c, 1⟩, ⟨w, ip⟩] ++ s.frames from rfl)
  show Progress.failed e { s with
    frames := (((s.inside w ip d).enter c).truncateFrames s.frames.length).frames
    debugger := d } = _
  rw [hf]

/-- A primitive of the code that goes on at another position. -/
theorem goes_native {p : Primitive} (h : Carries w es s) (hget : es[ip]? = some (.call c))
    (hc : (s.heap.word c).code = .ok (.native p)) (d : Debugger) {ip' : Nat}
    (hrun : ∀ d, p.run ((s.inside w (ip + 1) d).enter c) = .ok .next ((s₁.inside w ip' d).enter c)) :
    ∃ d', Goes 2 (s.inside w ip d) (s₁.inside w ip' d') := by
  obtain ⟨d', hstep⟩ := step_call h hget d
  refine ⟨d', .step hstep (.one ?_)⟩
  rw [step_native hc h.calm, hrun]
  rfl

/-- A primitive of the code that fails. -/
theorem steps_native {p : Primitive} {e : Error} (h : Carries w es s)
    (hget : es[ip]? = some (.call c)) (hc : (s.heap.word c).code = .ok (.native p))
    (d : Debugger) {ip' : Nat}
    (hrun : ∀ d, p.run ((s.inside w (ip + 1) d).enter c) = .error e ((s₁.inside w ip' d).enter c)) :
    ∃ d', steps 2 (s.inside w ip d) = some (.error e { s₁ with debugger := d' }) := by
  obtain ⟨d', hstep⟩ := step_call h hget d
  refine ⟨d', ?_⟩
  have hfail : ((s.inside w (ip + 1) d').enter c).step = .failed e { s₁ with debugger := d' } := by
    rw [step_native hc h.calm, hrun]
    exact fail_inside s₁ w c ip' d' e
  rw [steps_succ_of_running hstep, steps, hfail]

/-! ## Jumps -/

/-- A computation on the stacks is the same inside the code. -/
theorem inside_stacks {α : Type} {act : M α} (hb : Blind act) (ho : OnStacks act)
    (s : Machine) (w c : WordId) (ip : Nat) (d : Debugger) :
    act ((s.inside w ip d).enter c) = alter (fun x => (x.inside w ip d).enter c) (act s) := by
  have hw : (s.inside w ip d).enter c = s.within
      ⟨⟨c, 1⟩ :: ⟨w, ip⟩ :: s.frames, ⟨s.frames.length, .outside⟩ :: s.runs, d⟩ := rfl
  obtain ⟨x, y, hx⟩ := ho s
  rw [hw, hb]
  cases hr : act s with
  | ok a s' =>
    rw [hr] at hx
    obtain rfl : s' = _ := hx
    rfl
  | error e s' =>
    rw [hr] at hx
    obtain rfl : s' = _ := hx
    rfl

theorem inside_ok {α : Type} {act : M α} (hb : Blind act) (ho : OnStacks act) {v : α}
    (h : act s = .ok v s₁) (w c : WordId) (ip : Nat) (d : Debugger) :
    act ((s.inside w ip d).enter c) = .ok v ((s₁.inside w ip d).enter c) := by
  rw [inside_stacks hb ho, h]
  rfl

theorem inside_error {α : Type} {act : M α} (hb : Blind act) (ho : OnStacks act) {e : Error}
    (h : act s = .error e s₁) (w c : WordId) (ip : Nat) (d : Debugger) :
    act ((s.inside w ip d).enter c) = .error e ((s₁.inside w ip d).enter c) := by
  rw [inside_stacks hb ho, h]
  rfl

/-- The caller is moved to a position of its body. -/
theorem jumpTo_inside (h : Carries w es s) (ht : 1 ≤ t ∧ t ≤ es.length) (hlen : es.length < 2 ^ 63)
    (ip : Nat) (d : Debugger) :
    BranchWord.jumpTo (.ofNat t) ((s.inside w ip d).enter c) =
      .ok () ((s.inside w t d).enter c) := by
  have hi : (Int64.ofNat t).toInt = t := Int64.toInt_ofNat_of_lt (by omega)
  have hsize : (s.heap.word w).size = es.length := by
    rw [Word.size, ← Array.length_toList, h.body]
  show (if 1 ≤ (Int64.ofNat t).toInt ∧ (Int64.ofNat t).toInt ≤ ((s.heap.word w).size : Int) then
    M.setParentIp (Int64.ofNat t).toInt.toNat else _ : M Unit) _ = _
  rw [hi, hsize, if_pos (by omega)]
  rfl

/-- The value of a literal is pushed, and its place is passed. -/
theorem run_literal (h : Carries w es s) {v : Value} (hget : es[ip]? = some (.lit v))
    (hip : ip ≠ 0) (c : WordId) (d : Debugger) :
    (Primitive.branch .inlineLiteral).run ((s.inside w ip d).enter c) =
      match M.push v s with
      | .ok _ s₁ => .ok .next ((s₁.inside w (ip + 1) d).enter c)
      | .error e s₁ => .error e ((s₁.inside w (ip + 1) d).enter c) := by
  have hload : (s.heap.word w).load ip = .ok v := by
    rw [Word.load, h.get, hget]
    simp [hip]
  have hact : BranchWord.act .inlineLiteral ((s.inside w ip d).enter c) =
      M.push v ((s.inside w (ip + 1) d).enter c) := by
    show (M.lift ((s.heap.word w).load ip) >>= fun v => M.setParentIp (ip + 1) >>= fun _ =>
      M.push v) ((s.inside w ip d).enter c) = _
    rw [hload]
    rfl
  show (BranchWord.act .inlineLiteral >>= fun _ => pure Flow.next) _ = _
  cases hp : M.push v s with
  | ok _ s₁ =>
    exact M.bind_ok (hact.trans (inside_ok (M.push_blind v) (.push v) hp w c (ip + 1) d))
  | error e s₁ =>
    exact M.bind_error (hact.trans (inside_error (M.push_blind v) (.push v) hp w c (ip + 1) d))

end Machine

namespace BranchWord

/-- The words that take their target off the data stack. -/
def Jumps : BranchWord → Prop
  | jump | jumpIfFalse | enterCount _ | advanceCount _ => True
  | _ => False

theorem decision_blind (address : Int64) (b : BranchWord) : Blind (b.decision address) := by
  cases b with
  | jumpIfFalse => exact M.popFlag_blind
  | enterCount maySkip =>
    exact M.popInt_blind.bind fun _ => M.popInt_blind.bind fun _ =>
      .ite (.pure _) ((openLoop_blind _ _ _).bind fun _ => .pure _)
  | advanceCount stepped =>
    have hstep : Blind (loopStep stepped) := .ite M.popInt_blind (.pure _)
    exact hstep.bind fun _ => (M.peekReturn_blind 0).bind fun _ => (M.peekReturn_blind 1).bind fun _ =>
      .ite (dropLoop_blind.bind fun _ => .pure _) ((setIndex_blind _).bind fun _ => .pure _)
  | _ => exact .pure _

/-- A jump is a decision, and what follows from it. -/
theorem act_eq {b : BranchWord} (hb : b.Jumps) :
    b.act = M.popInt >>= fun address => b.decision address >>= fun goesOn =>
      if goesOn then pure () else jumpTo address := by
  cases b with
  | jump => simp [act, decision]
  | jumpIfFalse =>
    simp only [act, decision]
    congr 1
    funext address
    congr 1
    funext flag
    cases flag <;> rfl
  | enterCount maySkip =>
    simp only [act, decision, bind_assoc]
    congr 1
    funext exit
    congr 1
    funext start
    congr 1
    funext limit
    split <;> simp
  | advanceCount stepped =>
    have hround : ∀ entry step, advance entry step stepped =
        (finishRound step stepped >>= fun goesOn => if goesOn then pure () else jumpTo entry) := by
      intro entry step
      simp only [advance, finishRound, bind_assoc]
      congr 1
      funext index
      congr 1
      funext limit
      split <;> simp
    simp only [act, decision, hround, bind_assoc]
    cases stepped <;> rfl
  | _ => exact hb.elim

/-- A jump without a condition always jumps. -/
theorem jump_choose {target : Nat} {c : Bool} {s s₁ : Machine}
    (h : jump.choose target s = .ok c s₁) : c = false := by
  obtain ⟨_, m₁, -, h⟩ := M.of_bind_ok h
  cases h
  rfl

theorem Jumps.mem {b : BranchWord} (hb : b.Jumps) : b ∈ compiled := by
  cases b with
  | jump | jumpIfFalse => decide
  | enterCount maySkip => cases maySkip <;> decide
  | advanceCount stepped => cases stepped <;> decide
  | _ => exact hb.elim

end BranchWord

namespace Machine

variable {k : BranchWord → WordId} {w c : WordId} {es : List Elem} {s s₁ : Machine} {ip t : Nat}
  {d : Debugger} {b : BranchWord}

/-- The machine with the target of a jump on its data stack. -/
def withTarget (s : Machine) (t : Nat) : Machine :=
  { s with data := { s.data with items := .nat t :: s.data.items } }

/-- A jump, once its target is on the data stack. -/
theorem run_jump (hb : b.Jumps) (h : Holds k w es s) (ht : 1 ≤ t ∧ t ≤ es.length)
    (hlen : es.length < 2 ^ 63) (c : WordId) (ip : Nat) (d : Debugger) :
    (Primitive.branch b).run (((s.withTarget t).inside w ip d).enter c) =
      match b.decision (.ofNat t) s with
      | .ok true s₁ => .ok .next ((s₁.inside w ip d).enter c)
      | .ok false s₁ => .ok .next ((s₁.inside w t d).enter c)
      | .error e s₁ => .error e ((s₁.inside w ip d).enter c) := by
  have hpop : M.popInt (((s.withTarget t).inside w ip d).enter c) =
      .ok (.ofNat t) ((s.inside w ip d).enter c) := rfl
  have hrun : (Primitive.branch b).run = (b.act >>= fun _ => pure .next) := by
    cases b with
    | exit => exact hb.elim
    | _ => rfl
  have hact : b.act (((s.withTarget t).inside w ip d).enter c) =
      (b.decision (.ofNat t) >>= fun goesOn =>
        if goesOn then pure () else BranchWord.jumpTo (.ofNat t)) ((s.inside w ip d).enter c) := by
    rw [BranchWord.act_eq hb, M.bind_ok hpop]
  have hblind := BranchWord.decision_blind (.ofNat t) b
  have hstacks := OnStacks.decision (.ofNat t) b
  rw [hrun]
  cases hdec : b.decision (.ofNat t) s with
  | error e s₁ =>
    refine M.bind_error (hact.trans (M.bind_error ?_))
    exact inside_error hblind hstacks hdec w c ip d
  | ok goesOn s₁ =>
    have hs₁ : Holds k w es s₁ := h.steady (.of_onStacks hstacks hdec)
    cases goesOn with
    | true =>
      have hgo : b.act (((s.withTarget t).inside w ip d).enter c) =
          .ok () ((s₁.inside w ip d).enter c) := by
        rw [hact, M.bind_ok (inside_ok hblind hstacks hdec w c ip d)]
        rfl
      exact M.bind_ok hgo
    | false =>
      have hgo : b.act (((s.withTarget t).inside w ip d).enter c) =
          .ok () ((s₁.inside w t d).enter c) := by
        rw [hact, M.bind_ok (inside_ok hblind hstacks hdec w c ip d)]
        exact jumpTo_inside hs₁.toCarries ht hlen ip d
      exact M.bind_ok hgo

/-- A literal of the code. -/
theorem literal_goes (h : Carries w es s)
    (hc : (s.heap.word c).code = .ok (.native (.branch .inlineLiteral))) {v : Value}
    (hat : CodeAt es ip [.call c, .lit v]) (d : Debugger) :
    match M.push v s with
    | .ok _ s₁ => ∃ d', Goes 2 (s.inside w ip d) (s₁.inside w (ip + 2) d')
    | .error e s₁ => ∃ d', steps 2 (s.inside w ip d) = some (.error e { s₁ with debugger := d' }) := by
  have hat' : CodeAt es ip ([.call c] ++ [.lit v]) := hat
  have hlit : es[ip + 1]? = some (.lit v) := hat'.right.get
  have hrun := fun d => run_literal h hlit (Nat.succ_ne_zero ip) c d
  cases hp : M.push v s with
  | ok _ s₁ =>
    rw [hp] at hrun
    exact goes_native h hat.get hc d hrun
  | error e s₁ =>
    rw [hp] at hrun
    exact steps_native h hat.get hc d hrun

/-- The machine comes to the jump `b` of the code, which has the target `t`. -/
structure AtJump (k : BranchWord → WordId) (w : WordId) (es : List Elem) (b : BranchWord)
    (t ip : Nat) (s : Machine) : Prop where
  jumps : b.Jumps
  holds : Holds k w es s
  code : CodeAt es ip (Prog.jumpElems k t b)
  target : 1 ≤ t ∧ t ≤ es.length
  fits : es.length < 2 ^ 63

/-- **A jump of the code.**  It goes where the decision says. -/
theorem AtJump.goes (hj : AtJump k w es b t ip s) (d : Debugger) :
    match b.choose t s with
    | .ok true s₁ => ∃ d', Goes 4 (s.inside w ip d) (s₁.inside w (ip + 3) d')
    | .ok false s₁ => ∃ d', Goes 4 (s.inside w ip d) (s₁.inside w t d')
    | .error e s₁ => ∃ n d', steps n (s.inside w ip d) =
        some (.error e { s₁ with debugger := d' }) := by
  obtain ⟨hb, h, hat, ht, hlen⟩ := hj
  have hat' : CodeAt es ip ([.call (k .inlineLiteral), .lit (.nat t)] ++ [.call (k b)]) := hat
  have hlit := literal_goes h.toCarries (h.words .inlineLiteral (by decide)) hat'.left d
  have hget : es[ip + 2]? = some (.call (k b)) := hat'.right.get
  by_cases hroom : s.data.depth < s.data.capacity
  · have hpush : M.push (.nat t) s = .ok () (s.withTarget t) := by
      simp only [M.push, Stack.push, hroom, if_true]
      rfl
    have hensure : StackWord.ensureRoom 1 s = .ok () s := by
      show M.lift (s.data.ensureRoom 1) s = _
      rw [Stack.ensureRoom, if_neg (by omega)]
      rfl
    have hchoose : b.choose t s = b.decision (.ofNat t) s := M.bind_ok hensure
    rw [hpush] at hlit
    obtain ⟨d₁, hgoes⟩ := hlit
    have hs' : Holds k w es (s.withTarget t) := ⟨⟨h.body, h.code, h.calm⟩, h.words⟩
    have hrun := fun d => run_jump hb h ht hlen (k b) (ip + 2 + 1) d
    have hcode := hs'.words b hb.mem
    rw [hchoose]
    cases hdec : b.decision (.ofNat t) s with
    | error e s₁ =>
      rw [hdec] at hrun
      obtain ⟨d₂, hsteps⟩ := steps_native hs'.toCarries hget hcode d₁ hrun
      exact ⟨2 + 2, d₂, by rw [steps_of_goes hgoes, hsteps]⟩
    | ok goesOn s₁ =>
      rw [hdec] at hrun
      cases goesOn with
      | true =>
        obtain ⟨d₂, hgoes₂⟩ := goes_native hs'.toCarries hget hcode d₁ hrun
        exact ⟨d₂, hgoes.trans hgoes₂⟩
      | false =>
        obtain ⟨d₂, hgoes₂⟩ := goes_native hs'.toCarries hget hcode d₁ hrun
        exact ⟨d₂, hgoes.trans hgoes₂⟩
  · have hpush : M.push (.nat t) s = .error (.stackFull s.data.kind) s := by
      simp only [M.push, Stack.push, hroom, if_false]
    have hensure : StackWord.ensureRoom 1 s = .error (.stackFull s.data.kind) s := by
      show M.lift (s.data.ensureRoom 1) s = _
      rw [Stack.ensureRoom, if_pos (by omega)]
      rfl
    have hchoose : b.choose t s = .error (.stackFull s.data.kind) s := M.bind_error hensure
    rw [hpush] at hlit
    rw [hchoose]
    obtain ⟨d₁, hsteps⟩ := hlit
    exact ⟨2, d₁, hsteps⟩

namespace AtJump

variable (hj : AtJump k w es b t ip s)
include hj

theorem goes_on (d : Debugger) (hc : b.choose t s = .ok true s₁) :
    ∃ d', Goes 4 (s.inside w ip d) (s₁.inside w (ip + 3) d') := by
  have h := hj.goes d
  rwa [hc] at h

theorem goes_to (d : Debugger) (hc : b.choose t s = .ok false s₁) :
    ∃ d', Goes 4 (s.inside w ip d) (s₁.inside w t d') := by
  have h := hj.goes d
  rwa [hc] at h

theorem fails (d : Debugger) {e : Error} (hc : b.choose t s = .error e s₁) :
    ∃ n d', steps n (s.inside w ip d) = some (.error e { s₁ with debugger := d' }) := by
  have h := hj.goes d
  rwa [hc] at h

end AtJump

/-! ## Calls -/

/-- A word that is called, and the same word run on its own. -/
theorem beside_call (s : Machine) (w c : WordId) (ip : Nat) (d : Debugger) :
    Beside s.frames.length (s.frames.length + 1) s.runs [] ((s.inside w ip d).enter c)
      ((s.calling w ip).startRun c .outside) :=
  ⟨s.debugger, rfl, nofun, rfl⟩

/-- A call of the code that comes back. -/
theorem call_goes (h : Carries w es s) (hget : es[ip]? = some (.call c))
    (hs : StaysCalm (s.frames.length + 1) s.runs ((s.calling w (ip + 1)).startRun c .outside)) {fuel : Nat} {m' : Machine}
    (hr : (s.calling w (ip + 1)).execute fuel c = some (.ok () m'))
    (hframes : m'.frames = ⟨w, ip + 1⟩ :: s.frames) (d : Debugger) :
    ∃ n d', Goes n (s.inside w ip d) (m'.popFrame.inside w (ip + 1) d') := by
  obtain ⟨d₁, hstep⟩ := step_call h hget d
  obtain ⟨n, d₂, hgoes⟩ := (beside_call s w c (ip + 1) d₁).goes_of_ok (Nat.lt_succ_self _) hs hr
  have hruns : m'.runs = s.runs := (execute_restores hr).runs
  refine ⟨n + 1, d₂, .step hstep ?_⟩
  have heq : { m' with runs := ⟨s.frames.length, .outside⟩ :: s.runs, debugger := d₂ } =
      m'.popFrame.inside w (ip + 1) d₂ := by
    show { m' with frames := m'.frames, runs := _, debugger := d₂ } = { m' with
      frames := ⟨w, ip + 1⟩ :: m'.frames.tail
      runs := ⟨m'.frames.tail.length, .outside⟩ :: m'.runs
      debugger := d₂ }
    rw [hframes, hruns]
    rfl
  exact heq ▸ hgoes

/-- A call of the code that fails. -/
theorem call_fails (h : Carries w es s) (hget : es[ip]? = some (.call c))
    (hs : StaysCalm (s.frames.length + 1) s.runs ((s.calling w (ip + 1)).startRun c .outside)) {fuel : Nat} {e : Error} {m' : Machine}
    (hr : (s.calling w (ip + 1)).execute fuel c = some (.error e m')) (d : Debugger) :
    ∃ n d', steps n (s.inside w ip d) = some (.error e { m'.popFrame with debugger := d' }) := by
  obtain ⟨d₁, hstep⟩ := step_call h hget d
  obtain ⟨n, d₂, hsteps⟩ :=
    (beside_call s w c (ip + 1) d₁).steps_of_error (Nat.lt_succ_self _) hs hr
  have hlen : m'.frames.length = s.frames.length + 1 := (execute_restores hr).frames.length_eq
  have htail : m'.truncateFrames s.frames.length = m'.popFrame := by
    rw [truncateFrames, popFrame, hlen, Nat.add_sub_cancel_left, List.drop_one]
  refine ⟨n + 1, d₂, ?_⟩
  rw [steps_succ_of_running hstep, hsteps, htail]

/-- A call of code that comes to an end does so on its own. -/
theorem call_ends (h : Carries w es s) (hget : es[ip]? = some (.call c))
    (hs : StaysCalm (s.frames.length + 1) s.runs ((s.calling w (ip + 1)).startRun c .outside)) {N : Nat} {r : EStateM.Result Error Machine Unit}
    (hr : steps N (s.inside w ip d) = some r) :
    ∃ fuel r', (s.calling w (ip + 1)).execute fuel c = some r' := by
  obtain ⟨d₁, hstep⟩ := step_call h hget d
  obtain ⟨left, rfl, hleft⟩ := (Goes.one hstep).cut hr
  obtain ⟨r', hr'⟩ := (beside_call s w c (ip + 1) d₁).ends (Nat.lt_succ_self _) hs hleft
  exact ⟨left, r', hr'⟩

/-- A word that ends its caller. -/
theorem exit_goes (h : Carries w es s) (hget : es[ip]? = some (.call c)) (hc : s.Exits c)
    (d : Debugger) : ∃ d', Goes 2 (s.inside w ip d) (s.back d') := by
  obtain ⟨d₁, hstep⟩ := step_call h hget d
  refine ⟨d₁, .step hstep (.one ?_)⟩
  rw [step_native hc h.calm]
  have hback : ¬ ((s.inside w (ip + 1) d₁).enter c).popFrame.isBackAt s.frames.length = true := by
    rw [isBackAt_iff]
    show ¬ s.frames.length + 1 ≤ s.frames.length
    omega
  show Progress.running (if ((s.inside w (ip + 1) d₁).enter c).popFrame.isBackAt s.frames.length
    then _ else _) = _
  rw [if_neg hback]
  rfl

/-- What a counted loop that ends at `x` has put on the return stack. -/
def InLoop (es : List Elem) (exit? : Option Nat) (s : Machine) : Prop :=
  ∀ x, exit? = some x → (1 ≤ x ∧ x ≤ es.length) ∧
    ∃ i l rest, s.return.items = i :: l :: .ofNat x :: rest

theorem InLoop.of_return {exit? : Option Nat} (h : InLoop es exit? s) (hr : s₁.return = s.return) :
    InLoop es exit? s₁ := by
  intro x hx
  rw [hr]
  exact h x hx

/-- The word that leaves a counted loop. -/
theorem leave_goes (h : Holds k w es s) (hget : es[ip]? = some (.call (k .leave))) {x : Nat}
    (hx : InLoop es (some x) s) (hlen : es.length < 2 ^ 63)
    (hdrop : BranchWord.dropLoop s = .ok () s₁) (d : Debugger) :
    ∃ d', Goes 2 (s.inside w ip d) (s₁.inside w x d') := by
  obtain ⟨hbound, i, l, rest, hitems⟩ := hx x rfl
  have hpeek : M.peekReturn 2 s = .ok (.ofNat x) s := by
    simp only [M.peekReturn, Stack.peek, Stack.peek?, hitems]
    rfl
  have hs₁ : Holds k w es s₁ := h.steady (.of_onStacks OnStacks.dropLoop hdrop)
  refine goes_native h.toCarries hget (h.words .leave (by decide)) d fun d => ?_
  have hact : BranchWord.act .leave ((s.inside w (ip + 1) d).enter (k .leave)) =
      .ok () ((s₁.inside w x d).enter (k .leave)) := by
    rw [BranchWord.act, M.bind_ok (inside_ok (M.peekReturn_blind 2) (.peekReturn 2) hpeek w _ _ d),
      M.bind_ok (inside_ok BranchWord.dropLoop_blind .dropLoop hdrop w _ _ d)]
    exact jumpTo_inside hs₁.toCarries hbound hlen (ip + 1) d
  exact M.bind_ok hact

end Machine
end ThreadedForth
